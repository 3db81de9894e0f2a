import Raids.Construction.Key.Bits
import Raids.Construction.Key.Continue
import Raids.Construction.Key.ListRange

namespace Raids.Key

/-- The three operations on sets. -/
inductive SetOp where
  | sunion | sinter | sdiff
  deriving DecidableEq, Repr

/-- The sets of the table: the bytes of a set without members, a set over the bytes of a value and
back, its counts, the member at an index, the start of a merge, one run of a merge that ends or is
full and keeps its position, and the copy into a larger set. -/
structure SetLib (S M : Type) where
  mtList : Bytes
  load : Bytes → S
  listp : S → Bytes
  count : S → Nat
  hcount : S → Nat
  dataLen : S → Nat
  lindex : S → Nat → Option Bytes
  start : M
  merge : SetOp → S → S → M → Bool × S × M
  copy : S → Nat → Nat → S

section Merge

variable {S M : Type} (lib : SetLib S M) (op : SetOp)

/-- A set that is full is copied into a larger one, and the merge goes on at its position. Nothing
is left when there is not fuel enough for all runs. -/
def setMergeLoop (set2 : S) : Nat → Nat → S → M → Option (S × Nat)
  | 0, _, _, _ => none
  | fuel + 1, retry, set, pos =>
      match lib.merge op set set2 pos with
      | (true, set, _) => some (set, retry)
      | (false, set, pos) =>
          let count := lib.count set2 + 2
          let ndata := lib.dataLen set2 + retry
          setMergeLoop set2 fuel (retry + 16) (lib.copy set count ndata) pos

/-- The other parts are merged into the first one. -/
def mergeOthers (fuel : Nat) : List Bytes → Nat → S → Option S
  | [], _, set => some set
  | part :: parts, retry, set =>
      match setMergeLoop lib op (lib.load part) fuel retry set lib.start with
      | none => none
      | some (set, retry) => mergeOthers fuel parts retry set

def mergeSets (fuel : Nat) : List Bytes → Option S
  | [] => none
  | part :: parts => mergeOthers lib op fuel parts 0 (lib.load part)

/-- The members are read from index one on, up to the count or the first index without one. -/
def memberLoop (set : S) : Nat → Nat → List Bytes
  | 0, _ => []
  | left + 1, i =>
      match lib.lindex set (i + 1) with
      | none => []
      | some lv => lv :: memberLoop set left (i + 1)

def SetLib.members (set : S) : List Bytes := memberLoop lib set (lib.count set) 0

end Merge

section Commands

variable {S M : Type} (lib : SetLib S M) (env : KeyEnv) (fuel : Nat) (op : SetOp)

/-- The merged set overwrites the destination, also one of another type. -/
def ssetopDest (set : S) (entry : Option (Entry Bytes)) : KeyRun Bytes :=
  let found := getKeyWrite env .set entry
  match found.kstatus with
  | some .keyNoValue | some .keyIsNew | some .keyOk =>
      if env.resized then
        { found.stop .execSendInt with
            entry := some (Entry.write found.entry (lib.listp set))
            ival := lib.hcount set
            type := .set
            isNew := true }
      else found.stop .errKvStatus
  | _ => found.stop .errKvStatus

/-- A source is saved, and the last key to run sends the members of the merged set. -/
def ssetopSource (s : CommandRun Bytes) (ctx : KeyCtx) (found : Fetched Bytes) (data : Bytes) :
    KeyRun Bytes × Option Bytes :=
  let data := if data.length = 0 then lib.mtList else data
  if env.validated then
    if s.keys.length = s.keyDone + 1 then
      let parts := s.keys.map fun key => if key.argn = ctx.argn then data else key.part.getD []
      match mergeSets lib op fuel parts with
      | none => (found.read .errAllocFail, some data)
      | some set => ({ found.read .execOk with out := sendArray (lib.members set) }, some data)
    else (found.read .execOk, some data)
  else (found.read .errKvStatus, some data)

/-- The first key of a command that stores is the destination, and it waits for the sources. -/
def doSsetop (store : Bool) : Handler Bytes := fun s ctx entry =>
  if store ∧ ctx.argn = 1 then
    if s.keys.length ≠ s.keyDone + 1 then (unfetched .execDepends entry, none)
    else
      match mergeSets lib op fuel (s.keys.tail.map fun key => key.part.getD []) with
      | none => (unfetched .errAllocFail entry, none)
      | some set => (ssetopDest lib env set entry, none)
  else
    let found := getKeyRead env .set entry
    match found.kstatus, found.entry with
    | some .keyNoValue, _ => (found.read .errBadType, none)
    | some .keyOk, some e =>
        if env.valued then ssetopSource lib env fuel op s ctx found e.data
        else (found.read .errKvStatus, none)
    | some .keyNotFound, _ => ssetopSource lib env fuel op s ctx found []
    | _, _ => (found.read .errKvStatus, none)

def execSunion := doSsetop lib env fuel .sunion false

def execSinter := doSsetop lib env fuel .sinter false

def execSdiff := doSsetop lib env fuel .sdiff false

def execSunionstore := doSsetop lib env fuel .sunion true

def execSinterstore := doSsetop lib env fuel .sinter true

def execSdiffstore := doSsetop lib env fuel .sdiff true

end Commands

end Raids.Key
