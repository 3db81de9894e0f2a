import Raids.Construction.Key.Add
import Raids.Construction.Key.Continue
import Raids.Construction.Key.ListMove

namespace Raids.Key

/-- A set has its members in the order of its index, each once. -/
structure SetData where
  members : List Bytes
  nodup : members.Nodup
  deriving DecidableEq, Repr

namespace SetData

def empty : SetData := ⟨[], List.nodup_nil⟩

def hcount (x : SetData) : Nat := x.members.length

/-- A member is removed, if it is there. -/
def srem (x : SetData) (arg : Bytes) : Bool × SetData :=
  (decide (arg ∈ x.members), ⟨x.members.erase arg, x.nodup.erase arg⟩)

/-- A member is added behind the others, if it is not there. -/
def sadd (x : SetData) (arg : Bytes) : SetData :=
  if present : arg ∈ x.members then x
  else ⟨x.members ++ [arg], List.nodup_append.mpr ⟨x.nodup, by simp, by
    intro m member other isOther same
    rw [List.mem_singleton.mp isOther] at same
    exact present (same ▸ member)⟩⟩

end SetData

/-- What a move of a member meets: the table at the source, whether an empty source is deleted, and
whether the table finds the destination and its value, gives memory for a new one and lets a full
one grow. The clock is the same for both keys. -/
structure SmoveEnv where
  source : KeyEnv := {}
  tombstoned : Bool := true
  destFetched : Bool := true
  destValued : Bool := true
  destResized : Bool := true
  destGrow : List Bool := []

def SmoveEnv.dest (env : SmoveEnv) : KeyEnv :=
  { env.source with
    fetched := env.destFetched
    valued := env.destValued
    resized := env.destResized
    grow := env.destGrow }

/-- The member is added again when a full set has grown. -/
def saddLoop (arg : Bytes) (run : KeyRun SetData) (e : Entry SetData) :
    List Bool → KeyRun SetData
  | [] => { run with status := .execSendOne, entry := some { e with data := e.data.sadd arg } }
  | true :: grow => saddLoop arg run e grow
  | false :: _ => { run with status := .errKvStatus, entry := some e }

/-- A set for the member is created, also in the place of a value of another type. -/
def createAndAdd (env : KeyEnv) (arg : Bytes) (found : Fetched SetData) : KeyRun SetData :=
  if env.resized then
    saddLoop arg { found.stop .execOk with isNew := true, type := .set }
      (Entry.write found.entry .empty) env.grow
  else found.stop .errKvStatus

/-- The member leaves the source, and a source without members is deleted. -/
def doSwriteSource (env : SmoveEnv) (arg : Bytes) (entry : Option (Entry SetData)) :
    KeyRun SetData :=
  let found := getKeyWrite env.source .set entry
  match found.kstatus, found.entry with
  | some .keyIsNew, _ => found.stop .execAbortSendZero
  | some .keyNoValue, _ => found.stop .errBadType
  | some .keyOk, some e =>
      if env.source.valued then
        let (removed, x) := e.data.srem arg
        if removed then
          if x.hcount = 0 then
            if env.tombstoned then { found.stop .execOk with entry := none, keyspaceDel := true }
            else
              { found.stop .errKvStatus with
                entry := some { e with data := x }
                keyspaceDel := true }
          else { found.stop .execOk with entry := some { e with data := x } }
        else found.stop .execAbortSendZero
      else found.stop .errKvStatus
  | _, _ => found.stop .errKvStatus

/-- The member comes to the destination. -/
def doSwriteDest (env : KeyEnv) (arg : Bytes) (entry : Option (Entry SetData)) : KeyRun SetData :=
  let found := getKeyWrite env .set entry
  match found.kstatus, found.entry with
  | some .keyIsNew, _ => createAndAdd env arg found
  | some .keyNoValue, _ => createAndAdd env arg found
  | some .keyOk, some e =>
      if env.valued then saddLoop arg (found.stop .execOk) e env.grow
      else found.stop .errKvStatus
  | _, _ => found.stop .errKvStatus

/-- The commands that change the members of one set. -/
inductive SetWrite where
  | sadd | srem
  deriving DecidableEq, Repr

/-- Whether a member changes the set, and the set behind it. -/
def SetWrite.write (cmd : SetWrite) (x : SetData) (arg : Bytes) : Bool × SetData :=
  match cmd with
  | .sadd => (decide (arg ∉ x.members), x.sadd arg)
  | .srem => x.srem arg

/-- A removal is not tried again, an addition is until the set has grown enough. -/
def SetWrite.room (cmd : SetWrite) (env : WriteEnv) (i : Nat) : Bool :=
  cmd = .srem || env.room i

/-- The members are written one by one, up to an argument that is no string. A set that loses its
last member is deleted. -/
def swriteLoop (env : WriteEnv) (cmd : SetWrite) (msg : CommandMsg) (run : KeyRun SetData) :
    Nat → Nat → Bytes → Int → Entry SetData → KeyRun SetData
  | 0, argi, arg, ival, e =>
      if cmd.room env argi then
        let (changed, x) := cmd.write e.data arg
        let ival := if changed then ival + 1 else ival
        let run := { run with
          status := .execSendInt, entry := some { e with data := x }, ival := ival }
        if cmd = .srem ∧ 0 < ival ∧ x.hcount = 0 then
          if env.tombstoned then { run with entry := none, keyspaceDel := true }
          else { run with status := .errKvStatus, keyspaceDel := true }
        else run
      else { run with status := .errKvStatus, entry := some e, ival := ival }
  | more + 1, argi, arg, ival, e =>
      if cmd.room env argi then
        let (changed, x) := cmd.write e.data arg
        let ival := if changed then ival + 1 else ival
        let e := { e with data := x }
        match msg.getArgStr argi with
        | none => { run with status := .errBadArgs, entry := some e, ival := ival }
        | some arg => swriteLoop env cmd msg run more (argi + 1) arg ival e
      else { run with status := .errKvStatus, entry := some e, ival := ival }

/-- The arguments become members of a set, or leave it. -/
def doSwriteArgs (env : WriteEnv) (cmd : SetWrite) (msg : CommandMsg)
    (entry : Option (Entry SetData)) : KeyRun SetData :=
  match msg.getArgStr 2 with
  | none => unfetched .errBadArgs entry
  | some arg =>
      let found := getKeyWrite env.table .set entry
      match found.kstatus, found.entry with
      | some .keyOk, some e =>
          if env.table.valued then
            swriteLoop env cmd msg (found.stop .execOk) (msg.argc - 3) 3 arg 0 e
          else found.stop .errKvStatus
      | some .keyIsNew, old =>
          if cmd = .srem then found.stop .execSendZero
          else if ¬sizedArgs msg then found.stop .errBadArgs
          else if env.table.resized then
            swriteLoop env cmd msg { found.stop .execOk with isNew := true, type := .set }
              (msg.argc - 3) 3 arg 0 (Entry.write old .empty)
          else found.stop .errKvStatus
      | some .keyNoValue, _ => found.stop .errBadType
      | _, _ => found.stop .errKvStatus

def execSadd (env : WriteEnv) := doSwriteArgs env .sadd

def execSrem (env : WriteEnv) := doSwriteArgs env .srem

/-- The commands that read one set. -/
inductive SetRead where
  | scard | sismember
  deriving DecidableEq, Repr

def doSread (env : KeyEnv) (cmd : SetRead) (msg : CommandMsg) (entry : Option (Entry SetData)) :
    KeyRun SetData :=
  match if cmd = .scard then some [] else msg.getArgStr 2 with
  | none => unfetched .errBadArgs entry
  | some arg =>
      let found := getKeyRead env .set entry
      match found.kstatus, found.entry with
      | some .keyOk, some e =>
          if env.valued ∧ env.validated then
            match cmd with
            | .scard =>
                { found.stop .execSendInt with ival := e.data.hcount, isReadOnly := true }
            | .sismember =>
                { found.stop (if arg ∈ e.data.members then .execSendOne else .execSendZero) with
                    isReadOnly := true }
          else { found.stop .errKvStatus with isReadOnly := true }
      | some .keyNotFound, _ => { found.stop .execSendZero with isReadOnly := true }
      | some .keyNoValue, _ => { found.stop .errBadType with isReadOnly := true }
      | _, _ => { found.stop .errKvStatus with isReadOnly := true }

def execScard (env : KeyEnv) := doSread env .scard

def execSismember (env : KeyEnv) := doSread env .sismember

/-- The destination waits for the source. -/
def execSmove (env : SmoveEnv) (msg : CommandMsg) : Handler SetData := fun s ctx entry =>
  if ctx.argn = 2 ∧ s.keyDone = 0 then (unfetched .execDepends entry, none)
  else
    match msg.getArgStr 3 with
    | none => (unfetched .errBadArgs entry, none)
    | some arg =>
        if ctx.argn = 1 then (doSwriteSource env arg entry, none)
        else (doSwriteDest env.dest arg entry, none)

end Raids.Key
