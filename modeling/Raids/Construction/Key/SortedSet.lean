import Raids.Construction.Key.Bits
import Raids.Construction.Key.ListRange

namespace Raids.Key

/-- A sorted set has its members with their scores in the order of their ranks, each member once. -/
structure ZSetData (Z : Type) where
  members : List (Bytes × Z)
  nodup : (members.map Prod.fst).Nodup

namespace ZSetData

variable {Z : Type} (x : ZSetData Z)

def empty : ZSetData Z := ⟨[], List.nodup_nil⟩

def hcount : Nat := x.members.length

/-- Members are counted from one. -/
def zindex (n : Nat) : Option (Bytes × Z) :=
  match n with
  | 0 => none
  | n + 1 => x.members[n]?

/-- The member at an index leaves, and the others keep their order. -/
def zremIndex (n : Nat) : ZSetData Z where
  members := x.members.eraseIdx (n - 1)
  nodup := by
    rw [← List.eraseIdx_map]
    exact x.nodup.eraseIdx (n - 1)

/-- All members leave. -/
def zremall (_ : ZSetData Z) : ZSetData Z := empty

end ZSetData

/-- The scores of a sorted set are decimals, the ones of a geo key are numbers: how a text reads as
a score and a score as a text, and the place of the first member that is not below a score or a
member, or that is above it, counted from one. -/
structure ScoreLib (Z : Type) where
  parse : MdType → Bytes → Z
  toText : MdType → Z → Bytes
  zbsearch : ZSetData Z → Z → Bool → Nat
  zbsearchAll : ZSetData Z → Bytes → Bool → Nat

/-- What the removal of members meets: the table, whether a key without members is deleted, and the
timeout of a blocked command in nanoseconds. -/
structure ZRemEnv where
  table : KeyEnv := {}
  tombstoned : Bool := true
  timeout : Int := 0

/-- The bound of a range may start with a bracket. A round one turns the inclusion over. -/
def zbound (incl : Bool) (str : Bytes) : Bool × Bytes :=
  match str with
  | 40 :: rest => (!incl, rest)
  | 91 :: rest => (incl, rest)
  | _ => (incl, str)

/-- Negative ranks count from the end, and the range ends behind its last rank. The sums wrap. -/
def rankBounds (count : Nat) (ival jval : Int) : Int × Int :=
  let ival := if ival < 0 then toInt64 (count + ival) else ival
  let jval := if jval < 0 then toInt64 (count + jval) else jval
  (min count (max 0 ival), min count (max 0 (toInt64 (jval + 1))))

/-- The commands that remove members. -/
inductive ZRemCmd where
  | zremrangebyrank | zremrangebyscore | zremrangebylex
  | zpopmin | zpopmax | bzpopmin | bzpopmax
  deriving DecidableEq, Repr

def ZRemCmd.isPop : ZRemCmd → Bool
  | .zpopmin | .zpopmax | .bzpopmin | .bzpopmax => true
  | _ => false

def ZRemCmd.isBlocking : ZRemCmd → Bool
  | .bzpopmin | .bzpopmax => true
  | _ => false

def ZRemCmd.isMax : ZRemCmd → Bool
  | .zpopmax | .bzpopmax => true
  | _ => false

/-- The numbers and the texts of a removal. -/
structure ZRemArgs where
  ival : Int := 0
  jval : Int := 0
  lo : Bytes := []
  hi : Bytes := []
  deriving DecidableEq, Repr

/-- A pop without a number has one. -/
def zremArgs (cmd : ZRemCmd) (msg : CommandMsg) : Option ZRemArgs :=
  match cmd with
  | .zpopmin | .zpopmax =>
      if 2 < msg.argc then (msg.getArgInt 2).map fun jval => { jval := jval }
      else some { jval := 1 }
  | .bzpopmin | .bzpopmax => some { jval := 1 }
  | .zremrangebyrank =>
      match msg.getArgInt 2, msg.getArgInt 3 with
      | some ival, some jval => some { ival := ival, jval := jval }
      | _, _ => none
  | .zremrangebyscore | .zremrangebylex =>
      match msg.getArgStr 2, msg.getArgStr 3 with
      | some lo, some hi => some { lo := lo, hi := hi }
      | _, _ => none

section Remove

variable {Z : Type} (lib : ScoreLib Z)

/-- The lowest members are the first ones, the highest ones the last. -/
def popBounds (cmd : ZRemCmd) (count : Nat) (jval : Int) : Int × Int :=
  if cmd.isMax then
    (if 0 < jval ∧ jval ≤ count then count - jval else count, count)
  else (0, if (count : Int) < jval then count else if jval < 0 then 0 else jval)

/-- The places in front of the first member and at the last one; a range of ranks that ends in
front of its start has no places, and a geo key has no range of texts. -/
def zremBounds (cmd : ZRemCmd) (type : MdType) (x : ZSetData Z) (args : ZRemArgs) :
    Option (Option (Int × Int)) :=
  match cmd with
  | .zremrangebyrank =>
      let (ival, jval) := rankBounds x.hcount args.ival args.jval
      if jval ≤ ival then some none else some (some (ival, jval))
  | .zremrangebyscore =>
      if type = .geo then none
      else
        let (loIncl, lo) := zbound true args.lo
        let (hiIncl, hi) := zbound true args.hi
        let i := lib.zbsearch x (lib.parse type lo) (!loIncl)
        let j := lib.zbsearch x (lib.parse type hi) hiIncl
        some (some ((i : Int) - 1, (j : Int) - 1))
  | .zremrangebylex =>
      if type = .geo then none
      else
        let (loIncl, lo) := zbound true args.lo
        let (hiIncl, hi) := zbound true args.hi
        let i := lib.zbsearchAll x lo (!loIncl)
        let j := lib.zbsearchAll x hi hiIncl
        some (some ((i : Int) - 1, (j : Int) - 1))
  | .zpopmin | .zpopmax | .bzpopmin | .bzpopmax =>
      some (some (popBounds cmd x.hcount args.jval))

/-- The members are read from the front, or from the back for the highest ones. -/
def zpopLoop (cmd : ZRemCmd) (x : ZSetData Z) : Nat → Nat → Nat → List (Bytes × Z)
  | 0, _, _ => []
  | left + 1, i, j =>
      match x.zindex (if cmd.isMax then j else i + 1) with
      | none => []
      | some zv =>
          zv :: (if cmd.isMax then zpopLoop cmd x left i (j - 1) else zpopLoop cmd x left (i + 1) j)

/-- A member is sent with its score; a blocking command sends the key in front. -/
def zpopItems (cmd : ZRemCmd) (type : MdType) (key : Bytes) (popped : List (Bytes × Z)) :
    List Bytes :=
  popped.flatMap fun zv =>
    (if cmd.isBlocking then [key] else []) ++ [zv.1, lib.toText type zv.2]

/-- The members leave from the last one to the first one. -/
def zremLoop : Nat → Nat → ZSetData Z → ZSetData Z
  | 0, _, x => x
  | left + 1, j, x => zremLoop left (j - 1) (x.zremIndex j)

/-- The members between two places leave, and a key without members is deleted. The difference of
the places is the number of the reply. -/
def zremMembers (env : ZRemEnv) (found : Fetched (ZSetData Z)) (e : Entry (ZSetData Z))
    (status : ExecStatus) (out : Bytes) (i j : Int) : KeyRun (ZSetData Z) :=
  let ival := j - i
  let x := if ival = e.data.hcount then e.data.zremall
    else zremLoop (j - i).toNat j.toNat e.data
  let run := { found.stop status with entry := some { e with data := x }, out := out, ival := ival }
  if 0 < ival ∧ x.hcount = 0 then
    if env.tombstoned then { run with entry := none, keyspaceDel := true }
    else { run with status := .errKvStatus, keyspaceDel := true }
  else run

/-- The reply for a key without members. -/
def ZRemCmd.nothing (cmd : ZRemCmd) : ExecStatus :=
  if cmd.isPop then .execSendZeroarr else .execSendZero

/-- The members of a key that is there are removed, and those of a pop are sent before. -/
def zremOpened (env : ZRemEnv) (cmd : ZRemCmd) (key : Bytes) (args : ZRemArgs)
    (found : Fetched (ZSetData Z)) (e : Entry (ZSetData Z)) : KeyRun (ZSetData Z) :=
  if e.data.hcount = 0 then found.stop cmd.nothing
  else
    match zremBounds lib cmd found.type e.data args with
    | none => found.stop .errBadType
    | some none => found.stop .execSendZero
    | some (some (i, j)) =>
        if cmd.isPop then
          let popped := zpopLoop cmd e.data (j - i).toNat i.toNat j.toNat
          zremMembers env found e .execOk (sendArray (zpopItems lib cmd found.type key popped)) i j
        else zremMembers env found e .execSendInt [] i j

/-- One function removes members for all these commands. -/
def doZremrange (env : ZRemEnv) (cmd : ZRemCmd) (msg : CommandMsg) (key : Bytes)
    (entry : Option (Entry (ZSetData Z))) : KeyRun (ZSetData Z) :=
  match zremArgs cmd msg with
  | none => unfetched .errBadArgs entry
  | some args =>
      let found := execKeyFetch env.table false entry
      match found.kstatus, found.entry with
      | some .keyOk, some e =>
          if found.type = .noData then found.stop cmd.nothing
          else if found.type ≠ .sortedSet ∧ found.type ≠ .geo then found.stop .errBadType
          else if env.table.valued then zremOpened lib env cmd key args found e
          else found.stop .errKvStatus
      | some .keyIsNew, _ => found.stop cmd.nothing
      | _, _ => found.stop .errKvStatus

def execZremrangebyrank (env : ZRemEnv) := doZremrange lib env .zremrangebyrank

def execZremrangebyscore (env : ZRemEnv) := doZremrange lib env .zremrangebyscore

def execZremrangebylex (env : ZRemEnv) := doZremrange lib env .zremrangebylex

def execZpopmin (env : ZRemEnv) := doZremrange lib env .zpopmin

def execZpopmax (env : ZRemEnv) := doZremrange lib env .zpopmax

/-- A blocking command waits for a member, and the first key that has one ends it. -/
def execBzpop (env : ZRemEnv) (cmd : ZRemCmd) (msg : CommandMsg) (key : Bytes)
    (entry : Option (Entry (ZSetData Z))) : KeyRun (ZSetData Z) :=
  let run := doZremrange lib env cmd msg key entry
  match run.status with
  | .execSendZeroarr => { run with status := .execBlocked, ival := env.timeout }
  | .execOk => { run with status := .execSendData }
  | _ => run

def execBzpopmin (env : ZRemEnv) := execBzpop lib env .bzpopmin

def execBzpopmax (env : ZRemEnv) := execBzpop lib env .bzpopmax

end Remove

end Raids.Key
