import Raids.Construction.Key.SortedSet

namespace Raids.Key

/-- The commands that read a range of a sorted set. -/
inductive ZRangeCmd where
  | zrange | zrevrange | zrangebylex | zrevrangebylex | zrangebyscore | zrevrangebyscore
  deriving DecidableEq, Repr

def ZRangeCmd.isRank : ZRangeCmd → Bool
  | .zrange | .zrevrange => true
  | _ => false

def ZRangeCmd.isLex : ZRangeCmd → Bool
  | .zrangebylex | .zrevrangebylex => true
  | _ => false

def ZRangeCmd.isRev : ZRangeCmd → Bool
  | .zrevrange | .zrevrangebylex | .zrevrangebyscore => true
  | _ => false

/-- The numbers, texts and options of a range. -/
structure ZRangeArgs where
  ival : Int := 0
  jval : Int := 0
  lo : Bytes := []
  hi : Bytes := []
  zoff : Int := 0
  zcnt : Int := 0
  withscores : Bool := false
  deriving DecidableEq, Repr

/-- The options of a range by score or by member. -/
def zrangeOptions (msg : CommandMsg) : Nat → Nat → ZRangeArgs → Option ZRangeArgs
  | 0, _, args => some args
  | left + 1, i, args =>
      if i < msg.argc then
        match msg.matchArg i [text "withscores", text "limit"] with
        | 1 => zrangeOptions msg left (i + 1) { args with withscores := true }
        | 2 =>
            match msg.getArgInt (i + 1), msg.getArgInt (i + 2) with
            | some zoff, some zcnt =>
                zrangeOptions msg left (i + 3) { args with zoff := zoff, zcnt := zcnt }
            | _, _ => none
        | _ => none
      else some args

def zrangeArgs (cmd : ZRangeCmd) (msg : CommandMsg) : Option ZRangeArgs :=
  if cmd.isRank then
    match msg.getArgInt 2, msg.getArgInt 3 with
    | some ival, some jval =>
        some
          { ival := ival
            jval := jval
            withscores := msg.matchArg 4 [text "withscores"] = 1 }
    | _, _ => none
  else
    match msg.getArgStr 2, msg.getArgStr 3 with
    | some lo, some hi => zrangeOptions msg msg.argc 4 { lo := lo, hi := hi }
    | _, _ => none

/-- An unsigned word of 64 bits. -/
def sizeT (v : Int) : Nat := (v % 2 ^ 64).toNat

section Range

variable {Z : Type} (lib : ScoreLib Z)

/-- The signs stand for the place of the first member and the place behind the last one. -/
def lexPlace (x : ZSetData Z) (str : Bytes) (above : Bool) : Nat :=
  if str = [45] then 1
  else if str = [43] then x.hcount + 1
  else lib.zbsearchAll x str above

/-- The place of one bound of a range by score or by member. -/
def boundPlace (isLex : Bool) (type : MdType) (x : ZSetData Z) (str : Bytes) (above : Bool) : Nat :=
  if isLex then lexPlace lib x str above else lib.zbsearch x (lib.parse type str) above

/-- The places in front of the first member and at the last one, in the direction of the command;
an offset moves the first one, and the sums wrap. A geo key has no range of members. -/
def zrangeBounds (cmd : ZRangeCmd) (type : MdType) (x : ZSetData Z) (args : ZRangeArgs) :
    Option (Nat × Nat) :=
  if cmd.isRank then
    let (ival, jval) := rankBounds x.hcount args.ival args.jval
    some (ival.toNat, jval.toNat)
  else if cmd.isLex ∧ type = .geo then none
  else
    let (loIncl, lo) := zbound (!cmd.isRev) args.lo
    let (hiIncl, hi) := zbound (!cmd.isRev) args.hi
    let i := boundPlace lib cmd.isLex type x lo (!loIncl)
    let j := boundPlace lib cmd.isLex type x hi hiIncl
    if cmd.isRev then
      some (sizeT ((x.hcount : Int) + 1 - i + args.zoff), sizeT ((x.hcount : Int) + 1 - j))
    else some (sizeT ((i : Int) - 1 + args.zoff), sizeT ((j : Int) - 1))

/-- The members are read up to the last place, or until as many items as the limit are there. -/
def zscanLoop (isRev withscores : Bool) (maxcnt : Nat) (x : ZSetData Z) :
    Nat → Nat → Nat → List (Bytes × Z)
  | 0, _, _ => []
  | left + 1, i, itemcnt =>
      if maxcnt ≠ 0 ∧ maxcnt ≤ itemcnt then []
      else
        match x.zindex (if isRev then x.hcount + 1 - (i + 1) else i + 1) with
        | none => []
        | some zv =>
            zv :: zscanLoop isRev withscores maxcnt x left (i + 1)
              (itemcnt + if withscores then 2 else 1)

/-- The members that a command reads. -/
def zrangeMembers (cmd : ZRangeCmd) (type : MdType) (x : ZSetData Z) (args : ZRangeArgs) :
    Option (List (Bytes × Z)) :=
  let maxcnt := sizeT (args.zcnt * if args.withscores then 2 else 1)
  (zrangeBounds lib cmd type x args).map fun (i, j) =>
    zscanLoop cmd.isRev args.withscores maxcnt x (j - i) i 0

/-- A member is sent alone or with its score. -/
def zrangeItems (type : MdType) (withscores : Bool) (members : List (Bytes × Z)) : List Bytes :=
  members.flatMap fun zv => if withscores then [zv.1, lib.toText type zv.2] else [zv.1]

/-- The items are sent when the value has not changed while it was read. -/
def sendItemsOf (env : KeyEnv) (found : Fetched (ZSetData Z)) (items : List Bytes) :
    KeyRun (ZSetData Z) :=
  if env.validated then { found.read .execOk with out := sendArray items }
  else found.read .errKvStatus

/-- One function reads a range for all these commands. -/
def doZmultiscan (env : KeyEnv) (cmd : ZRangeCmd) (msg : CommandMsg)
    (entry : Option (Entry (ZSetData Z))) : KeyRun (ZSetData Z) :=
  match zrangeArgs cmd msg with
  | none => unfetched .errBadArgs entry
  | some args =>
      let found := execKeyFetch env true entry
      match found.kstatus, found.entry with
      | some .keyNotFound, _ => sendItemsOf env found []
      | some .keyOk, some e =>
          if found.type = .noData then sendItemsOf env found []
          else if found.type ≠ .sortedSet ∧ found.type ≠ .geo then found.read .errBadType
          else if env.valued then
            if e.data.hcount = 0 then sendItemsOf env found []
            else
              match zrangeMembers lib cmd found.type e.data args with
              | none => found.read .errBadType
              | some members =>
                  sendItemsOf env found (zrangeItems lib found.type args.withscores members)
          else found.read .errKvStatus
      | _, _ => found.read .errKvStatus

def execZrange (env : KeyEnv) := doZmultiscan lib env .zrange

def execZrevrange (env : KeyEnv) := doZmultiscan lib env .zrevrange

def execZrangebylex (env : KeyEnv) := doZmultiscan lib env .zrangebylex

def execZrevrangebylex (env : KeyEnv) := doZmultiscan lib env .zrevrangebylex

def execZrangebyscore (env : KeyEnv) := doZmultiscan lib env .zrangebyscore

def execZrevrangebyscore (env : KeyEnv) := doZmultiscan lib env .zrevrangebyscore

/-- The place of the lower bound of a count; a minus sign stands for the first member. -/
def countLow (isLex : Bool) (type : MdType) (x : ZSetData Z) (str : Bytes) : Nat :=
  let (incl, lo) := zbound true str
  if lo = [45] then 1
  else if isLex then lib.zbsearchAll x lo (!incl)
  else lib.zbsearch x (lib.parse type lo) (!incl)

/-- The place of the upper bound of a count; a plus sign stands for the place behind the last
member. -/
def countHigh (isLex : Bool) (type : MdType) (x : ZSetData Z) (str : Bytes) : Nat :=
  let (incl, hi) := zbound true str
  if hi = [43] then x.hcount + 1
  else if isLex then lib.zbsearchAll x hi incl
  else lib.zbsearch x (lib.parse type hi) incl

/-- The number of members between two bounds is the difference of their places. A geo key has no
range of members. -/
def doZread (env : KeyEnv) (isLex : Bool) (msg : CommandMsg)
    (entry : Option (Entry (ZSetData Z))) : KeyRun (ZSetData Z) :=
  match msg.getArgStr 2, msg.getArgStr 3 with
  | some lo, some hi =>
      let found := execKeyFetch env true entry
      match found.kstatus, found.entry with
      | some .keyNotFound, _ => found.read .execSendZero
      | some .keyOk, some e =>
          if found.type = .noData then found.read .execSendZero
          else if found.type ≠ .sortedSet ∧ found.type ≠ .geo then found.read .errBadType
          else if env.valued then
            if isLex ∧ found.type = .geo then found.read .errBadType
            else
              let i := countLow lib isLex found.type e.data lo
              let j := countHigh lib isLex found.type e.data hi
              { found.read (if env.validated then .execSendInt else .errKvStatus) with
                ival := (j : Int) - i }
          else found.read .errKvStatus
      | _, _ => found.read .errKvStatus
  | _, _ => unfetched .errBadArgs entry

def execZcount (env : KeyEnv) := doZread lib env false

def execZlexcount (env : KeyEnv) := doZread lib env true

end Range

end Raids.Key
