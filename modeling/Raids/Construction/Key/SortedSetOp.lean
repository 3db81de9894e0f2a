import Raids.Construction.Key.SetOp
import Raids.Construction.Key.SortedSet

namespace Raids.Key

/-- The operations on sorted sets. -/
inductive ZSetOp where
  | zunion | zinter
  deriving DecidableEq, Repr

def ZSetOp.op : ZSetOp → SetOp
  | .zunion => .sunion
  | .zinter => .sinter

/-- How the scores of a member in several sets become one. -/
inductive ZAggregateType where
  | sum | min | max | none
  deriving DecidableEq, Repr

/-- The sorted sets of the table are sets whose members have scores: the score of a number and of a
text, a set with all scores scaled, and the start of a merge from the weight of the other set, the
aggregate, and whether there are weights at all. -/
structure ZSetLib (Z S M : Type) extends SetLib S M where
  itod : Int → Z
  strToScore : Bytes → Z
  zscale : S → Z → S
  init : Z → ZAggregateType → Bool → M

/-- The aggregate and the weights that are given in front of the merge. -/
structure ZSetOptions (Z : Type) where
  aggregateType : ZAggregateType := .sum
  weights : Option (List Z) := none

section Options

variable {Z S M : Type} (lib : ZSetLib Z S M) (msg : CommandMsg)

/-- One weight for each source. -/
def zsetopWeights : Nat → Nat → Option (List Z)
  | 0, _ => some []
  | left + 1, i =>
      match msg.getArgStr i, zsetopWeights left (i + 1) with
      | some str, some weights => some (lib.strToScore str :: weights)
      | _, _ => none

def zsetopAggregate (i : Nat) : Option ZAggregateType :=
  match msg.matchArg i [text "sum", text "min", text "max", text "none"] with
  | 1 => some .sum
  | 2 => some .min
  | 3 => some .max
  | 4 => some .none
  | _ => none

/-- The options behind the sources, in any order; the last one of a kind counts. -/
def zsetopOptions (nkeys : Nat) : Nat → Nat → ZSetOptions Z → Option (ZSetOptions Z)
  | 0, _, options => some options
  | left + 1, i, options =>
      if i < msg.argc then
        match msg.matchArg i [text "aggregate", text "weights"] with
        | 1 =>
            match zsetopAggregate msg (i + 1) with
            | none => none
            | some type =>
                zsetopOptions nkeys left (i + 2) { options with aggregateType := type }
        | 2 =>
            match zsetopWeights lib msg nkeys (i + 1) with
            | none => none
            | some weights =>
                zsetopOptions nkeys left (i + 1 + nkeys) { options with weights := some weights }
        | _ => none
      else some options

end Options

/-- A source is saved with its type. -/
structure ZSetPart where
  type : MdType := .noData
  data : Bytes := []
  deriving DecidableEq, Repr

/-- The type of a source is saved in front of its bytes. -/
def ZSetPart.save (part : ZSetPart) : Bytes := UInt8.ofNat part.type.ctorIdx :: part.data

/-- A source is a sorted set, a geo key, or it is missing. -/
def ZSetPart.load (saved : Option Bytes) : ZSetPart :=
  match saved with
  | some (type :: data) =>
      if type = UInt8.ofNat MdType.sortedSet.ctorIdx then ⟨.sortedSet, data⟩
      else if type = UInt8.ofNat MdType.geo.ctorIdx then ⟨.geo, data⟩
      else ⟨.noData, data⟩
  | _ => {}

/-- The first source that is not missing decides about the type. -/
def sourceType (parts : List ZSetPart) : MdType :=
  ((parts.map ZSetPart.type).find? fun type => type ≠ .noData).getD .sortedSet

section Merge

variable {S M : Type} (lib : SetLib S M) (op : SetOp) (fuel : Nat) (type : MdType)

/-- The sources behind the first one are merged into it, each from a start of its own. A source of
another type ends the merge. -/
def zmergeOthers : List (ZSetPart × M) → Nat → S → Except ExecStatus S
  | [], _, set => .ok set
  | (part, start) :: parts, retry, set =>
      if part.type ≠ type ∧ part.type ≠ .noData then .error .errBadType
      else
        match setMergeLoop lib op (lib.load part.data) fuel retry set start with
        | none => .error .errAllocFail
        | some (set, retry) => zmergeOthers parts retry set

end Merge

section Commands

variable {Z S M T N : Type} [DecidableEq Z] (lib : ZSetLib Z S M) (geo : SetLib T N)
  (env : KeyEnv) (fuel : Nat) (op : ZSetOp)

/-- The first set is scaled by its weight, unless that is zero. -/
def zsetopFirst (options : ZSetOptions Z) (set : S) : S :=
  match options.weights with
  | some (weight :: _) => if weight ≠ lib.itod 0 then lib.zscale set weight else set
  | _ => set

/-- The merge of a source starts with its weight. -/
def zsetopStart (options : ZSetOptions Z) (i : Nat) : M :=
  match options.weights with
  | some weights => lib.init (weights[i]?.getD (lib.itod 1)) options.aggregateType true
  | none => lib.init (lib.itod 1) options.aggregateType false

/-- The merged sources: the bytes and the number of the result, and the type of the last source. -/
def zsetopMerge (options : ZSetOptions Z) (first : ZSetPart) (others : List ZSetPart) :
    Except ExecStatus (Bytes × Nat × MdType) :=
  let type := sourceType (first :: others)
  let last := (others.getLast?.map ZSetPart.type).getD type
  if type = .sortedSet then
    let set := zsetopFirst lib options (lib.load first.data)
    let starts := others.mapIdx fun i part => (part, zsetopStart lib options (i + 1))
    (zmergeOthers lib.toSetLib op.op fuel type starts 0 set).map fun set =>
      (lib.listp set, lib.hcount set, last)
  else
    let starts := others.map fun part => (part, geo.start)
    (zmergeOthers geo op.op fuel type starts 0 (geo.load first.data)).map fun set =>
      (geo.listp set, geo.hcount set, last)

/-- The merged sources overwrite the destination. A command without sources has no first part to
read. -/
def doZsetopStore (msg : CommandMsg) (s : CommandRun Bytes) (entry : Option (Entry Bytes)) :
    KeyRun Bytes :=
  match zsetopOptions lib msg (s.keys.length - 1) msg.argc (3 + s.keys.length - 1) {},
      s.keys.tail.map fun key => ZSetPart.load key.part with
  | none, _ => unfetched .errBadArgs entry
  | some _, [] => unfetched .errKvStatus entry
  | some options, first :: others =>
      match zsetopMerge lib geo fuel op options first others with
      | .error status => unfetched status entry
      | .ok (data, count, type) =>
          let found := execKeyFetch env false entry
          match found.kstatus with
          | some .keyIsNew | some .keyOk =>
              if env.resized then
                { found.stop .execSendInt with
                    entry := some (Entry.write found.entry data)
                    ival := count
                    type := type
                    isNew := true }
              else found.stop .errKvStatus
          | _ => found.stop .errKvStatus

/-- A source is saved when it has not changed while it was read. -/
def zsetopSource (found : Fetched Bytes) (part : ZSetPart) : KeyRun Bytes × Option Bytes :=
  let part := if part.data.length = 0 then { part with data := lib.mtList } else part
  if env.validated then (found.read .execOk, some part.save)
  else (found.read .errKvStatus, some part.save)

/-- The first key is the destination, and it waits for the sources. -/
def doZsetop (msg : CommandMsg) : Handler Bytes := fun s ctx entry =>
  if ctx.argn = 1 ∧ s.keys.length ≠ s.keyDone + 1 then (unfetched .execDepends entry, none)
  else if ctx.argn ≠ 1 then
    let found := execKeyFetch env true entry
    match found.kstatus, found.entry with
    | some .keyOk, some e =>
        if found.type = .sortedSet ∨ found.type = .geo then
          if env.valued then zsetopSource lib env found ⟨found.type, e.data⟩
          else (found.read .errKvStatus, none)
        else if found.type ≠ .noData then (found.read .errBadType, none)
        else zsetopSource lib env found {}
    | some .keyNotFound, _ => zsetopSource lib env found {}
    | _, _ => (found.read .errKvStatus, none)
  else (doZsetopStore lib geo env fuel op msg s entry, none)

def execZunionstore := doZsetop lib geo env fuel .zunion

def execZinterstore := doZsetop lib geo env fuel .zinter

end Commands

end Raids.Key
