import Raids.Construction.Collection.SetBits
import Raids.Construction.Key.ListRange
import Raids.Construction.Key.SetMove

namespace Raids.Key

namespace SetData

/-- Members are counted from one. -/
def lindex (x : SetData) (n : Nat) : Option Bytes :=
  match n with
  | 0 => none
  | n + 1 => x.members[n]?

/-- The member at a place leaves, the others keep their order. -/
def spopn (x : SetData) (n : Nat) : SetData :=
  ⟨x.members.eraseIdx (n - 1), x.nodup.eraseIdx (n - 1)⟩

/-- All members leave. -/
def spopall (_ : SetData) : SetData := empty

end SetData

/-- The two commands that sample. -/
inductive SampleCmd where
  | spop
  | srandmember
  deriving DecidableEq, Repr

/-- What a sampling meets: the table, whether an empty set is deleted, the index mask of the set,
and the memory of the bits. -/
structure SampleEnv where
  table : KeyEnv := {}
  tombstoned : Bool := true
  indexMask : Nat := 0
  memory : Nat → BitVec 64 := fun _ => 0
  heap : Nat → Bool := fun _ => true

/-- An index at the count or above it is halved until it is below. -/
def belowCount (count m : Nat) : Nat :=
  if 0 < count ∧ count ≤ m then belowCount count (m >>> 1) else m
termination_by m
decreasing_by
  rename_i high
  rw [Nat.shiftRight_eq_div_pow]
  omega

/-- The first place, the largest number of items or zero, and whether the bits choose the items. -/
structure Sample where
  start : Nat := 0
  maxcnt : Nat := 0
  useBits : Bool := false
  bits : SetBits

section Draw

variable (env : SampleEnv) (count : Nat)

/-- A random number gives a try for each 16 of its bits that are left. A bit that was not set
counts, and the loop is done when the count comes to zero. -/
def drawWord : Nat → BitVec 64 → Int → SetBits → Option (Bool × Int × SetBits)
  | 0, _, ival, bits => some (false, ival, bits)
  | left + 1, n, ival, bits => do
      let m := belowCount count (n.toNat &&& env.indexMask)
      let (isSet, bits) ← bits.testSet env.heap m
      let ival := if isSet then ival else ival - 1
      if !isSet ∧ ival = 0 then return (true, ival, bits)
      else drawWord left (n >>> 16) ival bits

/-- Numbers are drawn until enough bits are set. Without a result the numbers are used up, or a word
outside the bits is written. -/
def drawLoop : List (BitVec 64) → Int → SetBits → Option SetBits
  | [], _, _ => none
  | n :: draws, ival, bits => do
      let (isDone, ival, bits) ← drawWord env count 4 n ival bits
      if isDone then return bits else drawLoop draws ival bits

/-- The items are all members, one random member, the drawn members, or all but the drawn ones. A
negative number counts as a large one. -/
def sample (draws : List (BitVec 64)) (ival : Int) : Option Sample :=
  if ival < 0 ∨ count ≤ ival then some { bits := .init env.memory }
  else if ival = 1 then
    match draws with
    | [] => none
    | n :: _ =>
        some { start := belowCount count (n.toNat &&& env.indexMask), maxcnt := 1,
               bits := .init env.memory }
  else do
    let isFlip := (count / 2 : Nat) < ival
    let ival := if isFlip then count - ival else ival
    let bits ← drawLoop env count draws ival (.init env.memory)
    if isFlip then
      let (_, bits) ← bits.flip env.heap count
      return { useBits := true, bits := bits }
    else return { useBits := true, bits := bits }

end Draw

/-- The place of the next item. -/
def Sample.next (s : Sample) (i : Nat) : Bool × Nat := if s.useBits then s.bits.next i else (true, i)

/-- The items are read from a place on, and the place is behind the last one that was read. -/
def scanLoop (x : SetData) (s : Sample) : Nat → Nat → List Bytes → Nat × List Bytes
  | 0, i, items => (i, items)
  | left + 1, i, items =>
      if x.hcount ≤ i ∨ (s.maxcnt ≠ 0 ∧ s.maxcnt ≤ items.length) then (i, items)
      else
        match s.next i with
        | (false, i) => (i, items)
        | (true, i) =>
            match x.lindex (i + 1) with
            | none => (i + 1, items)
            | some lv => scanLoop x s left (i + 1) (items ++ [lv])

/-- The members with a bit leave from the last one to the first one. -/
def popLoop (bits : SetBits) : Nat → Nat → SetData → SetData
  | 0, _, x => x
  | left + 1, j, x =>
      match bits.prev j with
      | (false, _) => x
      | (true, j) => popLoop bits left j (x.spopn (j + 1))

/-- The items that were read leave the set. -/
def popItems (x : SetData) (s : Sample) (i itemcnt : Nat) : SetData :=
  if itemcnt = 1 then x.spopn i
  else if itemcnt = x.hcount then x.spopall
  else popLoop s.bits x.hcount x.hcount x

/-- The items are the reply of a read that finds the value unchanged. -/
def sampleRead (env : KeyEnv) (found : Fetched SetData) (items : List Bytes) : KeyRun SetData :=
  if env.validated then { found.read .execOk with out := sendArray items }
  else found.read .errKvStatus

/-- The items leave the set, and a set without members is deleted. -/
def samplePop (env : SampleEnv) (found : Fetched SetData) (e : Entry SetData) (s : Sample)
    (i : Nat) (items : List Bytes) : KeyRun SetData :=
  if items.isEmpty then { found.stop .execOk with out := sendArray items }
  else
    let x := popItems e.data s i items.length
    if x.hcount = 0 then
      if env.tombstoned then
        { found.stop .execOk with entry := none, keyspaceDel := true, out := sendArray items }
      else
        { found.stop .errKvStatus with
          entry := some { e with data := x }
          keyspaceDel := true }
    else { found.stop .execOk with entry := some { e with data := x }, out := sendArray items }

/-- The reply of no items, which leaves the set unchanged. -/
def sampleNone (env : SampleEnv) (cmd : SampleCmd) (found : Fetched SetData) : KeyRun SetData :=
  match cmd with
  | .spop => { found.stop .execOk with out := sendArray [] }
  | .srandmember => sampleRead env.table found []

/-- The members of a set that is read are sampled. -/
def sampleMembers (env : SampleEnv) (cmd : SampleCmd) (draws : List (BitVec 64)) (ival : Int)
    (found : Fetched SetData) (e : Entry SetData) : Option (KeyRun SetData) :=
  if e.data.hcount = 0 then some (sampleNone env cmd found)
  else
    (sample env e.data.hcount draws ival).map fun s =>
      let (i, items) := scanLoop e.data s e.data.hcount s.start []
      match cmd with
      | .spop => samplePop env found e s i items
      | .srandmember => sampleRead env.table found items

/-- Nothing stands for a run that goes on behind the numbers drawn, or that the code leaves
undefined. -/
def doSmultiscan (env : SampleEnv) (cmd : SampleCmd) (msg : CommandMsg)
    (draws : List (BitVec 64)) (entry : Option (Entry SetData)) : Option (KeyRun SetData) :=
  match optionalInt msg 2 1 with
  | none => some (unfetched .errBadArgs entry)
  | some ival =>
      match cmd with
      | .spop =>
          let found := getKeyWrite env.table .set entry
          match found.kstatus, found.entry with
          | some .keyIsNew, _ => some (sampleNone env cmd found)
          | some .keyNoValue, _ => some (found.stop .errBadType)
          | some .keyOk, some e =>
              if env.table.valued then sampleMembers env cmd draws ival found e
              else some (found.stop .errKvStatus)
          | _, _ => some (found.stop .errKvStatus)
      | .srandmember =>
          let found := getKeyRead env.table .set entry
          match found.kstatus, found.entry with
          | some .keyNotFound, _ => some (sampleNone env cmd found)
          | some .keyNoValue, _ => some (found.read .errBadType)
          | some .keyOk, some e =>
              if env.table.valued then sampleMembers env cmd draws ival found e
              else some (found.read .errKvStatus)
          | _, _ => some (found.read .errKvStatus)

end Raids.Key
