import Mathlib.Data.List.GetD
import Raids.Proof.Key.Add
import Raids.Proof.Key.BitopBytes

namespace Raids.Key

/-- The operation on one byte of the data and of another source. -/
def BitOp.byteOp : BitOp → UInt8 → UInt8 → UInt8
  | .bitAndOp, b, c => b &&& c
  | .bitOrOp, b, c => b ||| c
  | .bitXorOp, b, c => b ^^^ c
  | .bitNotOp, b, _ => b

/-- The byte of the first source, which a negation turns over. -/
def BitOp.firstByte : BitOp → UInt8 → UInt8
  | .bitNotOp, b => ~~~b
  | _, b => b

/-- The operation is folded over the bytes at each place, with zeros behind the sources. -/
def pointwise (op : BitOp) : List Bytes → Bytes
  | [] => []
  | first :: rest =>
      (List.range (maxSize (first :: rest))).map fun i =>
        (rest.map (·.getD i 0)).foldl op.byteOp (op.firstByte (first.getD i 0))

/-- The byte that the merge leaves. Behind the end of a source, an exclusive or turns the byte
over. -/
def BitOp.mergedByte (op : BitOp) (i : Nat) (b : UInt8) (part : Bytes) : UInt8 :=
  if op = .bitXorOp ∧ part.length ≤ i then ~~~b else op.byteOp b (part.getD i 0)

theorem getD_zipWith {byteOp : UInt8 → UInt8 → UInt8} {x y : Bytes} (same : x.length = y.length)
    {i : Nat} (inside : i < x.length) :
    (List.zipWith byteOp x y).getD i 0 = byteOp (x.getD i 0) (y.getD i 0) := by
  have also : i < y.length := same ▸ inside
  have both : i < (List.zipWith byteOp x y).length := by rw [List.length_zipWith]; omega
  rw [List.getD_eq_getElem _ _ both, List.getD_eq_getElem _ _ inside,
    List.getD_eq_getElem _ _ also, List.getElem_zipWith]

theorem getD_take_of_lt {x : Bytes} {i n : Nat} (before : i < n) :
    (x.take n).getD i 0 = x.getD i 0 := by
  rw [List.getD_eq_getElem?_getD, List.getD_eq_getElem?_getD, List.getElem?_take_of_lt before]

theorem getD_behind {x y : Bytes} {n i : Nat} (size : x.length = n) (behind : n ≤ i) :
    (x ++ y).getD i 0 = y.getD (i - n) 0 := by
  rw [List.getD_eq_getElem?_getD, List.getD_eq_getElem?_getD,
    List.getElem?_append_right (by omega), size]

theorem getD_before {x y : Bytes} {n i : Nat} (size : x.length = n) (before : i < n) :
    (x ++ y).getD i 0 = x.getD i 0 := by
  rw [List.getD_eq_getElem?_getD, List.getD_eq_getElem?_getD,
    List.getElem?_append_left (by omega)]

/-- The bytes that a source has are merged with a word operation, and another string stands behind
them. -/
theorem mergeBytes {op : WordOp} {byteOp : UInt8 → UInt8 → UInt8} (bytewise : Bytewise op byteOp)
    {data part : Bytes} (short : part.length ≤ data.length) (more : Bytes) :
    (bitop op (data.take part.length) (part.take part.length)).length = part.length ∧
      (∀ i < part.length,
        (bitop op (data.take part.length) (part.take part.length) ++ more).getD i 0 =
          byteOp (data.getD i 0) (part.getD i 0)) ∧
      ∀ i, part.length ≤ i →
        (bitop op (data.take part.length) (part.take part.length) ++ more).getD i 0 =
          more.getD (i - part.length) 0 := by
  have same : (data.take part.length).length = (part.take part.length).length := by
    rw [List.length_take, List.length_take]
    omega
  have size : (bitop op (data.take part.length) (part.take part.length)).length =
      part.length := by
    rw [bitop_eq bytewise same, List.length_zipWith, List.length_take, List.length_take]
    omega
  apply And.intro size
  apply And.intro
  · intro i inside
    rw [getD_before size inside, bitop_eq bytewise same,
      getD_zipWith same (by rw [List.length_take]; omega), getD_take_of_lt inside,
      getD_take_of_lt inside]
  · intro i behind
    exact getD_behind size behind

theorem getD_drop (x : Bytes) (n i : Nat) : (x.drop n).getD i 0 = x.getD (n + i) 0 := by
  rw [List.getD_eq_getElem?_getD, List.getD_eq_getElem?_getD, List.getElem?_drop]

theorem getD_zeros (n i : Nat) : (List.replicate n (0 : UInt8)).getD i 0 = 0 := by
  rw [List.getD_eq_getElem?_getD, List.getElem?_replicate]
  split <;> rfl

/-- A merge keeps the length and merges every byte. -/
theorem mergePart_spec (op : BitOp) {data part : Bytes} (short : part.length ≤ data.length) :
    (mergePart op data part).length = data.length ∧
      ∀ i < data.length, (mergePart op data part).getD i 0 = op.mergedByte i (data.getD i 0) part := by
  have whole : min part.length data.length = part.length := by omega
  have none : ∀ i, part.length ≤ i → part.getD i 0 = 0 := by
    intro i behind
    rw [List.getD_eq_getElem?_getD, List.getElem?_eq_none behind]
    rfl
  cases op with
  | bitNotOp => exact ⟨rfl, fun i _ => rfl⟩
  | bitAndOp =>
      simp only [mergePart, whole]
      obtain ⟨size, before, behind⟩ := mergeBytes bytewise_andt short
        (if 0 < data.length - part.length then List.replicate (data.length - part.length) 0
          else data.drop part.length)
      apply And.intro
      · rw [List.length_append, size]
        split
        · rw [List.length_replicate]
          omega
        · rw [List.length_drop]
          omega
      · intro i inside
        by_cases within : i < part.length
        · rw [before i within]
          rfl
        · rw [behind i (by omega), if_pos (by omega), getD_zeros, BitOp.mergedByte, if_neg (by simp), none i (by omega)]
          exact UInt8.and_zero.symm
  | bitOrOp =>
      simp only [mergePart, whole]
      obtain ⟨size, before, behind⟩ := mergeBytes bytewise_ort short (data.drop part.length)
      apply And.intro
      · rw [List.length_append, size, List.length_drop]
        omega
      · intro i inside
        by_cases within : i < part.length
        · rw [before i within]
          rfl
        · rw [behind i (by omega), getD_drop, Nat.add_sub_cancel' (by omega), BitOp.mergedByte,
            if_neg (by simp), none i (by omega)]
          exact UInt8.or_zero.symm
  | bitXorOp =>
      simp only [mergePart, whole]
      obtain ⟨size, before, behind⟩ := mergeBytes bytewise_xort short
        (if 0 < data.length - part.length then notBits (data.drop part.length)
          else data.drop part.length)
      apply And.intro
      · rw [List.length_append, size]
        split
        · rw [notBits_eq, List.length_map, List.length_drop]
          omega
        · rw [List.length_drop]
          omega
      · intro i inside
        by_cases within : i < part.length
        · rw [before i within, BitOp.mergedByte, if_neg (by omega)]
          rfl
        · rw [behind i (by omega), if_pos (by omega), notBits_eq, BitOp.mergedByte,
            if_pos ⟨rfl, by omega⟩, List.getD_eq_getElem _ _ (by simp; omega), List.getElem_map,
            List.getElem_drop, List.getD_eq_getElem _ _ inside]
          simp only [Nat.add_sub_cancel' (by omega : part.length ≤ i)]

/-- The merges of all sources keep the length and merge every byte. -/
theorem foldl_mergePart (op : BitOp) {rest : List Bytes} (data : Bytes)
    (short : ∀ part ∈ rest, part.length ≤ data.length) :
    (rest.foldl (mergePart op) data).length = data.length ∧
      ∀ i < data.length, (rest.foldl (mergePart op) data).getD i 0 =
        rest.foldl (op.mergedByte i) (data.getD i 0) := by
  induction rest generalizing data with
  | nil => exact ⟨rfl, fun i _ => rfl⟩
  | cons part rest ih =>
      obtain ⟨size, bytes⟩ := mergePart_spec op (short part (by simp))
      obtain ⟨sizeRest, bytesRest⟩ := ih (mergePart op data part) (by
        intro other member
        rw [size]
        exact short other (by simp [member]))
      rw [size] at sizeRest bytesRest
      apply And.intro sizeRest
      intro i inside
      rw [List.foldl_cons, bytesRest i inside, bytes i inside, List.foldl_cons]

/-- The later sources that have no byte at a place. -/
def endedAt (rest : List Bytes) (i : Nat) : Nat := rest.countP fun part => part.length ≤ i

/-- An exclusive or turns its byte over once for every source that has ended. -/
theorem foldl_mergedByte_xor (rest : List Bytes) (i : Nat) (b : UInt8) :
    rest.foldl (BitOp.bitXorOp.mergedByte i) b =
      if endedAt rest i % 2 = 0 then (rest.map (·.getD i 0)).foldl (· ^^^ ·) b
      else ~~~(rest.map (·.getD i 0)).foldl (· ^^^ ·) b := by
  have turn : ∀ (bytes : List UInt8) (b : UInt8),
      bytes.foldl (· ^^^ ·) (~~~b) = ~~~(bytes.foldl (· ^^^ ·) b) := by
    intro bytes
    induction bytes with
    | nil => exact fun _ => rfl
    | cons c bytes ih =>
        intro b
        rw [List.foldl_cons, List.foldl_cons, UInt8.not_xor, ih]
  induction rest generalizing b with
  | nil => rfl
  | cons part rest ih =>
      rw [List.foldl_cons, ih, List.map_cons, List.foldl_cons, endedAt, endedAt, List.countP_cons]
      by_cases ended : part.length ≤ i
      · have zero : part.getD i 0 = 0 := by
          rw [List.getD_eq_getElem?_getD, List.getElem?_eq_none ended]
          rfl
        have turned : BitOp.bitXorOp.mergedByte i b part = ~~~b := if_pos ⟨rfl, ended⟩
        rw [zero, UInt8.xor_zero, turned, turn]
        simp only [ended, decide_true, if_true]
        by_cases even : (rest.countP fun part => decide (part.length ≤ i)) % 2 = 0
        · rw [if_pos even, if_neg (by omega)]
        · rw [if_neg even, if_pos (by omega), UInt8.not_not]
      · have merged : BitOp.bitXorOp.mergedByte i b part = b ^^^ part.getD i 0 :=
          if_neg fun both => ended both.2
        simp only [merged, ended, decide_false, Bool.false_eq_true, if_false, Nat.add_zero]

theorem foldl_mergedByte {op : BitOp} (notXor : op ≠ .bitXorOp) (rest : List Bytes) (i : Nat)
    (b : UInt8) : rest.foldl (op.mergedByte i) b = (rest.map (·.getD i 0)).foldl op.byteOp b := by
  induction rest generalizing b with
  | nil => rfl
  | cons part rest ih =>
      rw [List.foldl_cons, ih, List.map_cons, List.foldl_cons, BitOp.mergedByte,
        if_neg fun both => notXor both.1]

theorem length_le_maxSize {parts : List Bytes} {part : Bytes} (member : part ∈ parts) :
    part.length ≤ maxSize parts := by
  have least : ∀ (sizes : List Nat) (start : Nat), start ≤ sizes.foldl max start ∧
      ∀ size ∈ sizes, size ≤ sizes.foldl max start := by
    intro sizes
    induction sizes with
    | nil => exact fun start => ⟨le_rfl, fun size member => by cases member⟩
    | cons size sizes ih =>
        intro start
        obtain ⟨first, rest⟩ := ih (max start size)
        rw [List.foldl_cons]
        apply And.intro (by omega)
        intro other member
        rcases List.mem_cons.mp member with rfl | member
        · omega
        · exact rest other member
  exact (least _ 0).2 _ (List.mem_map_of_mem member)

/-- The data have the length of the longest source, and their bytes are merged. -/
theorem bitopData_spec (op : BitOp) (first : Bytes) (rest : List Bytes) :
    (bitopData op (first :: rest)).length = maxSize (first :: rest) ∧
      ∀ i < maxSize (first :: rest), (bitopData op (first :: rest)).getD i 0 =
        rest.foldl (op.mergedByte i) (op.firstByte (first.getD i 0)) := by
  have firstLe := @length_le_maxSize (first :: rest) first (by simp)
  have restLe : ∀ part ∈ rest, part.length ≤ maxSize (first :: rest) :=
    fun part member => length_le_maxSize (by simp [member])
  rw [bitopData]
  generalize maxSize (first :: rest) = len at *
  have filled : (first ++ List.replicate (len - first.length) 0).length = len := by
    rw [List.length_append, List.length_replicate]
    omega
  have started : (if op = .bitNotOp then notBits (first ++ List.replicate (len - first.length) 0)
      else first ++ List.replicate (len - first.length) 0).length = len := by
    split
    · rw [notBits_eq, List.length_map, filled]
    · exact filled
  obtain ⟨size, bytes⟩ := foldl_mergePart op _ (by rwa [started])
  rw [started] at size bytes
  apply And.intro size
  intro i inside
  have padded : (first ++ List.replicate (len - first.length) 0).getD i 0 = first.getD i 0 := by
    by_cases within : i < first.length
    · exact getD_before rfl within
    · rw [getD_behind rfl (by omega), getD_zeros, List.getD_eq_getElem?_getD,
        List.getElem?_eq_none (by omega)]
      rfl
  rw [bytes i inside, ← padded]
  congr 1
  by_cases negation : op = .bitNotOp
  · subst negation
    rw [if_pos rfl, notBits_eq,
      List.getD_eq_getElem _ _ (by rw [List.length_map, filled]; exact inside), List.getElem_map,
      List.getD_eq_getElem _ _ (by rw [filled]; exact inside)]
    rfl
  · rw [if_neg negation]
    cases op with
    | bitNotOp => exact absurd rfl negation
    | bitAndOp | bitOrOp | bitXorOp => rfl

theorem length_pointwise (op : BitOp) (first : Bytes) (rest : List Bytes) :
    (pointwise op (first :: rest)).length = maxSize (first :: rest) := by
  rw [pointwise, List.length_map, List.length_range]

theorem getD_pointwise (op : BitOp) (first : Bytes) (rest : List Bytes) {i : Nat}
    (inside : i < maxSize (first :: rest)) :
    (pointwise op (first :: rest)).getD i 0 =
      (rest.map (·.getD i 0)).foldl op.byteOp (op.firstByte (first.getD i 0)) := by
  rw [List.getD_eq_getElem _ _ (by rwa [length_pointwise])]
  simp only [pointwise, List.getElem_map, List.getElem_range]

/-- The merge is the pointwise operation, where an exclusive or turns every byte over an even number
of times. -/
theorem bitopData_eq_iff (op : BitOp) (first : Bytes) (rest : List Bytes) :
    bitopData op (first :: rest) = pointwise op (first :: rest) ↔
      (op = .bitXorOp → ∀ i < maxSize (first :: rest), endedAt rest i % 2 = 0) := by
  obtain ⟨size, bytes⟩ := bitopData_spec op first rest
  have sizes : (bitopData op (first :: rest)).length = (pointwise op (first :: rest)).length := by
    rw [size, length_pointwise]
  have ext : bitopData op (first :: rest) = pointwise op (first :: rest) ↔
      ∀ i < maxSize (first :: rest), rest.foldl (op.mergedByte i) (op.firstByte (first.getD i 0)) =
        (rest.map (·.getD i 0)).foldl op.byteOp (op.firstByte (first.getD i 0)) := by
    apply Iff.intro
    · intro same i inside
      rw [← bytes i inside, same, getD_pointwise op first rest inside]
    · intro same
      apply List.ext_getElem sizes
      intro i inData inPointwise
      have inside : i < maxSize (first :: rest) := by rwa [size] at inData
      rw [← List.getD_eq_getElem _ 0 inData, ← List.getD_eq_getElem _ 0 inPointwise,
        bytes i inside, getD_pointwise op first rest inside]
      exact same i inside
  rw [ext]
  by_cases xor : op = .bitXorOp
  · subst xor
    simp only [forall_true_left]
    apply forall₂_congr
    intro i _
    rw [foldl_mergedByte_xor]
    have never : ∀ b : UInt8, ~~~b ≠ b := by
      intro b same
      have bound := b.toNat_lt
      have values := congrArg UInt8.toNat same
      rw [UInt8.toNat_not, UInt8.size] at values
      omega
    by_cases even : endedAt rest i % 2 = 0
    · exact iff_of_true (if_pos even) even
    · rw [if_neg even]
      exact iff_of_false (never _) even
  · apply iff_of_true
    · intro i _
      exact foldl_mergedByte xor rest i _
    · exact fun isXor => absurd isXor xor

end Raids.Key
