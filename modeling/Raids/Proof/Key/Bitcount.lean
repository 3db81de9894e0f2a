import Raids.Construction.Key.Bits
import Raids.Proof.Key.Add

namespace Raids.Key
open LittleEndian

/-- The bits of a list of bytes. -/
def bitSum (bytes : Bytes) : Nat := (bytes.map fun b => LittleEndian.popcount 8 b.toNat).sum

@[simp] theorem bitSum_nil : bitSum [] = 0 := rfl

theorem bitSum_append (first second : Bytes) :
    bitSum (first ++ second) = bitSum first + bitSum second := by
  simp [bitSum]

theorem bitSum_eq_zero {bytes : Bytes} : bitSum bytes = 0 ↔ ∀ b ∈ bytes, b = 0 := by
  rw [bitSum, List.sum_eq_zero_iff]
  simp only [List.mem_map, forall_exists_index, and_imp, forall_apply_eq_imp_iff₂]
  apply forall₂_congr
  intro b _
  rw [popcount_eq_zero b.toNat_lt, ← UInt8.toNat_inj]
  rfl

/-- A word of at most eight bytes has the bits of its bytes. -/
theorem popcount_word {bytes : Bytes} (short : bytes.length ≤ 8) :
    LittleEndian.popcount 64 (value bytes) = bitSum bytes := by
  have bound := value_lt bytes
  rw [show (256 : Nat) = 2 ^ 8 by norm_num, ← pow_mul] at bound
  have more := popcount_of_le (64 - 8 * bytes.length) bound
  rw [show 8 * bytes.length + (64 - 8 * bytes.length) = 64 by omega] at more
  rw [more, popcount_value, bitSum]

/-- The loop counts all bytes but the last ones, of which there are at most eight. -/
theorem countWords_spec (fuel : Nat) (p : Bytes) (cnt : Nat) (enough : p.length ≤ fuel) :
    ∃ words tail, p = words ++ tail ∧ countWords fuel p cnt = (cnt + bitSum words, tail) ∧
      tail.length ≤ 8 ∧ words.length % 8 = 0 ∧ (p ≠ [] → tail ≠ []) := by
  induction fuel generalizing p cnt with
  | zero =>
      have empty : p = [] := List.length_eq_zero_iff.mp (by omega)
      subst empty
      exact ⟨[], [], rfl, rfl, by decide, rfl, fun nonempty => nonempty⟩
  | succ fuel ih =>
      rw [countWords]
      by_cases more : 8 < p.length
      · rw [if_pos more]
        obtain ⟨words, tail, rest, counted, short, whole, some⟩ :=
          ih (p.drop 8) (cnt + LittleEndian.popcount 64 (value (p.take 8)))
            (by rw [List.length_drop]; omega)
        have first : (p.take 8).length = 8 := by rw [List.length_take]; omega
        apply Exists.intro (p.take 8 ++ words)
        apply Exists.intro tail
        apply And.intro
        · rw [List.append_assoc, ← rest, List.take_append_drop]
        apply And.intro
        · rw [counted, bitSum_append, popcount_word first.le, add_assoc]
        apply And.intro short
        apply And.intro
        · rw [List.length_append, first]
          omega
        · intro _
          apply some
          intro empty
          rw [List.drop_eq_nil_iff] at empty
          omega
      · rw [if_neg more]
        exact ⟨[], p, rfl, by simp, by omega, rfl, fun nonempty => nonempty⟩

/-- A shift makes room for the bits of a short word. -/
theorem popcount_shift {high width low : Nat} (small : low < 2 ^ width) (short : width ≤ 64)
    (room : high < 2 ^ (64 - width)) :
    LittleEndian.popcount 64 (high <<< width ||| low) =
      LittleEndian.popcount 64 high + LittleEndian.popcount 64 low := by
  have split : 64 = width + (64 - width) := by omega
  have whole := popcount_add width (64 - width) high small
  rw [← split] at whole
  have lowPart := popcount_of_le (64 - width) small
  rw [← split] at lowPart
  have highPart := popcount_of_le width room
  rw [Nat.sub_add_cancel short] at highPart
  rw [← Nat.shiftLeft_add_eq_or_of_lt small, Nat.shiftLeft_eq, add_comm, mul_comm, whole, lowPart,
    highPart, add_comm]

/-- A word of a few bytes is gathered behind the bytes before it. -/
theorem popcount_gather {high k : Nat} {p : Bytes} (short : k ≤ 8)
    (room : high < 2 ^ (64 - 8 * k)) :
    LittleEndian.popcount 64 (high <<< (8 * k) ||| value (p.take k)) =
      LittleEndian.popcount 64 high + bitSum (p.take k) := by
  have size : (p.take k).length ≤ k := by rw [List.length_take]; omega
  have bound : value (p.take k) < 2 ^ (8 * k) := by
    apply (value_lt _).trans_le
    rw [pow_mul]
    exact Nat.pow_le_pow_right (by norm_num) size
  rw [popcount_shift bound (by omega) room, popcount_word (size.trans short)]

/-- One step of the gathering. -/
def gather (k : Nat) (flag : Prop) [Decidable flag] (s : Nat × Bytes) : Nat × Bytes :=
  if flag then (s.1 <<< (8 * k) ||| value (s.2.take k), s.2.drop k) else s

theorem tailWord_eq (p : Bytes) :
    tailWord p =
      (gather 1 (p.length &&& 1 ≠ 0)
        (gather 2 (p.length &&& 2 ≠ 0) (gather 4 (p.length &&& 4 ≠ 0) (0, p)))).1 := by
  simp only [tailWord, gather, Nat.zero_shiftLeft, Nat.zero_or]
  split_ifs <;> rfl

/-- A step keeps the number of bits. -/
theorem gather_spec {k c : Nat} (flag : Prop) [Decidable flag] {s : Nat × Bytes}
    (small : s.1 < 2 ^ (8 * c)) (fits : c + k ≤ 8) :
    LittleEndian.popcount 64 (gather k flag s).1 + bitSum (gather k flag s).2 =
        LittleEndian.popcount 64 s.1 + bitSum s.2 ∧
      (gather k flag s).1 < 2 ^ (8 * (c + k)) ∧
      (gather k flag s).2.length = s.2.length - if flag then k else 0 := by
  rw [gather]
  by_cases holds : flag
  · rw [if_pos holds, if_pos holds]
    have room : s.1 < 2 ^ (64 - 8 * k) :=
      small.trans_le (Nat.pow_le_pow_right (by decide) (by omega))
    apply And.intro
    · rw [popcount_gather (by omega) room, add_assoc, ← bitSum_append, List.take_append_drop]
    apply And.intro
    · have bound : value (s.2.take k) < 2 ^ (8 * (c + k)) := by
        apply (value_lt _).trans_le
        rw [show (256 : Nat) = 2 ^ 8 by norm_num, ← pow_mul]
        apply Nat.pow_le_pow_right (by decide)
        rw [List.length_take]
        omega
      apply Nat.or_lt_two_pow _ bound
      rw [Nat.shiftLeft_eq, Nat.mul_add, pow_add]
      exact Nat.mul_lt_mul_of_pos_right small (by positivity)
    · exact List.length_drop
  · rw [if_neg holds, if_neg holds]
    exact ⟨rfl, small.trans_le (Nat.pow_le_pow_right (by decide) (by omega)), rfl⟩

/-- The flags of a short length take all bytes. -/
theorem flags_sum : ∀ n < 8, n - (if n &&& 4 ≠ 0 then 4 else 0) - (if n &&& 2 ≠ 0 then 2 else 0) -
    (if n &&& 1 ≠ 0 then 1 else 0) = 0 := by
  decide

/-- The last bytes are counted when there are fewer than eight. -/
theorem popcount_tailWord {p : Bytes} (short : p.length < 8) :
    LittleEndian.popcount 64 (tailWord p) = bitSum p := by
  have first := gather_spec (k := 4) (c := 0) (s := (0, p)) (p.length &&& 4 ≠ 0) (by simp) (by decide)
  have second := gather_spec (k := 2) (p.length &&& 2 ≠ 0) first.2.1 (by decide)
  have third := gather_spec (k := 1) (p.length &&& 1 ≠ 0) second.2.1 (by decide)
  have empty := third.2.2
  rw [second.2.2, first.2.2, flags_sum _ short, List.length_eq_zero_iff] at empty
  have sum := third.1
  rw [second.1, first.1, empty, popcount_zero, zero_add, bitSum_nil, add_zero] at sum
  rw [tailWord_eq, sum]

/-- Eight last bytes are not counted. -/
theorem tailWord_eight {p : Bytes} (eight : p.length = 8) : tailWord p = 0 := by
  simp [tailWord, eight]

/-- When there are whole words only, the last one is not counted. -/
theorem countBits_eq (p : Bytes) :
    countBits p = if p.length % 8 = 0 then bitSum (p.take (p.length - 8)) else bitSum p := by
  obtain ⟨words, tail, split, counted, short, whole, some⟩ := countWords_spec p.length p 0 le_rfl
  have size : p.length = words.length + tail.length := by rw [split, List.length_append]
  rw [countBits, counted]
  simp only [zero_add]
  by_cases full : p.length % 8 = 0
  · rw [if_pos full]
    by_cases empty : p = []
    · subst empty
      have parts : words = [] ∧ tail = [] := List.append_eq_nil_iff.mp split.symm
      rw [parts.1, parts.2]
      rfl
    · have positive := List.length_pos_of_ne_nil (some empty)
      have eight : tail.length = 8 := by omega
      have front : p.take (p.length - 8) = words := by
        rw [split, List.length_append, eight, Nat.add_sub_cancel, List.take_left]
      rw [tailWord_eight eight, popcount_zero, add_zero, front]
  · rw [if_neg full, popcount_tailWord (by omega), ← bitSum_append, ← split]

/-- The bytes that the clamping of a range selects. -/
def selected (data : Bytes) (start stop : Int) : Bytes :=
  let first := max (fromEnd data.length start) 0
  let last := min (max (fromEnd data.length stop) 0) (data.length - 1)
  if (start < 0 ∧ stop < 0 ∧ stop < start) ∨ last < first then []
  else (data.drop first.toNat).take (last + 1 - first).toNat

/-- The first offset is behind the string, but the last byte is in reach. -/
def ReachesLast (size : Nat) (start stop : Int) : Prop :=
  size ≤ start ∧ (size = 1 ∨ size - 1 ≤ fromEnd size stop)

/-- Both offsets count from the end and cross before the string. -/
def CrossesFirst (size : Nat) (start stop : Int) : Prop :=
  start < 0 ∧ stop < start ∧ fromEnd size start ≤ 0

/-- The ranges of the code and of the clamping are the same but for a first or a last byte. -/
theorem clipRange_eq {data : Bytes} (nonempty : data ≠ []) (start stop : Int) :
    (ReachesLast data.length start stop ∧ selected data start stop = [] ∧
        clipRange data start stop = [data.getLast nonempty]) ∨
      (CrossesFirst data.length start stop ∧ selected data start stop = [] ∧
        clipRange data start stop = [data.head nonempty]) ∨
      (¬ReachesLast data.length start stop ∧ ¬CrossesFirst data.length start stop ∧
        clipRange data start stop = selected data start stop) := by
  have positive := List.length_pos_of_ne_nil nonempty
  rw [ReachesLast, CrossesFirst]
  by_cases reaches : (data.length : Int) ≤ start ∧
      (data.length = 1 ∨ (data.length : Int) - 1 ≤ fromEnd data.length stop)
  · apply Or.inl
    apply And.intro reaches
    have same : fromEnd data.length start = start := if_neg (by omega)
    apply And.intro
    · rw [selected, if_pos]
      apply Or.inr
      rw [same]
      omega
    · rw [clipRange, same]
      have first : min (max start 0) ((data.length : Int) - 1) = data.length - 1 := by omega
      have last : max (min (fromEnd data.length stop) ((data.length : Int) - 1)) 0 =
          data.length - 1 := by
        rcases reaches.2 with one | far <;> omega
      simp only [first, last, le_refl, if_true]
      rw [show ((data.length : Int) - 1).toNat = data.length - 1 by omega,
        show ((data.length : Int) - 1 + 1 - (data.length - 1)).toNat = 1 by omega,
        List.drop_length_sub_one nonempty]
      rfl
  · by_cases crosses : start < 0 ∧ stop < start ∧ fromEnd data.length start ≤ 0
    · apply Or.inr
      apply Or.inl
      apply And.intro crosses
      have before : fromEnd data.length stop ≤ 0 := by
        rw [fromEnd, if_pos crosses.1] at crosses
        rw [fromEnd, if_pos (by omega)]
        omega
      apply And.intro
      · rw [selected, if_pos]
        exact Or.inl ⟨crosses.1, by omega, crosses.2.1⟩
      · rw [clipRange]
        have first : min (max (fromEnd data.length start) 0) ((data.length : Int) - 1) = 0 := by
          omega
        have last : max (min (fromEnd data.length stop) ((data.length : Int) - 1)) 0 = 0 := by
          omega
        simp only [first, last, le_refl, if_true]
        cases data with
        | nil => exact absurd rfl nonempty
        | cons b data => rfl
    · apply Or.inr
      apply Or.inr
      apply And.intro reaches
      apply And.intro crosses
      rw [clipRange, selected]
      have last : max (min (fromEnd data.length stop) ((data.length : Int) - 1)) 0 =
          min (max (fromEnd data.length stop) 0) (data.length - 1) := by omega
      simp only [last]
      by_cases far : (data.length : Int) ≤ start
      · have same : fromEnd data.length start = start := if_neg (by omega)
        rw [same, if_neg (by omega), if_pos (Or.inr (by omega))]
      · by_cases back : start < 0 ∧ stop < 0 ∧ stop < start
        · have startSame : fromEnd data.length start = data.length + start := if_pos back.1
          have stopSame : fromEnd data.length stop = data.length + stop := if_pos back.2.1
          rw [startSame] at crosses
          rw [startSame, stopSame, if_neg (by omega), if_pos (Or.inl back)]
        · have first : min (max (fromEnd data.length start) 0) ((data.length : Int) - 1) =
              max (fromEnd data.length start) 0 := by
            rw [fromEnd]
            split <;> omega
          rw [first]
          by_cases inside : max (fromEnd data.length start) 0 ≤
              min (max (fromEnd data.length stop) 0) ((data.length : Int) - 1)
          · rw [if_pos inside, if_neg]
            rintro (again | outside)
            · exact back again
            · omega
          · rw [if_neg inside, if_pos (Or.inr (by omega))]

/-- The count is right when the last word of whole words is clear, and when no byte outside of the
range is counted. -/
def BitcountMeets (data : Bytes) (start stop : Int) : Prop :=
  ((selected data start stop).length % 8 = 0 →
      ∀ b ∈ (selected data start stop).drop ((selected data start stop).length - 8), b = 0) ∧
    (ReachesLast data.length start stop → ∀ b ∈ data.getLast?, b = 0) ∧
    (CrossesFirst data.length start stop → ∀ b ∈ data.head?, b = 0)

/-- The code counts the bits of the range under the condition only. -/
theorem countBits_clipRange_iff {data : Bytes} (nonempty : data ≠ []) (start stop : Int) :
    countBits (clipRange data start stop) = bitSum (selected data start stop) ↔
      BitcountMeets data start stop := by
  have single : ∀ b : UInt8, countBits [b] = 0 ↔ b = 0 := by
    intro b
    rw [countBits_eq, if_neg (by simp), bitSum_eq_zero]
    simp
  have positive := List.length_pos_of_ne_nil nonempty
  rw [BitcountMeets, List.getLast?_eq_some_getLast nonempty, List.head?_eq_some_head nonempty]
  rcases clipRange_eq nonempty start stop with
    ⟨reaches, none, one⟩ | ⟨crosses, none, one⟩ | ⟨inside, ahead, same⟩
  · have notCrosses : ¬CrossesFirst data.length start stop := by
      rw [ReachesLast] at reaches
      rw [CrossesFirst]
      omega
    rw [none, one, bitSum_nil, single]
    simp [reaches, notCrosses]
  · have notReaches : ¬ReachesLast data.length start stop := by
      rw [CrossesFirst] at crosses
      rw [ReachesLast]
      omega
    rw [none, one, bitSum_nil, single]
    simp [crosses, notReaches]
  · rw [same, countBits_eq]
    simp only [inside, ahead, false_implies, and_true]
    generalize selected data start stop = range
    by_cases full : range.length % 8 = 0
    · rw [if_pos full]
      have parts := bitSum_append (range.take (range.length - 8)) (range.drop (range.length - 8))
      rw [List.take_append_drop] at parts
      rw [parts, eq_comm, Nat.add_eq_left, bitSum_eq_zero]
      simp [full]
    · simp [full]

@[simp] theorem selected_nil (start stop : Int) : selected [] start stop = [] := by
  rw [selected]
  split <;> simp

theorem bitcountMeets_nil (start stop : Int) : BitcountMeets [] start stop := by
  simp [BitcountMeets]

/-- The reply is the number of bits in the range under the condition only, for every string and
every pair of offsets. -/
theorem execBitcount_exact {env : KeyEnv} (works : env.Works) {msg : CommandMsg} {start stop : Int}
    (first : optionalInt msg 2 0 = some start) (second : optionalInt msg 3 (-1) = some stop)
    {entry : Option (Entry Bytes)} {data : Bytes}
    (string : (stringValue env entry).string? = some data) (arg0 : Bytes) :
    (execBitcount env msg entry).reply arg0 = sendInt (bitSum (selected data start stop)) ↔
      BitcountMeets data start stop := by
  have found := getKeyRead_string works entry
  rw [execBitcount, first, second]
  cases value : stringValue env entry with
  | other =>
      rw [value] at string
      cases string
  | absent =>
      rw [value] at found string
      obtain rfl := Option.some.inj string
      simp only [found]
      apply iff_of_true _ (bitcountMeets_nil start stop)
      rw [selected_nil, bitSum_nil]
      exact sendInt_zero
  | bytes str =>
      rw [value] at found string
      obtain rfl := Option.some.inj string
      obtain ⟨e, ok, isEntry, rfl⟩ := found
      simp only [ok, isEntry]
      by_cases empty : e.data = []
      · rw [empty]
        apply iff_of_true _ (bitcountMeets_nil start stop)
        rw [selected_nil, bitSum_nil]
        exact sendInt_zero
      · have counted : (if e.data.isEmpty = true then
              (getKeyRead env .string entry).read ExecStatus.execSendZero
            else (getKeyRead env .string entry).int env
              (countBits (clipRange e.data start stop))).reply arg0 =
            sendInt (countBits (clipRange e.data start stop)) := by
          rw [if_neg (by simpa using empty), Fetched.int, if_pos ⟨works.valued, works.validated⟩]
          rfl
        rw [counted, ← countBits_clipRange_iff empty]
        apply Iff.intro
        · intro same
          exact Int.ofNat.inj (sendInt_injective same)
        · intro same
          rw [same]

/-- The words of a count of all bits. -/
def bitcountMsg : CommandMsg := ⟨commandWords ["bitcount", "k"], by decide⟩

def stringEntry (s : String) : Option (Entry Bytes) := some ⟨.string, text s, 0⟩

/-- The seven bits of two letters. -/
theorem execBitcount_exact_letters :
    (execBitcount quietEnv bitcountMsg (stringEntry "ag")).reply [] =
      sendInt (bitSum (selected (text "ag") 0 (-1))) :=
  (execBitcount_exact quietEnv_works (by decide) (by decide) (by decide) []).mpr
    (by rw [BitcountMeets, ReachesLast, CrossesFirst]; decide)

/-- The bits of eight letters are not counted. -/
theorem not_execBitcount_exact :
    ¬(execBitcount quietEnv bitcountMsg (stringEntry "aaaaaaaa")).reply [] =
      sendInt (bitSum (selected (text "aaaaaaaa") 0 (-1))) := by
  decide

end Raids.Key
