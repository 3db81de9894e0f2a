import Raids.Construction.Key.Bitfield
import Raids.Library.BitField
import Raids.Proof.Key.Set

namespace Raids.Key

open LittleEndian

/-- The loaded bytes are the first ones, as many as cover the bits. -/
theorem loadBytes_eq {need j : Nat} (bounded : need ≤ 72) (more : 8 * j < need) (rest : Bytes) :
    loadBytes need j rest = rest.take ((need + 7) / 8 - j) := by
  induction rest generalizing j with
  | nil => simp [loadBytes]
  | cons b rest ih =>
      obtain ⟨k, count⟩ : ∃ k, (need + 7) / 8 - j = k + 1 := ⟨(need + 7) / 8 - j - 1, by omega⟩
      rw [count, List.take_succ_cons, loadBytes]
      congr 1
      split
      · have last : k = 0 := by omega
        rw [last, List.take_zero]
      · rw [ih (by omega)]
        congr 1
        omega

namespace Int72

/-- The bits of the word come before those of its byte. -/
def bit (x : Int72) (i : Nat) : Bool :=
  if i < 64 then x.ival.getLsbD i else x.high.getLsbD (i - 64)

/-- Nine bytes at most are laid out as they are. -/
theorem bit_ofBytes {loaded : Bytes} (short : loaded.length ≤ 9) (i : Nat) :
    (ofBytes loaded).bit i = bitAt loaded i := by
  have split : loaded = loaded.take 8 ++ loaded.drop 8 := (List.take_append_drop 8 loaded).symm
  rw [bit]
  by_cases low : i < 64
  · rw [if_pos low, ofBytes, BitVec.getLsbD_ofNat, testBit_value, bitAt_take]
    simp [low]
  · obtain ⟨j, rfl⟩ : ∃ j, i = 64 + j := ⟨i - 64, by omega⟩
    rw [if_neg low, ofBytes, Nat.add_sub_cancel_left, BitVec.getLsbD_ofNat, testBit_value,
      bitAt_drop]
    by_cases inside : j < 8
    · simp [inside]
    · rw [bitAt_of_le loaded (by omega)]
      simp

theorem length_bytes (x : Int72) : x.bytes.length = 9 := by
  rw [bytes, List.length_append, length_digits, length_digits]

theorem bitAt_bytes (x : Int72) (i : Nat) : bitAt x.bytes i = x.bit i := by
  rw [bytes, bitAt_append, length_digits, bitAt_digits, bitAt_digits, bit]
  by_cases low : i < 64
  · rw [if_pos low, if_pos low, BitVec.testBit_toNat]
    simp [low]
  · rw [if_neg low, if_neg low, BitVec.testBit_toNat]
    by_cases inside : i - 64 < 8
    · simp [inside]
    · rw [BitVec.getLsbD_of_ge _ _ (by omega), Bool.and_false]

/-- A shift to the right brings the bits of the byte into the word. Without a count the byte must be
clear. -/
theorem getLsbD_shr {x : Int72} {k i : Nat} (small : k < 8) (clear : k = 0 → x.high = 0)
    (inside : i < 64) : (x.shr k).ival.getLsbD i = x.bit (i + k) := by
  rw [shr, bit, BitVec.getLsbD_or, BitVec.getLsbD_ushiftRight, BitVec.getLsbD_shiftLeft,
    BitVec.getLsbD_setWidth, add_comm k]
  by_cases none : k = 0
  · rw [clear none]
    simp [none, inside]
  · have count : (64 - k) % 64 = 64 - k := Nat.mod_eq_of_lt (by omega)
    rw [count]
    by_cases low : i + k < 64
    · simp [low, show i < 64 - k by omega]
    · have place : i - (64 - k) = i + k - 64 := by omega
      rw [if_neg low, BitVec.getLsbD_of_ge _ (i + k) (by omega), place]
      simp [inside, show ¬i < 64 - k by omega, show i + k - 64 < 64 by omega]

/-- A shift to the left brings the bits of the word into the byte. Without a count the byte holds
other bits. -/
theorem bit_shl {v : BitVec 64} {k i : Nat} (small : k < 8) (inside : i < 72)
    (low : k = 0 → i < 64) :
    ((ofWord v).shl k).bit i = (decide (k ≤ i) && v.getLsbD (i - k)) := by
  rw [bit]
  by_cases word : i < 64
  · rw [if_pos word, shl, ofWord, BitVec.getLsbD_shiftLeft]
    by_cases above : k ≤ i
    · simp [word, above, show ¬i < k by omega]
    · simp [above, show i < k by omega]
  · have count : (64 - k) % 64 = 64 - k := Nat.mod_eq_of_lt (by omega)
    have place : 64 - k + (i - 64) = i - k := by omega
    rw [if_neg word, shl, ofWord, if_pos small, count, BitVec.getLsbD_setWidth,
      BitVec.getLsbD_or, BitVec.getLsbD_ushiftRight, BitVec.getLsbD_shiftLeft, place]
    simp [show k ≤ i by omega, show i - 64 < 8 by omega]

theorem bit_and (x v : Int72) (i : Nat) : (x.and v).bit i = (x.bit i && v.bit i) := by
  rw [bit, bit, bit, and]
  split <;> exact BitVec.getLsbD_and

theorem bit_or (x v : Int72) (i : Nat) : (x.or v).bit i = (x.bit i || v.bit i) := by
  rw [bit, bit, bit, or]
  split <;> exact BitVec.getLsbD_or

theorem bit_notval (x : Int72) {i : Nat} (inside : i < 72) : x.notval.bit i = !x.bit i := by
  rw [bit, bit, notval]
  split
  · simp [*]
  · simp [show i - 64 < 8 by omega]

end Int72

section Word

variable {bf : Bitfield}

/-- The widths of the types. -/
structure Bitfield.Typed (bf : Bitfield) : Prop where
  pos : 0 < bf.typeWidth
  le : bf.typeWidth ≤ 64
  unsigned : bf.typeChar = .unsigned → bf.typeWidth < 64

theorem toNat_fieldMask (le : bf.typeWidth ≤ 64) : bf.mask.toNat = 2 ^ bf.typeWidth - 1 := by
  rw [Bitfield.mask]
  split
  · rename_i full
    rw [full]
    rfl
  · have bound : 2 ^ bf.typeWidth < 2 ^ 64 := Nat.pow_lt_pow_right (by decide) (by omega)
    have pos := Nat.two_pow_pos bf.typeWidth
    have one : (1#64 <<< bf.typeWidth).toNat = 2 ^ bf.typeWidth := by
      rw [BitVec.toNat_shiftLeft, BitVec.toNat_one (by decide), Nat.one_shiftLeft,
        Nat.mod_eq_of_lt bound]
    rw [BitVec.toNat_sub_of_le, one, BitVec.toNat_one (by decide)]
    rw [BitVec.le_def, one, BitVec.toNat_one (by decide)]
    exact pos

theorem getLsbD_fieldMask (le : bf.typeWidth ≤ 64) (i : Nat) :
    bf.mask.getLsbD i = decide (i < bf.typeWidth) := by
  rw [← BitVec.testBit_toNat, toNat_fieldMask le, Nat.testBit_two_pow_sub_one]

theorem signb_eq (typed : bf.Typed) : bf.signb = BitVec.twoPow 64 (bf.typeWidth - 1) := by
  obtain ⟨w, width⟩ : ∃ w, bf.typeWidth = w + 1 := ⟨bf.typeWidth - 1, by have := typed.pos; omega⟩
  have le := typed.le
  have bound : 2 ^ w < 2 ^ 64 := Nat.pow_lt_pow_right (by decide) (by omega)
  have pos := Nat.two_pow_pos w
  apply BitVec.eq_of_toNat_eq
  rw [Bitfield.signb, BitVec.toNat_add, BitVec.toNat_ushiftRight, toNat_fieldMask typed.le,
    BitVec.toNat_one (by decide), BitVec.toNat_twoPow, width, Nat.shiftRight_one, Nat.pow_succ,
    Nat.add_sub_cancel]
  congr 1
  omega

/-- The sign of a word is copied to the bits above its field. -/
theorem signExtend_eq (typed : bf.Typed) (x : BitVec 64) :
    (if x &&& bf.signb = 0 then x &&& bf.mask else x ||| ~~~bf.mask) =
      (x.setWidth bf.typeWidth).signExtend 64 := by
  have pos := typed.pos
  have le := typed.le
  have sign : (x &&& bf.signb = 0) = (x.getLsbD (bf.typeWidth - 1) = false) := by
    rw [signb_eq typed, BitVec.and_twoPow]
    cases x.getLsbD (bf.typeWidth - 1) with
    | false => simp
    | true =>
        have nonzero : BitVec.twoPow 64 (bf.typeWidth - 1) ≠ 0 := by
          intro zero
          have bit := congrArg (fun v => v.getLsbD (bf.typeWidth - 1)) zero
          simp [show bf.typeWidth - 1 < 64 by omega] at bit
        simp only [if_true]
        exact propext ⟨fun zero => absurd zero nonzero, fun same => by cases same⟩
  apply BitVec.eq_of_getLsbD_eq
  intro i inside
  have msb : (x.setWidth bf.typeWidth).msb = x.getLsbD (bf.typeWidth - 1) := by
    rw [BitVec.msb_eq_getLsbD_last, BitVec.getLsbD_setWidth]
    simp [show bf.typeWidth - 1 < bf.typeWidth by omega]
  rw [BitVec.getLsbD_signExtend, msb]
  simp only [sign]
  cases isNegative : x.getLsbD (bf.typeWidth - 1) with
  | false =>
      rw [if_pos rfl, BitVec.getLsbD_and, getLsbD_fieldMask le, BitVec.getLsbD_setWidth]
      by_cases within : i < bf.typeWidth <;> simp [within, inside]
  | true =>
      rw [if_neg (by simp), BitVec.getLsbD_or, BitVec.getLsbD_not, getLsbD_fieldMask le,
        BitVec.getLsbD_setWidth]
      by_cases within : i < bf.typeWidth <;> simp [within, inside]

def BitfieldType.signed : BitfieldType → Bool
  | .int => true
  | .unsigned => false

def BitfieldOver.policy : BitfieldOver → BitField.Policy
  | .wrap => .wrap
  | .sat => .saturate
  | .fail => .fail

/-- The numbers of a field. -/
def Bitfield.least (bf : Bitfield) : Int := BitField.least bf.typeChar.signed bf.typeWidth

def Bitfield.greatest (bf : Bitfield) : Int := BitField.greatest bf.typeChar.signed bf.typeWidth

/-- The numbers of a field fit into a word. -/
theorem Bitfield.Typed.bounds (typed : bf.Typed) :
    -2 ^ 63 ≤ bf.least ∧ bf.greatest < 2 ^ 63 := by
  have le := typed.le
  have half := BitField.two_pow_eq typed.pos
  have bound : (2 : Int) ^ (bf.typeWidth - 1) ≤ 2 ^ 63 :=
    pow_le_pow_right₀ (by decide) (by omega)
  rw [Bitfield.least, Bitfield.greatest]
  cases type : bf.typeChar with
  | int =>
      simp only [BitfieldType.signed, BitField.least, BitField.greatest, if_true]
      omega
  | unsigned =>
      have small : (2 : Int) ^ bf.typeWidth ≤ 2 ^ 63 :=
        pow_le_pow_right₀ (by decide) (by have := typed.unsigned type; omega)
      simp only [BitfieldType.signed, BitField.least, BitField.greatest, Bool.false_eq_true,
        if_false]
      omega

theorem toInt_ofInt_of_bounds {n : Int} (low : -2 ^ 63 ≤ n) (high : n < 2 ^ 63) :
    (BitVec.ofInt 64 n).toInt = n := by
  rw [BitVec.toInt_ofInt, Int.bmod_eq_of_le] <;> omega

/-- A word stands for its number. -/
theorem number_ofInt (typed : bf.Typed) {n : Int} (low : bf.least ≤ n) (high : n ≤ bf.greatest) :
    bf.number (BitVec.ofInt 64 n) = n := by
  have bounds := typed.bounds
  rw [Bitfield.number]
  cases type : bf.typeChar with
  | int => exact toInt_ofInt_of_bounds (by omega) (by omega)
  | unsigned =>
      have pos : 0 ≤ n := by
        simpa [Bitfield.least, type, BitfieldType.signed, BitField.least] using low
      simp only [BitVec.toNat_ofInt]
      omega

/-- The bits of a word are those of its number. -/
theorem getLsbD_ofInt (le : bf.typeWidth ≤ 64) (n : Int) {i : Nat} (inside : i < bf.typeWidth) :
    (BitVec.ofInt 64 n).getLsbD i = (BitField.bits bf.typeWidth n).testBit i := by
  have number : (BitVec.ofInt 64 n).toNat % 2 ^ bf.typeWidth = BitField.bits bf.typeWidth n := by
    have pos : (0 : Int) < 2 ^ bf.typeWidth := by positivity
    have divides : ((2 : Int) ^ bf.typeWidth) ∣ 2 ^ 64 := pow_dvd_pow 2 le
    have cast : ((2 ^ bf.typeWidth : Nat) : Int) = 2 ^ bf.typeWidth := by norm_num
    have nonneg := Int.emod_nonneg n (by decide : (2 : Int) ^ 64 ≠ 0)
    rw [BitVec.toNat_ofInt, BitField.bits]
    apply Int.natCast_inj.mp
    have same : ((2 ^ 64 : Nat) : Int) = 2 ^ 64 := by norm_num
    rw [Int.natCast_mod, cast, same, Int.toNat_of_nonneg nonneg,
      Int.toNat_of_nonneg (Int.emod_nonneg n pos.ne'), Int.emod_emod_of_dvd n divides]
  rw [← number, Nat.testBit_mod_two_pow, BitVec.testBit_toNat]
  simp [inside]

/-- The word of a field is the number that its bits stand for. -/
theorem extend_read (typed : bf.Typed) {x : BitVec 64} {r : Nat} (read : x.toNat = r)
    (small : r < 2 ^ bf.typeWidth) :
    (if bf.typeChar = .int ∧ x &&& bf.signb ≠ 0 then x ||| ~~~bf.mask else x) =
      BitVec.ofInt 64 (BitField.interpret bf.typeChar.signed bf.typeWidth r) := by
  have bounds := typed.bounds
  have inside := BitField.interpret_bounds typed.pos bf.typeChar.signed r small
  cases type : bf.typeChar with
  | unsigned =>
      have bound : 2 ^ bf.typeWidth ≤ 2 ^ 64 := Nat.pow_le_pow_right (by decide) typed.le
      rw [if_neg (by simp)]
      apply BitVec.eq_of_toNat_eq
      simp only [BitField.interpret, BitfieldType.signed, Bool.false_eq_true, if_false,
        BitVec.toNat_ofInt, read]
      omega
  | int =>
      have kept : x &&& bf.mask = x := by
        apply BitVec.eq_of_toNat_eq
        rw [BitVec.toNat_and, toNat_fieldMask typed.le, Nat.and_two_pow_sub_one_eq_mod, read,
          Nat.mod_eq_of_lt small]
      have whole : (if x &&& bf.signb = 0 then x else x ||| ~~~bf.mask) =
          (x.setWidth bf.typeWidth).signExtend 64 := by
        rw [← signExtend_eq typed, kept]
      have turn : (if BitfieldType.int = .int ∧ x &&& bf.signb ≠ 0 then x ||| ~~~bf.mask else x) =
          if x &&& bf.signb = 0 then x else x ||| ~~~bf.mask := by
        by_cases clear : x &&& bf.signb = 0 <;> simp [clear]
      rw [turn, whole]
      apply BitVec.eq_of_toInt_eq
      rw [type, BitfieldType.signed] at inside
      rw [BitVec.toInt_signExtend_of_le typed.le, BitVec.toInt_setWidth, read,
        toInt_ofInt_of_bounds]
      · simp [BitField.interpret, BitfieldType.signed]
      · rw [Bitfield.least, type, BitfieldType.signed] at bounds
        simp only [BitfieldType.signed]
        omega
      · rw [Bitfield.greatest, type, BitfieldType.signed] at bounds
        simp only [BitfieldType.signed]
        omega

theorem ofInt_sub (m n : Int) :
    BitVec.ofInt 64 (m - n) = BitVec.ofInt 64 m - BitVec.ofInt 64 n := by
  rw [Int.sub_eq_add_neg, BitVec.ofInt_add, BitVec.ofInt_neg, BitVec.sub_eq_add_neg]

theorem toNat_ofInt_of_bounds {n : Int} (low : 0 ≤ n) (high : n < 2 ^ 64) :
    ((BitVec.ofInt 64 n).toNat : Int) = n := by
  rw [BitVec.toNat_ofInt]
  omega

/-- A wrapped sum holds the bits of the sum. -/
theorem wrap_int (typed : bf.Typed) (sum : Int) :
    (if BitVec.ofInt 64 sum &&& bf.signb = 0 then BitVec.ofInt 64 sum &&& bf.mask
      else BitVec.ofInt 64 sum ||| ~~~bf.mask) =
      BitVec.ofInt 64 (BitField.interpret true bf.typeWidth (BitField.bits bf.typeWidth sum)) := by
  have divides : (2 ^ bf.typeWidth : Nat) ∣ 2 ^ 64 := pow_dvd_pow 2 typed.le
  have cast : ((2 ^ bf.typeWidth : Nat) : Int) = 2 ^ bf.typeWidth := by norm_num
  have pos : (0 : Int) < 2 ^ bf.typeWidth := by positivity
  have number : ((BitField.bits bf.typeWidth sum : Nat) : Int) = sum % 2 ^ bf.typeWidth := by
    have nonneg := Int.emod_nonneg sum pos.ne'
    rw [BitField.bits]
    omega
  have half := BitField.two_pow_eq typed.pos
  have bound : (2 : Int) ^ (bf.typeWidth - 1) ≤ 2 ^ 63 :=
    pow_le_pow_right₀ (by decide) (by have := typed.le; omega)
  have low := @Int.le_bmod sum (2 ^ bf.typeWidth) (Nat.two_pow_pos _)
  have high := @Int.bmod_lt sum (2 ^ bf.typeWidth) (Nat.two_pow_pos _)
  rw [cast] at low high
  rw [signExtend_eq typed]
  apply BitVec.eq_of_toInt_eq
  simp only [BitField.interpret, if_true, number]
  rw [BitVec.toInt_signExtend_of_le typed.le, BitVec.toInt_setWidth, ← cast, Int.emod_bmod,
    toInt_ofInt_of_bounds (by omega) (by omega), BitVec.toNat_ofInt,
    Int.toNat_of_nonneg (Int.emod_nonneg _ (by decide))]
  rw [← Int.emod_bmod (sum % _), Int.emod_emod_of_dvd _ (Int.natCast_dvd_natCast.mpr divides),
    Int.emod_bmod]

/-- The increment of a signed field holds the sum. -/
theorem increase_int (typed : bf.Typed) (type : bf.typeChar = .int) (fits : InInt64 bf.val)
    {old : Int} (low : bf.least ≤ old) (high : old ≤ bf.greatest) :
    bf.increase (BitVec.ofInt 64 old) =
      (BitField.hold bf.overflow.policy true bf.typeWidth (old + bf.val)).map
        (BitVec.ofInt 64) := by
  obtain ⟨lowVal, highVal⟩ := fits
  have bounds := typed.bounds
  have least : bf.least = BitField.least true bf.typeWidth := by
    rw [Bitfield.least, type, BitfieldType.signed]
  have greatest : bf.greatest = BitField.greatest true bf.typeWidth := by
    rw [Bitfield.greatest, type, BitfieldType.signed]
  have sum : BitVec.ofInt 64 bf.val + BitVec.ofInt 64 old = BitVec.ofInt 64 (old + bf.val) := by
    rw [← BitVec.ofInt_add, Int.add_comm]
  have half := BitField.two_pow_eq typed.pos
  have lower : bf.least = -2 ^ (bf.typeWidth - 1) := by rw [least, BitField.least, if_pos rfl]
  have upper : bf.greatest = 2 ^ (bf.typeWidth - 1) - 1 := by
    rw [greatest, BitField.greatest, if_pos rfl]
  have nonneg := BitField.one_le_half bf.typeWidth
  have cast : ((2 ^ bf.typeWidth : Nat) : Int) = 2 ^ bf.typeWidth := by norm_num
  have maxVal : bf.mask / 2#64 = BitVec.ofInt 64 bf.greatest := by
    have two : (2#64).toNat = 2 := rfl
    apply BitVec.eq_of_toNat_eq
    apply Int.natCast_inj.mp
    rw [toNat_ofInt_of_bounds (by omega) (by omega), BitVec.toNat_udiv, toNat_fieldMask typed.le,
      two]
    omega
  have minVal : -(BitVec.ofInt 64 bf.greatest + 1#64) = BitVec.ofInt 64 bf.least := by
    have one : (1#64) = BitVec.ofInt 64 1 := rfl
    have negated : bf.least = -(bf.greatest + 1) := by omega
    rw [one, ← BitVec.ofInt_add, ← BitVec.ofInt_neg, negated]
  rw [Bitfield.increase, type]
  simp only [sum, maxVal, minVal, ← ofInt_sub, ← BitVec.ofInt_neg]
  rw [toInt_ofInt_of_bounds lowVal highVal]
  have above : 0 < bf.val → ((BitVec.ofInt 64 (bf.greatest - old)).toNat <
      (BitVec.ofInt 64 bf.val).toNat ↔ bf.greatest < old + bf.val) := by
    intro pos
    have left := @toNat_ofInt_of_bounds (bf.greatest - old) (by omega) (by omega)
    have right := @toNat_ofInt_of_bounds bf.val (by omega) (by omega)
    omega
  have below : bf.val < 0 → ((BitVec.ofInt 64 (old - bf.least)).toNat <
      (BitVec.ofInt 64 (-bf.val)).toNat ↔ old + bf.val < bf.least) := by
    intro neg
    have left := @toNat_ofInt_of_bounds (old - bf.least) (by omega) (by omega)
    have right := @toNat_ofInt_of_bounds (-bf.val) (by omega) (by omega)
    omega
  have within : ¬(0 < bf.val ∧ (BitVec.ofInt 64 (bf.greatest - old)).toNat <
      (BitVec.ofInt 64 bf.val).toNat) → ¬(bf.val < 0 ∧ (BitVec.ofInt 64 (old - bf.least)).toNat <
      (BitVec.ofInt 64 (-bf.val)).toNat) →
      bf.least ≤ old + bf.val ∧ old + bf.val ≤ bf.greatest := by
    intro notBeyond notUnder
    rcases Int.lt_trichotomy bf.val 0 with neg | zero | pos
    · have decrease := below neg
      omega
    · omega
    · have increase := above pos
      omega
  cases policy : bf.overflow with
  | wrap =>
      rw [if_pos rfl, BitfieldOver.policy, BitField.hold, Option.map_some, ← wrap_int typed]
      split <;> rfl
  | sat =>
      rw [if_neg (by decide), BitfieldOver.policy, BitField.hold, Option.map_some, ← least,
        ← greatest]
      simp only [reduceCtorEq, if_false]
      split
      · rename_i beyond
        rw [above beyond.1] at beyond
        rw [Int.min_eq_left (le_of_lt beyond.2), Int.max_eq_right (by omega)]
      · rename_i notBeyond
        split
        · rename_i under
          rw [below under.1] at under
          rw [Int.max_eq_left (by omega)]
        · rename_i notUnder
          have inside := within notBeyond notUnder
          rw [Int.min_eq_right inside.2, Int.max_eq_right inside.1]
  | fail =>
      rw [if_neg (by decide), BitfieldOver.policy, BitField.hold, ← least, ← greatest]
      simp only [if_true]
      split
      · rename_i beyond
        rw [above beyond.1] at beyond
        rw [if_neg (by omega)]
        rfl
      · rename_i notBeyond
        split
        · rename_i under
          rw [below under.1] at under
          rw [if_neg (by omega)]
          rfl
        · rename_i notUnder
          have inside := within notBeyond notUnder
          rw [if_pos inside]
          rfl

/-- The increment of a field without a sign holds the sum. -/
theorem increase_unsigned (typed : bf.Typed) (type : bf.typeChar = .unsigned)
    (fits : InInt64 bf.val) {old : Int} (low : bf.least ≤ old) (high : old ≤ bf.greatest) :
    bf.increase (BitVec.ofInt 64 old) =
      (BitField.hold bf.overflow.policy false bf.typeWidth (old + bf.val)).map
        (BitVec.ofInt 64) := by
  obtain ⟨lowVal, highVal⟩ := fits
  have bounds := typed.bounds
  have least : bf.least = BitField.least false bf.typeWidth := by
    rw [Bitfield.least, type, BitfieldType.signed]
  have greatest : bf.greatest = BitField.greatest false bf.typeWidth := by
    rw [Bitfield.greatest, type, BitfieldType.signed]
  have sum : BitVec.ofInt 64 bf.val + BitVec.ofInt 64 old = BitVec.ofInt 64 (old + bf.val) := by
    rw [← BitVec.ofInt_add, Int.add_comm]
  have lower : bf.least = 0 := by simp [least, BitField.least]
  have upper : bf.greatest = 2 ^ bf.typeWidth - 1 := by simp [greatest, BitField.greatest]
  have cast : ((2 ^ bf.typeWidth : Nat) : Int) = 2 ^ bf.typeWidth := by norm_num
  have pos := Nat.two_pow_pos bf.typeWidth
  have maxVal : bf.mask = BitVec.ofInt 64 bf.greatest := by
    apply BitVec.eq_of_toNat_eq
    apply Int.natCast_inj.mp
    rw [toNat_ofInt_of_bounds (by omega) (by omega), toNat_fieldMask typed.le]
    omega
  have wrapped : BitVec.ofInt 64 (old + bf.val) &&& bf.mask =
      BitVec.ofInt 64 (BitField.bits bf.typeWidth (old + bf.val)) := by
    apply BitVec.eq_of_getLsbD_eq
    intro i inside
    rw [BitVec.getLsbD_and, getLsbD_fieldMask typed.le]
    by_cases within : i < bf.typeWidth
    · rw [getLsbD_ofInt typed.le _ within, getLsbD_ofInt typed.le _ within, BitField.bits,
        BitField.bits, Int.toNat_of_nonneg (Int.emod_nonneg _ (by positivity)),
        Int.emod_emod_of_dvd _ (dvd_refl _)]
      simp [within]
    · have small := BitField.bits_lt bf.typeWidth (old + bf.val)
      have zero : (BitField.bits bf.typeWidth (old + bf.val)).testBit i = false :=
        Nat.testBit_lt_two_pow (lt_of_lt_of_le small
          (Nat.pow_le_pow_right (by decide) (Nat.le_of_not_lt within)))
      rw [BitVec.ofInt_natCast, BitVec.getLsbD_ofNat, zero]
      simp [within]
  rw [Bitfield.increase, type]
  simp only [sum]
  rw [toInt_ofInt_of_bounds lowVal highVal]
  have above : 0 < bf.val → (bf.mask.toNat < (BitVec.ofInt 64 (old + bf.val)).toNat ↔
      bf.greatest < old + bf.val) := by
    intro increase
    have right := @toNat_ofInt_of_bounds (old + bf.val) (by omega) (by omega)
    have left := toNat_fieldMask typed.le
    omega
  have below : bf.val < 0 → ((BitVec.ofInt 64 (old + bf.val)).toInt < 0 ↔
      old + bf.val < bf.least) := by
    intro decrease
    rw [toInt_ofInt_of_bounds (by omega) (by omega), lower]
  have within : ¬(0 < bf.val ∧ bf.mask.toNat < (BitVec.ofInt 64 (old + bf.val)).toNat) →
      ¬(bf.val < 0 ∧ (BitVec.ofInt 64 (old + bf.val)).toInt < 0) →
      bf.least ≤ old + bf.val ∧ old + bf.val ≤ bf.greatest := by
    intro notBeyond notUnder
    rcases Int.lt_trichotomy bf.val 0 with neg | zero | positive
    · have decrease := below neg
      omega
    · omega
    · have increase := above positive
      omega
  cases policy : bf.overflow with
  | wrap =>
      rw [if_pos rfl, BitfieldOver.policy, BitField.hold, Option.map_some, wrapped]
      rfl
  | sat =>
      rw [if_neg (by decide), BitfieldOver.policy, BitField.hold, Option.map_some, ← least,
        ← greatest]
      simp only [reduceCtorEq, if_false]
      split
      · rename_i beyond
        rw [above beyond.1] at beyond
        rw [Int.min_eq_left (le_of_lt beyond.2), Int.max_eq_right (by omega), maxVal]
      · rename_i notBeyond
        split
        · rename_i under
          rw [below under.1] at under
          rw [Int.max_eq_left (by omega), lower]
          rfl
        · rename_i notUnder
          have inside := within notBeyond notUnder
          rw [Int.min_eq_right inside.2, Int.max_eq_right inside.1]
  | fail =>
      rw [if_neg (by decide), BitfieldOver.policy, BitField.hold, ← least, ← greatest]
      simp only [if_true]
      split
      · rename_i beyond
        rw [above beyond.1] at beyond
        rw [if_neg (by omega)]
        rfl
      · rename_i notBeyond
        split
        · rename_i under
          rw [below under.1] at under
          rw [if_neg (by omega)]
          rfl
        · rename_i notUnder
          rw [if_pos (within notBeyond notUnder)]
          rfl

/-- The increment of a field holds the sum. -/
theorem increase_eq (typed : bf.Typed) (fits : InInt64 bf.val) {old : Int}
    (low : bf.least ≤ old) (high : old ≤ bf.greatest) :
    bf.increase (BitVec.ofInt 64 old) =
      (BitField.hold bf.overflow.policy bf.typeChar.signed bf.typeWidth (old + bf.val)).map
        (BitVec.ofInt 64) := by
  cases type : bf.typeChar with
  | int => exact increase_int typed type fits low high
  | unsigned => exact increase_unsigned typed type fits low high

end Word

section Field

variable {bf : Bitfield} {data : Bytes}

/-- The bytes that are loaded for a field. -/
def Bitfield.loaded (bf : Bitfield) (data : Bytes) : Bytes :=
  loadBytes (bf.typeWidth + bf.typeOff % 8) 0 (data.drop (bf.typeOff / 8))

/-- The number of bytes that cover a field. -/
def Bitfield.cover (bf : Bitfield) : Nat := (bf.typeWidth + bf.typeOff % 8 + 7) / 8

theorem loaded_eq (typed : bf.Typed) (data : Bytes) :
    bf.loaded data = (data.drop (bf.typeOff / 8)).take bf.cover := by
  have pos := typed.pos
  have le := typed.le
  rw [Bitfield.loaded, loadBytes_eq (by omega) (by omega), Nat.sub_zero, Bitfield.cover]

theorem cover_le (typed : bf.Typed) :
    bf.typeWidth + bf.typeOff % 8 ≤ 8 * bf.cover ∧ bf.cover ≤ 9 ∧
      (bf.typeOff % 8 = 0 → bf.cover ≤ 8) := by
  have le := typed.le
  rw [Bitfield.cover]
  omega

theorem bit_loaded (typed : bf.Typed) (data : Bytes) (i : Nat) :
    (Int72.ofBytes (bf.loaded data)).bit i =
      (decide (i < 8 * bf.cover) && bitAt data (8 * (bf.typeOff / 8) + i)) := by
  have short : (bf.loaded data).length ≤ 9 := by
    rw [loaded_eq typed]
    exact (List.length_take_le _ _).trans (cover_le typed).2.1
  rw [Int72.bit_ofBytes short, loaded_eq typed, bitAt_take, bitAt_drop]

/-- A field at the start of a byte loads no byte above the word. -/
theorem high_loaded (typed : bf.Typed) (data : Bytes) (start : bf.typeOff % 8 = 0) :
    (Int72.ofBytes (bf.loaded data)).high = 0 := by
  have few := (cover_le typed).2.2 start
  have none : (bf.loaded data).drop 8 = [] := by
    rw [List.drop_eq_nil_iff, loaded_eq typed]
    exact (List.length_take_le _ _).trans few
  rw [Int72.ofBytes, none]
  rfl

/-- The masked word is the number in the bits of the field. -/
theorem toNat_field (typed : bf.Typed) (data : Bytes) :
    (((Int72.ofBytes (bf.loaded data)).shr (bf.typeOff % 8)).andWord bf.mask).ival.toNat =
      BitField.read (value data) bf.typeOff bf.typeWidth := by
  have cover := cover_le typed
  have le := typed.le
  apply Nat.eq_of_testBit_eq
  intro i
  rw [Int72.andWord, BitVec.testBit_toNat, BitVec.getLsbD_and, getLsbD_fieldMask le,
    BitField.testBit_read, testBit_value]
  by_cases within : i < bf.typeWidth
  · have place : 8 * (bf.typeOff / 8) + (i + bf.typeOff % 8) = bf.typeOff + i := by omega
    rw [Int72.getLsbD_shr (Nat.mod_lt _ (by decide)) (high_loaded typed data) (by omega),
      bit_loaded typed, place]
    simp [within, show i + bf.typeOff % 8 < 8 * bf.cover by omega]
  · simp [within]

/-- A store writes the bits of the field. -/
theorem store_eq (typed : bf.Typed) (inside : bf.typeOff + bf.typeWidth ≤ 8 * data.length)
    (n : Int) :
    value (bf.store data (Int72.ofBytes (bf.loaded data)) (bf.loaded data).length
        (BitVec.ofInt 64 n)) =
      BitField.write (value data) bf.typeOff bf.typeWidth (BitField.bits bf.typeWidth n) ∧
    (bf.store data (Int72.ofBytes (bf.loaded data)) (bf.loaded data).length
        (BitVec.ofInt 64 n)).length = data.length := by
  have cover := cover_le typed
  have pos := typed.pos
  have le := typed.le
  have size : bf.typeOff / 8 + bf.cover ≤ data.length := by
    rw [Bitfield.cover]
    omega
  have count : (bf.loaded data).length = bf.cover := by
    rw [loaded_eq typed, List.length_take, List.length_drop]
    omega
  rw [count, Bitfield.store]
  have front : (data.take (bf.typeOff / 8)).length = bf.typeOff / 8 := by
    rw [List.length_take]
    omega
  generalize updated : ((Int72.ofBytes (bf.loaded data)).and
    ((Int72.ofWord bf.mask).shl (bf.typeOff % 8)).notval).or
      ((Int72.ofWord (BitVec.ofInt 64 n &&& bf.mask)).shl (bf.typeOff % 8)) = upd
  have middle : (upd.bytes.take bf.cover).length = bf.cover := by
    rw [List.length_take, Int72.length_bytes]
    omega
  have bits : ∀ i < 8 * bf.cover, upd.bit i =
      if i < bf.typeOff % 8 ∨ bf.typeOff % 8 + bf.typeWidth ≤ i then
        bitAt data (8 * (bf.typeOff / 8) + i)
      else (BitField.bits bf.typeWidth n).testBit (i - bf.typeOff % 8) := by
    intro i within
    have shift : bf.typeOff % 8 < 8 := Nat.mod_lt _ (by decide)
    rw [← updated, Int72.bit_or, Int72.bit_and, bit_loaded typed, Int72.bit_notval _ (by omega),
      Int72.bit_shl shift (by omega) (by omega), Int72.bit_shl shift (by omega) (by omega),
      BitVec.getLsbD_and, getLsbD_fieldMask le]
    by_cases before : i < bf.typeOff % 8
    · rw [if_pos (.inl before)]
      simp [within, show ¬bf.typeOff % 8 ≤ i by omega]
    · by_cases behind : bf.typeOff % 8 + bf.typeWidth ≤ i
      · rw [if_pos (.inr behind)]
        simp [within, show ¬i - bf.typeOff % 8 < bf.typeWidth by omega]
      · have small : i - bf.typeOff % 8 < bf.typeWidth := by omega
        rw [if_neg (by omega), getLsbD_ofInt le n small]
        simp [small, show bf.typeOff % 8 ≤ i by omega]
  constructor
  · apply Nat.eq_of_testBit_eq
    intro i
    rw [testBit_value, BitField.testBit_write, testBit_value, List.append_assoc, bitAt_append,
      front]
    by_cases early : i < 8 * (bf.typeOff / 8)
    · rw [if_pos early, if_pos (by omega), bitAt_take]
      simp [early]
    · rw [if_neg early, bitAt_append, middle]
      by_cases loaded : i - 8 * (bf.typeOff / 8) < 8 * bf.cover
      · have place : 8 * (bf.typeOff / 8) + (i - 8 * (bf.typeOff / 8)) = i := by omega
        have same : i - 8 * (bf.typeOff / 8) - bf.typeOff % 8 = i - bf.typeOff := by omega
        rw [if_pos loaded, bitAt_take, Int72.bitAt_bytes, bits _ loaded, place, same]
        simp only [loaded, decide_true, Bool.true_and]
        congr 1
        exact propext ⟨fun other => by omega, fun other => by omega⟩
      · have place : 8 * (bf.typeOff / 8 + bf.cover) +
            (i - 8 * (bf.typeOff / 8) - 8 * bf.cover) = i := by omega
        rw [if_neg loaded, bitAt_drop, place, if_pos (by omega)]
  · rw [List.length_append, List.length_append, front, middle, List.length_drop]
    omega

/-- The number that the bits of a field stand for. -/
def Bitfield.current (bf : Bitfield) (n : Nat) : Int :=
  BitField.interpret bf.typeChar.signed bf.typeWidth (BitField.read n bf.typeOff bf.typeWidth)

/-- A number is put into the bits of a field. -/
def Bitfield.put (bf : Bitfield) (n : Nat) (v : Int) : Nat :=
  BitField.write n bf.typeOff bf.typeWidth (BitField.bits bf.typeWidth v)

/-- The reference takes the string for one number and the field for a part of its bits. -/
def Bitfield.refer (bf : Bitfield) (n : Nat) : Nat × Option Int :=
  match bf.op with
  | .get => (n, some (bf.current n))
  | .set => (bf.put n bf.val, some (bf.current n))
  | .incrby =>
      let sum := bf.current n + bf.val
      let new := BitField.hold bf.overflow.policy bf.typeChar.signed bf.typeWidth sum
      (new.elim n (bf.put n), new)

/-- A field that is written lies inside of the string. -/
def Bitfield.Inside (bf : Bitfield) (size : Nat) : Prop :=
  bf.op ≠ .get → bf.typeOff + bf.typeWidth ≤ 8 * size

/-- An operation does what the reference does, and keeps the length of the string. -/
theorem apply_eq (typed : bf.Typed) (fits : InInt64 bf.val) (inside : bf.Inside data.length) :
    (bf.apply data).2 = (bf.refer (value data)).2 ∧
      value (bf.apply data).1 = (bf.refer (value data)).1 ∧
      (bf.apply data).1.length = data.length := by
  have range := BitField.interpret_bounds typed.pos bf.typeChar.signed _
    (@BitField.read_lt (value data) bf.typeOff bf.typeWidth)
  have number : bf.number (BitVec.ofInt 64 (bf.current (value data))) = bf.current (value data) :=
    number_ofInt typed range.1 range.2
  have applied : bf.apply data = bf.finish data (Int72.ofBytes (bf.loaded data))
      (bf.loaded data).length (BitVec.ofInt 64 (bf.current (value data))) := by
    rw [Bitfield.current, ← extend_read typed (toNat_field typed data) BitField.read_lt]
    rfl
  rw [applied, Bitfield.finish, Bitfield.refer]
  cases op : bf.op with
  | get => exact ⟨congrArg some number, rfl, rfl⟩
  | set =>
      have stored := store_eq typed (inside (by simp [op])) bf.val
      exact ⟨congrArg some number, stored⟩
  | incrby =>
      have increased := increase_eq typed fits range.1 range.2
      rw [← Bitfield.current] at increased
      simp only [increased]
      cases holds : BitField.hold bf.overflow.policy bf.typeChar.signed bf.typeWidth
        (bf.current (value data) + bf.val) with
      | none => exact ⟨rfl, rfl, rfl⟩
      | some new =>
          have bounds := BitField.hold_bounds typed.pos holds
          have stored := store_eq typed (inside (by simp [op])) new
          exact ⟨congrArg some (number_ofInt typed bounds.1 bounds.2), stored⟩

end Field

section Fields

variable {fields : List Bitfield} {bf : Bitfield} {data : Bytes}

/-- The reference goes through the operations. -/
def referAll : List Bitfield → Nat → Nat × List (Option Int)
  | [], n => (n, [])
  | bf :: fields, n =>
      let rest := referAll fields (bf.refer n).1
      (rest.1, (bf.refer n).2 :: rest.2)

/-- The operations do what the reference does. -/
theorem applyAll_eq (typed : ∀ bf ∈ fields, bf.Typed ∧ InInt64 bf.val)
    (inside : ∀ bf ∈ fields, bf.Inside data.length) :
    (applyAll fields data).2 = (referAll fields (value data)).2 ∧
      value (applyAll fields data).1 = (referAll fields (value data)).1 ∧
      (applyAll fields data).1.length = data.length := by
  induction fields generalizing data with
  | nil => exact ⟨rfl, rfl, rfl⟩
  | cons bf fields ih =>
      have first := typed bf List.mem_cons_self
      obtain ⟨reply, bits, length⟩ := apply_eq first.1 first.2 (inside bf List.mem_cons_self)
      have rest := @ih (bf.apply data).1 (fun bf member => typed bf (List.mem_cons_of_mem _ member))
        (fun other member => length ▸ inside other (List.mem_cons_of_mem _ member))
      rw [bits, length] at rest
      obtain ⟨replies, final, size⟩ := rest
      refine ⟨?_, final, size⟩
      rw [applyAll, referAll, ← reply, ← replies]

/-- The sums of the fields that are written, and the ones of their last bytes, do not wrap
around. -/
def FieldsBounded (fields : List Bitfield) : Prop :=
  ∀ bf ∈ fields, bf.op ≠ .get → bf.typeOff + bf.typeWidth + 7 < 2 ^ 64

theorem maxOff_spec (bounded : FieldsBounded fields) :
    (∀ bf ∈ fields, bf.op ≠ .get → bf.typeOff + bf.typeWidth ≤ maxOff fields) ∧
      maxOff fields + 7 < 2 ^ 64 ∧
      (0 < maxOff fields → ∃ bf ∈ fields, bf.op ≠ .get) := by
  induction fields using List.reverseRecOn with
  | nil => exact ⟨fun bf member => (List.not_mem_nil member).elim, by decide, by decide⟩
  | append_singleton fields bf ih =>
      have earlier : FieldsBounded fields := fun other member =>
        bounded other (List.mem_append_left _ member)
      obtain ⟨below, small, written⟩ := ih earlier
      have step : maxOff (fields ++ [bf]) =
          if bf.op ≠ .get ∧ maxOff fields < (bf.typeOff + bf.typeWidth) % 2 ^ 64 then
            (bf.typeOff + bf.typeWidth) % 2 ^ 64
          else maxOff fields := by
        rw [maxOff, maxOff, List.foldl_append, List.foldl_cons, List.foldl_nil]
      by_cases get : bf.op = .get
      · rw [step, if_neg (fun both => both.1 get)]
        refine ⟨fun other member notGet => ?_, small, fun pos => ?_⟩
        · rcases List.mem_append.mp member with early | last
          · exact below other early notGet
          · rw [List.mem_singleton.mp last] at notGet
            exact absurd get notGet
        · obtain ⟨other, member, notGet⟩ := written pos
          exact ⟨other, List.mem_append_left _ member, notGet⟩
      · have fits := bounded bf (List.mem_append_right _ List.mem_cons_self) get
        have sum : (bf.typeOff + bf.typeWidth) % 2 ^ 64 = bf.typeOff + bf.typeWidth :=
          Nat.mod_eq_of_lt (by omega)
        rw [step, sum]
        refine ⟨fun other member notGet => ?_, by split <;> omega, fun _ =>
          ⟨bf, List.mem_append_right _ List.mem_cons_self, get⟩⟩
        rcases List.mem_append.mp member with early | last
        · have before := below other early notGet
          split
          · omega
          · exact before
        · rw [List.mem_singleton.mp last]
          split
          · exact le_refl _
          · rename_i notMore
            have notLess : ¬maxOff fields < bf.typeOff + bf.typeWidth := fun less =>
              notMore ⟨get, less⟩
            omega

/-- The end of the fields is the end of one of them. -/
theorem maxOff_le (bounded : FieldsBounded fields) {bound : Nat}
    (fits : ∀ bf ∈ fields, bf.op ≠ .get → bf.typeOff + bf.typeWidth ≤ bound) :
    maxOff fields ≤ bound := by
  induction fields using List.reverseRecOn with
  | nil => exact Nat.zero_le _
  | append_singleton fields bf ih =>
      have earlier := ih (fun other member => bounded other (List.mem_append_left _ member))
        (fun other member => fits other (List.mem_append_left _ member))
      rw [maxOff, List.foldl_append, List.foldl_cons, List.foldl_nil, ← maxOff]
      split
      · rename_i more
        have last : bf ∈ fields ++ [bf] := List.mem_append_right _ List.mem_cons_self
        have sum := bounded bf last more.1
        rw [Nat.mod_eq_of_lt (by omega)]
        exact fits bf last more.1
      · exact earlier

/-- Without a write there is no end of the fields. -/
theorem maxOff_eq_zero (reads : ∀ bf ∈ fields, bf.op = .get) : maxOff fields = 0 := by
  have bounded : FieldsBounded fields := fun bf member notGet => absurd (reads bf member) notGet
  by_contra pos
  obtain ⟨bf, member, notGet⟩ := (maxOff_spec bounded).2.2 (by omega)
  exact notGet (reads bf member)

end Fields

section Request

variable {msg : CommandMsg}

theorem typed_of_typeArg {type : Bytes} {typeChar : BitfieldType} {width : Nat}
    (parsed : typeArg type = some (typeChar, width)) :
    0 < width ∧ width ≤ 64 ∧ (typeChar = .unsigned → width < 64) := by
  unfold typeArg at parsed
  split at parsed
  · cases parsed
  · cases parsed
  · split at parsed
    · cases parsed
    · rename_i val number
      simp only [ite_eq_iff, Option.some.injEq, Prod.mk.injEq,
        reduceCtorEq, and_false, false_or, or_false] at parsed
      rcases parsed with ⟨-, range, rfl, rfl⟩ | ⟨-, -, range, rfl, rfl⟩
      · exact ⟨by omega, by omega, fun type => by cases type⟩
      · exact ⟨by omega, by omega, fun _ => by omega⟩

/-- An operation of a request has a width of its type and the value of an argument. -/
theorem typed_of_bitfieldArg (ints : ∀ ival, .integer ival ∈ msg.args → InInt64 ival) {i j : Nat}
    {bf : Bitfield} (parsed : bitfieldArg msg i = some (bf, j)) :
    bf.Typed ∧ InInt64 bf.val := by
  unfold bitfieldArg at parsed
  split at parsed
  · cases parsed
  · split at parsed
    · split at parsed
      · cases parsed
      · rename_i typeChar width type
        obtain ⟨pos, le, unsigned⟩ := typed_of_typeArg type
        split at parsed
        · cases parsed
        · split at parsed
          · simp only [Option.some.injEq, Prod.mk.injEq] at parsed
            obtain ⟨rfl, -⟩ := parsed
            exact ⟨⟨pos, le, unsigned⟩, show InInt64 0 from ⟨by decide, by decide⟩⟩
          · obtain ⟨val, read, made⟩ := Option.map_eq_some_iff.mp parsed
            simp only [Prod.mk.injEq] at made
            obtain ⟨rfl, -⟩ := made
            exact ⟨⟨pos, le, unsigned⟩, inInt64_getArgInt ints read⟩
          · split at parsed
            · rename_i read _
              simp only [Option.some.injEq, Prod.mk.injEq] at parsed
              obtain ⟨rfl, -⟩ := parsed
              exact ⟨⟨pos, le, unsigned⟩, inInt64_getArgInt ints read⟩
            · cases parsed
          · cases parsed
    · cases parsed

theorem typed_of_bitfieldArgs (ints : ∀ ival, .integer ival ∈ msg.args → InInt64 ival)
    {fuel i : Nat} {fields : List Bitfield} (parsed : bitfieldArgs msg fuel i = some fields) :
    ∀ bf ∈ fields, bf.Typed ∧ InInt64 bf.val := by
  induction fuel generalizing i fields with
  | zero => cases parsed
  | succ fuel ih =>
      rw [bitfieldArgs] at parsed
      split at parsed
      · cases parsed
      · rename_i bf j arg
        have first := typed_of_bitfieldArg ints arg
        split at parsed
        · obtain rfl := Option.some.inj parsed
          intro other member
          exact List.mem_singleton.mp member ▸ first
        · obtain ⟨rest, more, rfl⟩ := Option.map_eq_some_iff.mp parsed
          intro other member
          rcases List.mem_cons.mp member with rfl | later
          · exact first
          · exact ih more other later

end Request

section Exact

variable {env : BitfieldEnv} {msg : CommandMsg} {entry : Option (Entry Bytes)}
  {fields : List Bitfield}

/-- The number that the bits of a string stand for. A missing key has none that are set. -/
def stringBits (found : Option (Entry Bytes)) : Nat := found.elim 0 fun e => value e.data

/-- The request has these operations. -/
def AsksFields (msg : CommandMsg) (fields : List Bitfield) : Prop :=
  2 < msg.argc ∧ bitfieldArgs msg msg.argc 2 = some fields

/-- Only the bits of a string change, and a missing key is stored up to the last field that is
written. -/
structure LeavesFields (found : Option (Entry Bytes)) (fields : List Bitfield)
    (left : Option (Entry Bytes)) : Prop where
  kept : ∀ e, found = some e → ∃ data, left = some { e with data := data } ∧
    data.length = e.data.length ∧ value data = (referAll fields (value e.data)).1
  silent : found = none → (∀ bf ∈ fields, bf.op = .get) → left = none
  stored : found = none → (∃ bf ∈ fields, bf.op ≠ .get) →
    ∃ data, left = some ⟨.string, data, 0⟩ ∧ data.length = (maxOff fields + 7) / 8 ∧
      value data = (referAll fields 0).1

/-- A handler that ends well has sent its reply. -/
theorem reply_of_execOk {D : Type} {run : KeyRun D} (ok : run.status = .execOk) (arg0 : Bytes) :
    run.reply arg0 = run.out := by
  rw [KeyRun.reply, ok]
  exact List.append_nil run.out

theorem value_zeros (n : Nat) : value (List.replicate n 0) = 0 := by
  induction n with
  | zero => rfl
  | succ n ih =>
      rw [List.replicate_succ, value_cons, ih]
      rfl

/-- The last byte covers the fields that are written. -/
theorem inside_of_bounded (bounded : FieldsBounded fields) :
    ∀ bf ∈ fields, bf.Inside ((maxOff fields + 7) / 8) := by
  intro bf member notGet
  have below := (maxOff_spec bounded).1 bf member notGet
  omega

theorem resizeString_self {data : Bytes} (keeps : env.resize data data.length = data) :
    resizeString env data data.length = data := by
  rw [resizeString, keeps, List.take_length, Nat.sub_self, List.replicate_zero, List.append_nil]

/-- Fields that are only read have no end. -/
theorem reads_of_maxOff (typed : ∀ bf ∈ fields, bf.Typed ∧ InInt64 bf.val)
    (bounded : FieldsBounded fields) (none : ¬0 < maxOff fields) : ∀ bf ∈ fields, bf.op = .get := by
  intro bf member
  by_contra notGet
  have below := (maxOff_spec bounded).1 bf member notGet
  have pos := (typed bf member).1.pos
  omega

/-- The operations on a string. -/
theorem execBitfield_string (works : env.table.Works)
    (keeps : ∀ data, env.resize data data.length = data) (asks : AsksFields msg fields)
    (typed : ∀ bf ∈ fields, bf.Typed ∧ InInt64 bf.val) (bounded : FieldsBounded fields)
    {e : Entry Bytes}
    (found : live env.table entry = some e) (string : e.type = .string)
    (inside : ∀ bf ∈ fields, bf.Inside e.data.length) (arg0 : Bytes) :
    (execBitfield env msg entry).reply arg0 = sendFields (referAll fields (value e.data)).2 ∧
      ∃ data, (execBitfield env msg entry).settle .string = some { e with data := data } ∧
        data.length = e.data.length ∧ value data = (referAll fields (value e.data)).1 := by
  obtain ⟨enough, parsed⟩ := asks
  obtain ⟨below, small, written⟩ := maxOff_spec bounded
  have size : (maxOff fields + 7) % 2 ^ 64 = maxOff fields + 7 := Nat.mod_eq_of_lt small
  obtain ⟨replies, bits, length⟩ := applyAll_eq typed inside
  rw [execBitfield, if_neg (by omega), parsed]
  simp only [size, getKeyWrite_works works, getKeyRead_works works, found, if_pos string]
  by_cases writes : 0 < maxOff fields
  · have room : max e.data.length ((maxOff fields + 7) / 8) = e.data.length := by
      have most : maxOff fields ≤ 8 * e.data.length := by
        by_contra beyond
        have fits : ∀ bf ∈ fields, bf.op ≠ .get → bf.typeOff + bf.typeWidth ≤ 8 * e.data.length :=
          fun bf member notGet => inside bf member notGet
        exact beyond (maxOff_le bounded fits)
      omega
    rw [if_pos writes, room, resizeString_self (keeps e.data)]
    simp only [works.valued, works.resized, and_self, if_true]
    refine ⟨?_, (applyAll fields e.data).1, KeyRun.settle_of_not_isNew rfl _, length, bits⟩
    rw [reply_of_execOk rfl, ← replies]
    rfl
  · rw [if_neg writes]
    simp only [works.valued, works.validated, if_true]
    refine ⟨?_, (applyAll fields e.data).1, KeyRun.settle_of_not_isNew rfl _, length, bits⟩
    rw [reply_of_execOk rfl, ← replies]
    rfl

/-- The operations on a missing key. -/
theorem execBitfield_missing (works : env.table.Works) (asks : AsksFields msg fields)
    (typed : ∀ bf ∈ fields, bf.Typed ∧ InInt64 bf.val) (bounded : FieldsBounded fields)
    (found : live env.table entry = none) (arg0 : Bytes) :
    (execBitfield env msg entry).reply arg0 = sendFields (referAll fields 0).2 ∧
      LeavesFields none fields ((execBitfield env msg entry).settle .string) := by
  obtain ⟨enough, parsed⟩ := asks
  obtain ⟨below, small, written⟩ := maxOff_spec bounded
  have size : (maxOff fields + 7) % 2 ^ 64 = maxOff fields + 7 := Nat.mod_eq_of_lt small
  rw [execBitfield, if_neg (by omega), parsed]
  simp only [size, getKeyWrite_works works, getKeyRead_works works, found]
  by_cases writes : 0 < maxOff fields
  · obtain ⟨replies, bits, length⟩ := @applyAll_eq fields
      (List.replicate ((maxOff fields + 7) / 8) 0) typed (by
        rw [List.length_replicate]
        exact inside_of_bounded bounded)
    rw [value_zeros] at replies bits
    rw [List.length_replicate] at length
    rw [if_pos writes]
    simp only [works.resized, if_true]
    constructor
    · rw [reply_of_execOk rfl, ← replies]
      rfl
    · exact {
        kept := fun e wrong => by cases wrong
        silent := fun _ reads => absurd (maxOff_eq_zero reads) (by omega)
        stored := fun _ _ => ⟨_, rfl, length, bits⟩ }
  · have reads := reads_of_maxOff typed bounded writes
    obtain ⟨replies, -, -⟩ := @applyAll_eq fields [] typed
      (fun bf member notGet => absurd (reads bf member) notGet)
    rw [if_neg writes]
    simp only [works.validated, if_true]
    constructor
    · rw [reply_of_execOk rfl, ← value_nil, ← replies]
    · exact {
        kept := fun e wrong => by cases wrong
        silent := fun _ _ => KeyRun.settle_of_not_isNew rfl _
        stored := fun _ written => by
          obtain ⟨bf, member, notGet⟩ := written
          exact absurd (reads bf member) notGet }

end Exact

/-- A request for two operations on fields that share a byte. -/
def bitfieldMsg : CommandMsg :=
  ⟨commandWords ["bitfield", "k", "set", "u4", "4", "9", "incrby", "i5", "4", "-3"],
    by simp [commandWords]⟩

def bitfieldFields : List Bitfield :=
  [⟨4, 9, 4, .unsigned, .set, .wrap⟩, ⟨4, -3, 5, .int, .incrby, .wrap⟩]

end Raids.Key
