import Mathlib.Tactic

namespace LittleEndian

/-- The number that the bytes write, the low byte first. -/
def value : List UInt8 → Nat
  | [] => 0
  | b :: bytes => b.toNat + 256 * value bytes

/-- The low bytes of a number, the low byte first. -/
def digits : Nat → Nat → List UInt8
  | 0, _ => []
  | width + 1, n => UInt8.ofNat n :: digits width (n / 256)

/-- The bits of the bytes are numbered from the low bit of the first byte, and all bits behind the
last byte are zero. -/
def bitAt (bytes : List UInt8) (i : Nat) : Bool := (bytes.getD (i / 8) 0).toNat.testBit (i % 8)

/-- The number of bits that are set among the low ones. -/
def popcount : Nat → Nat → Nat
  | 0, _ => 0
  | width + 1, n => n % 2 + popcount width (n / 2)

@[simp] theorem value_nil : value [] = 0 := rfl

@[simp] theorem value_cons (b : UInt8) (bytes : List UInt8) :
    value (b :: bytes) = b.toNat + 256 * value bytes := rfl

theorem value_lt (bytes : List UInt8) : value bytes < 256 ^ bytes.length := by
  induction bytes with
  | nil => simp
  | cons b bytes ih =>
      have bound := b.toNat_lt
      rw [value_cons, List.length_cons, Nat.pow_succ]
      omega

theorem value_append (low high : List UInt8) :
    value (low ++ high) = value low + 256 ^ low.length * value high := by
  induction low with
  | nil => simp
  | cons b low ih =>
      rw [List.cons_append, value_cons, value_cons, ih, List.length_cons, Nat.pow_succ]
      ring

@[simp] theorem length_digits (width n : Nat) : (digits width n).length = width := by
  induction width generalizing n with
  | zero => rfl
  | succ width ih => rw [digits, List.length_cons, ih]

/-- The digits keep the number below their bound. -/
theorem value_digits (width n : Nat) : value (digits width n) = n % 256 ^ width := by
  induction width generalizing n with
  | zero => simp [digits, Nat.mod_one]
  | succ width ih =>
      rw [digits, value_cons, ih, Nat.pow_succ', Nat.mod_mul, UInt8.toNat_ofNat']

/-- The digits of a number are its bytes. -/
theorem digits_value (bytes : List UInt8) : digits bytes.length (value bytes) = bytes := by
  induction bytes with
  | nil => rfl
  | cons b bytes ih =>
      have bound := b.toNat_lt
      have low : UInt8.ofNat (b.toNat + 256 * value bytes) = b := by
        apply UInt8.toNat_inj.mp
        rw [UInt8.toNat_ofNat']
        omega
      have high : (b.toNat + 256 * value bytes) / 256 = value bytes := by omega
      rw [List.length_cons, digits, value_cons, low, high, ih]

/-- The bits of the number are the bits of the bytes. -/
theorem testBit_value (bytes : List UInt8) (i : Nat) :
    (value bytes).testBit i = bitAt bytes i := by
  induction bytes generalizing i with
  | nil => simp [bitAt]
  | cons b bytes ih =>
      rw [value_cons, add_comm, show (256 : Nat) = 2 ^ 8 by norm_num,
        Nat.testBit_two_pow_mul_add _ b.toNat_lt]
      by_cases first : i < 8
      · rw [if_pos first, bitAt, Nat.div_eq_of_lt first, Nat.mod_eq_of_lt first]
        rfl
      · obtain ⟨j, rfl⟩ : ∃ j, i = j + 8 := ⟨i - 8, by omega⟩
        rw [if_neg first, Nat.add_sub_cancel, ih, bitAt, bitAt, Nat.add_mod_right,
          Nat.add_div_right _ (by decide), List.getD_cons_succ]

/-- A number has no bits from its width on. -/
theorem bitAt_of_le (bytes : List UInt8) {i : Nat} (behind : 8 * bytes.length ≤ i) :
    bitAt bytes i = false := by
  rw [bitAt, List.getD_eq_getElem?_getD, List.getElem?_eq_none (by omega)]
  simp

/-- The bits of the first bytes. -/
theorem bitAt_take (bytes : List UInt8) (n i : Nat) :
    bitAt (bytes.take n) i = (decide (i < 8 * n) && bitAt bytes i) := by
  rw [bitAt, bitAt, List.getD_eq_getElem?_getD, List.getD_eq_getElem?_getD, List.getElem?_take]
  by_cases within : i / 8 < n
  · rw [if_pos within]
    simp [show i < 8 * n by omega]
  · rw [if_neg within]
    simp [show ¬i < 8 * n by omega]

/-- The bits behind the first bytes. -/
theorem bitAt_drop (bytes : List UInt8) (n i : Nat) :
    bitAt (bytes.drop n) i = bitAt bytes (8 * n + i) := by
  have place : (8 * n + i) / 8 = n + i / 8 := by omega
  have bit : (8 * n + i) % 8 = i % 8 := by omega
  rw [bitAt, bitAt, place, bit, List.getD_eq_getElem?_getD, List.getD_eq_getElem?_getD,
    List.getElem?_drop]

theorem bitAt_append (low high : List UInt8) (i : Nat) :
    bitAt (low ++ high) i =
      if i < 8 * low.length then bitAt low i else bitAt high (i - 8 * low.length) := by
  rw [bitAt, List.getD_eq_getElem?_getD]
  by_cases within : i / 8 < low.length
  · rw [if_pos (by omega), List.getElem?_append_left within, bitAt, List.getD_eq_getElem?_getD]
  · have place : (i - 8 * low.length) / 8 = i / 8 - low.length := by omega
    have bit : (i - 8 * low.length) % 8 = i % 8 := by omega
    rw [if_neg (by omega), List.getElem?_append_right (by omega), bitAt, place, bit,
      List.getD_eq_getElem?_getD]

/-- The digits of a number have its low bits. -/
theorem bitAt_digits (width n i : Nat) :
    bitAt (digits width n) i = (decide (i < 8 * width) && n.testBit i) := by
  rw [← testBit_value, value_digits, show (256 : Nat) = 2 ^ 8 by norm_num, ← pow_mul,
    Nat.testBit_mod_two_pow]

@[simp] theorem popcount_zero (width : Nat) : popcount width 0 = 0 := by
  induction width with
  | zero => rfl
  | succ width ih => rw [popcount, Nat.zero_div, ih]

/-- The bits of a number are the ones of its low part and of its high part. -/
theorem popcount_add {low : Nat} (width : Nat) (more high : Nat) (small : low < 2 ^ width) :
    popcount (width + more) (low + 2 ^ width * high) = popcount width low + popcount more high := by
  induction width generalizing low with
  | zero =>
      have none : low = 0 := by simpa using small
      simp [none, popcount]
  | succ width ih =>
      rw [Nat.pow_succ] at small ⊢
      have even : (low + 2 ^ width * 2 * high) % 2 = low % 2 := by
        rw [mul_right_comm, Nat.add_mul_mod_self_right]
      have half : (low + 2 ^ width * 2 * high) / 2 = low / 2 + 2 ^ width * high := by
        rw [mul_right_comm, Nat.add_mul_div_right _ _ (by decide)]
      rw [Nat.add_right_comm, popcount, popcount, even, half, ih (by omega), add_assoc]

theorem popcount_of_le {width n : Nat} (more : Nat) (small : n < 2 ^ width) :
    popcount (width + more) n = popcount width n := by
  have sum := popcount_add width more 0 small
  rwa [Nat.mul_zero, popcount_zero] at sum

/-- The bits of a word are counted in its bytes. -/
theorem popcount_value (bytes : List UInt8) :
    popcount (8 * bytes.length) (value bytes) =
      (bytes.map fun b => popcount 8 b.toNat).sum := by
  induction bytes with
  | nil => rfl
  | cons b bytes ih =>
      rw [List.length_cons, Nat.mul_succ, Nat.add_comm, value_cons,
        show (256 : Nat) = 2 ^ 8 by norm_num, popcount_add 8 _ _ b.toNat_lt, ih, List.map_cons,
        List.sum_cons]

/-- Only zero has no bits. -/
theorem popcount_eq_zero {width n : Nat} (small : n < 2 ^ width) :
    popcount width n = 0 ↔ n = 0 := by
  induction width generalizing n with
  | zero =>
      have none : n = 0 := by simpa using small
      simp [none, popcount]
  | succ width ih =>
      rw [Nat.pow_succ] at small
      rw [popcount, Nat.add_eq_zero_iff, ih (by omega)]
      omega

/-- The number of low zeros of a number that is not zero. -/
def ctz : Nat → Nat → Nat
  | 0, _ => 0
  | width + 1, n => if n % 2 = 1 then 0 else ctz width (n / 2) + 1

/-- The low zeros end at a bit that is set. -/
theorem ctz_spec {width n : Nat} (small : n < 2 ^ width) (positive : n ≠ 0) :
    n.testBit (ctz width n) = true ∧ ∀ i < ctz width n, n.testBit i = false := by
  induction width generalizing n with
  | zero =>
      have none : n = 0 := by simpa using small
      exact absurd none positive
  | succ width ih =>
      rw [Nat.pow_succ] at small
      rw [ctz]
      by_cases odd : n % 2 = 1
      · rw [if_pos odd]
        exact ⟨by simpa using odd, fun i below => absurd below (Nat.not_lt_zero i)⟩
      · rw [if_neg odd]
        obtain ⟨set, clear⟩ := ih (n := n / 2) (by omega) (by omega)
        apply And.intro
        · rw [Nat.testBit_add_one]
          exact set
        · intro i below
          cases i with
          | zero => simpa using odd
          | succ i =>
              rw [Nat.testBit_add_one]
              exact clear i (by omega)

end LittleEndian

namespace BigEndian

/-- The number that the bytes write, the high byte first. -/
def value (bytes : List UInt8) : Nat := bytes.foldl (fun n b => n * 256 + b.toNat) 0

/-- The low bytes of a number, the high byte first. -/
def digits : Nat → Nat → List UInt8
  | 0, _ => []
  | width + 1, n => digits width (n / 256) ++ [UInt8.ofNat n]

@[simp] theorem value_nil : value [] = 0 := rfl

theorem value_concat (bytes : List UInt8) (b : UInt8) :
    value (bytes ++ [b]) = value bytes * 256 + b.toNat := by
  simp [value]

@[simp] theorem length_digits (width n : Nat) : (digits width n).length = width := by
  induction width generalizing n with
  | zero => rfl
  | succ width ih => simp [digits, ih]

theorem value_lt (bytes : List UInt8) : value bytes < 256 ^ bytes.length := by
  induction bytes using List.reverseRecOn with
  | nil => simp
  | append_singleton bytes b ih =>
      have bound := b.toNat_lt
      rw [value_concat, List.length_append, List.length_singleton, Nat.pow_succ]
      omega

/-- The digits keep the number below their bound. -/
theorem value_digits (width n : Nat) : value (digits width n) = n % 256 ^ width := by
  induction width generalizing n with
  | zero => simp [digits, Nat.mod_one]
  | succ width ih =>
      rw [digits, value_concat, ih, Nat.pow_succ', Nat.mod_mul]
      simp only [UInt8.toNat_ofNat', Nat.reducePow]
      omega

theorem value_digits_of_lt {width n : Nat} (small : n < 256 ^ width) :
    value (digits width n) = n := by
  rw [value_digits, Nat.mod_eq_of_lt small]

/-- The digits of a number are its bytes. -/
theorem digits_value (bytes : List UInt8) : digits bytes.length (value bytes) = bytes := by
  induction bytes using List.reverseRecOn with
  | nil => rfl
  | append_singleton bytes b ih =>
      have bound := b.toNat_lt
      have high : (value bytes * 256 + b.toNat) / 256 = value bytes := by omega
      have low : UInt8.ofNat (value bytes * 256 + b.toNat) = b := by
        apply UInt8.toNat_inj.mp
        rw [UInt8.toNat_ofNat']
        omega
      rw [List.length_append, List.length_singleton, digits, value_concat, high, low, ih]

/-- A statement about a byte is a statement about its 256 values. -/
theorem forall_byte {P : UInt8 → Prop} (all : ∀ n < 256, P (UInt8.ofNat n)) (b : UInt8) :
    P b := by
  have same := all b.toNat b.toNat_lt
  rwa [UInt8.ofNat_toNat] at same

end BigEndian
