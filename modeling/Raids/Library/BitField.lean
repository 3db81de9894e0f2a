import Mathlib.Tactic

namespace BitField

/-- The number in the bits from an offset on. -/
def read (n off width : Nat) : Nat := n >>> off % 2 ^ width

/-- The bits from an offset on are replaced by the low bits of a number. -/
def write (n off width v : Nat) : Nat :=
  n % 2 ^ off + 2 ^ off * (v % 2 ^ width + 2 ^ width * n >>> (off + width))

/-- The part of a sum that a range keeps: all of it, its nearest bound, or nothing. -/
inductive Policy where
  | wrap | saturate | fail
  deriving DecidableEq, Repr

/-- The number of a field, with or without a sign. -/
def interpret (signed : Bool) (width v : Nat) : Int :=
  if signed then Int.bmod v (2 ^ width) else v

/-- The least number of a field. -/
def least (signed : Bool) (width : Nat) : Int := if signed then -2 ^ (width - 1) else 0

/-- The greatest number of a field. -/
def greatest (signed : Bool) (width : Nat) : Int :=
  if signed then 2 ^ (width - 1) - 1 else 2 ^ width - 1

/-- The bits of a number in a field. -/
def bits (width : Nat) (v : Int) : Nat := (v % 2 ^ width).toNat

/-- What a field holds for a sum. -/
def hold (policy : Policy) (signed : Bool) (width : Nat) (sum : Int) : Option Int :=
  match policy with
  | .wrap => some (interpret signed width (bits width sum))
  | .saturate => some (max (least signed width) (min (greatest signed width) sum))
  | .fail => if least signed width ≤ sum ∧ sum ≤ greatest signed width then some sum else none

variable {n off width v i : Nat}

theorem read_lt : read n off width < 2 ^ width := Nat.mod_lt _ (Nat.two_pow_pos width)

theorem testBit_read : (read n off width).testBit i = (decide (i < width) && n.testBit (off + i)) := by
  rw [read, Nat.testBit_mod_two_pow, Nat.testBit_shiftRight]

/-- A write changes the bits of its field only. -/
theorem testBit_write :
    (write n off width v).testBit i =
      if i < off ∨ off + width ≤ i then n.testBit i else v.testBit (i - off) := by
  rw [write, add_comm (n % 2 ^ off),
    Nat.testBit_two_pow_mul_add _ (Nat.mod_lt _ (Nat.two_pow_pos off))]
  by_cases before : i < off
  · rw [if_pos before, if_pos (.inl before), Nat.testBit_mod_two_pow]
    simp [before]
  · rw [if_neg before, add_comm (v % 2 ^ width),
      Nat.testBit_two_pow_mul_add _ (Nat.mod_lt _ (Nat.two_pow_pos width))]
    by_cases within : i - off < width
    · rw [if_pos within, if_neg (by omega), Nat.testBit_mod_two_pow]
      simp [within]
    · have place : off + width + (i - off - width) = i := by omega
      rw [if_neg within, if_pos (by omega), Nat.testBit_shiftRight, place]

/-- What is written is read. -/
theorem read_write_self : read (write n off width v) off width = v % 2 ^ width := by
  apply Nat.eq_of_testBit_eq
  intro i
  rw [testBit_read, testBit_write, Nat.testBit_mod_two_pow]
  by_cases within : i < width
  · rw [if_neg (by omega), Nat.add_sub_cancel_left]
  · simp [within]

/-- A field that a write does not meet keeps its number. -/
theorem read_write_of_disjoint {off' width' : Nat}
    (disjoint : off' + width' ≤ off ∨ off + width ≤ off') :
    read (write n off width v) off' width' = read n off' width' := by
  apply Nat.eq_of_testBit_eq
  intro i
  rw [testBit_read, testBit_write, testBit_read]
  by_cases within : i < width'
  · rw [if_pos (by omega)]
  · simp [within]

/-- Half of the numbers of a field. -/
theorem two_pow_eq (pos : 0 < width) : (2 : Int) ^ width = 2 * 2 ^ (width - 1) := by
  obtain ⟨w, rfl⟩ : ∃ w, width = w + 1 := ⟨width - 1, by omega⟩
  rw [Nat.add_sub_cancel, pow_succ]
  ring

theorem one_le_half (width : Nat) : (1 : Int) ≤ 2 ^ (width - 1) :=
  one_le_pow₀ (by decide)

theorem interpret_bounds (pos : 0 < width) (signed : Bool) (v : Nat) (small : v < 2 ^ width) :
    least signed width ≤ interpret signed width v ∧
      interpret signed width v ≤ greatest signed width := by
  have half := two_pow_eq pos
  have one := one_le_half width
  have cast : ((2 ^ width : Nat) : Int) = 2 ^ width := by norm_num
  have upper : (v : Int) < 2 ^ width := by rw [← cast]; exact_mod_cast small
  cases signed with
  | false =>
      simp only [least, interpret, greatest, Bool.false_eq_true, if_false]
      omega
  | true =>
      have low := @Int.le_bmod v (2 ^ width) (Nat.two_pow_pos width)
      have high := @Int.bmod_lt v (2 ^ width) (Nat.two_pow_pos width)
      simp only [least, interpret, greatest, if_true]
      rw [cast] at low high
      omega

theorem bits_lt (width : Nat) (v : Int) : bits width v < 2 ^ width := by
  have pos : (0 : Int) < 2 ^ width := by positivity
  have low := Int.emod_nonneg v pos.ne'
  have high := Int.emod_lt_of_pos v pos
  have cast : ((2 ^ width : Nat) : Int) = 2 ^ width := by norm_num
  rw [bits]
  omega

/-- A number of the field is what its bits stand for. -/
theorem interpret_bits (pos : 0 < width) (signed : Bool) {v : Int}
    (low : least signed width ≤ v) (high : v ≤ greatest signed width) :
    interpret signed width (bits width v) = v := by
  have half := two_pow_eq pos
  have cast : ((2 ^ width : Nat) : Int) = 2 ^ width := by norm_num
  have two : (0 : Int) < 2 ^ width := by positivity
  have nonneg := Int.emod_nonneg v two.ne'
  have number : ((bits width v : Nat) : Int) = v % 2 ^ width := by rw [bits]; omega
  cases signed with
  | false =>
      simp only [least, greatest, Bool.false_eq_true, if_false] at low high
      simp only [interpret, Bool.false_eq_true, if_false, number]
      exact Int.emod_eq_of_lt low (by omega)
  | true =>
      simp only [least, greatest, if_true] at low high
      simp only [interpret, if_true, number]
      rw [← cast, Int.emod_bmod, Int.bmod_eq_of_le] <;> rw [cast] <;> omega

/-- What a field holds is in its range. -/
theorem hold_bounds (pos : 0 < width) {policy : Policy} {signed : Bool} {sum v : Int}
    (holds : hold policy signed width sum = some v) :
    least signed width ≤ v ∧ v ≤ greatest signed width := by
  have order : least signed width ≤ greatest signed width := by
    have one := one_le_half width
    have half := two_pow_eq pos
    cases signed <;> simp only [least, greatest, Bool.false_eq_true, if_false, if_true] <;> omega
  cases policy with
  | wrap =>
      obtain rfl := Option.some.inj holds
      exact interpret_bounds pos signed _ (bits_lt width sum)
  | saturate =>
      obtain rfl := Option.some.inj holds
      omega
  | fail =>
      rw [hold, Option.ite_none_right_eq_some] at holds
      exact Option.some.inj holds.2 ▸ holds.1

end BitField
