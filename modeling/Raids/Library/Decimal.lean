import Mathlib.Data.Nat.Log
import Mathlib.Tactic

namespace Decimal

/-- The digits are the bytes from '0' to '9'. -/
def IsDigit (c : UInt8) : Prop := 48 ≤ c ∧ c ≤ 57

instance (c : UInt8) : Decidable (IsDigit c) := inferInstanceAs (Decidable (_ ∧ _))

/-- A digit byte has this value. -/
def digitValue (c : UInt8) : Nat := c.toNat - 48

/-- This byte prints one digit value. -/
def digit (d : Nat) : UInt8 := UInt8.ofNat (48 + d)

theorem toNat_digit {d : Nat} (small : d < 10) : (digit d).toNat = 48 + d := by
  simp only [digit, UInt8.toNat_ofNat']
  omega

theorem isDigit_iff {c : UInt8} : IsDigit c ↔ 48 ≤ c.toNat ∧ c.toNat ≤ 57 := by
  simp [IsDigit, UInt8.le_iff_toNat_le]

theorem isDigit_digit {d : Nat} (small : d < 10) : IsDigit (digit d) := by
  rw [isDigit_iff, toNat_digit small]
  omega

theorem digitValue_digit {d : Nat} (small : d < 10) : digitValue (digit d) = d := by
  rw [digitValue, toNat_digit small]
  omega

theorem digitValue_lt {c : UInt8} (isDigit : IsDigit c) : digitValue c < 10 := by
  have bounds := isDigit_iff.mp isDigit
  rw [digitValue]
  omega

/-- The fuel bounds the number of leading digits. -/
def decimalFuel : Nat → Nat → List UInt8
  | 0, n => [digit n]
  | fuel + 1, n =>
      if n < 10 then [digit n] else decimalFuel fuel (n / 10) ++ [digit (n % 10)]

/-- This list is the canonical decimal numeral, without leading zeros. -/
def decimal (n : Nat) : List UInt8 := decimalFuel n n

theorem decimalFuel_eq {first second n : Nat} (enough : n ≤ first) (also : n ≤ second) :
    decimalFuel first n = decimalFuel second n := by
  induction first generalizing second n with
  | zero =>
      have zero : n = 0 := Nat.le_zero.mp enough
      subst zero
      cases second <;> simp [decimalFuel]
  | succ first ih =>
      cases second with
      | zero =>
          have zero : n = 0 := Nat.le_zero.mp also
          subst zero
          simp [decimalFuel]
      | succ second =>
          simp only [decimalFuel]
          split
          · rfl
          · have same : decimalFuel first (n / 10) = decimalFuel second (n / 10) := by
              apply ih <;> omega
            rw [same]

/-- A numeral is one digit, or the numeral of the quotient and a last digit. -/
theorem decimal_eq (n : Nat) :
    decimal n = if n < 10 then [digit n] else decimal (n / 10) ++ [digit (n % 10)] := by
  cases n with
  | zero => rfl
  | succ n =>
      simp only [decimal, decimalFuel]
      split
      · rfl
      · have same : decimalFuel n ((n + 1) / 10) = decimalFuel ((n + 1) / 10) ((n + 1) / 10) := by
          apply decimalFuel_eq <;> omega
        rw [same]

theorem decimal_of_lt {n : Nat} (small : n < 10) : decimal n = [digit n] := by
  rw [decimal_eq, if_pos small]

theorem decimal_of_le {n : Nat} (large : 10 ≤ n) :
    decimal n = decimal (n / 10) ++ [digit (n % 10)] := by
  rw [decimal_eq, if_neg (by omega)]

/-- The numeral of a quotient comes before the numeral. -/
theorem decimal_induction {motive : Nat → Prop} (small : ∀ n < 10, motive n)
    (large : ∀ n, 10 ≤ n → motive (n / 10) → motive n) (n : Nat) : motive n := by
  induction n using Nat.strong_induction_on with
  | _ n ih =>
      by_cases one : n < 10
      · exact small n one
      · exact large n (by omega) (ih (n / 10) (by omega))

theorem decimal_ne_nil (n : Nat) : decimal n ≠ [] := by
  rw [decimal_eq]
  split <;> simp

theorem isDigit_of_mem_decimal (n : Nat) : ∀ c ∈ decimal n, IsDigit c := by
  induction n using decimal_induction with
  | small n one =>
      rw [decimal_of_lt one]
      simpa using isDigit_digit one
  | large n many ih =>
      rw [decimal_of_le many]
      intro c member
      rcases List.mem_append.mp member with before | last
      · exact ih c before
      · rw [List.mem_singleton.mp last]
        exact isDigit_digit (Nat.mod_lt _ (by decide))

/-- A numeral of a positive number does not start with '0'. -/
theorem head_decimal {n : Nat} (positive : 0 < n) :
    ∃ c rest, decimal n = c :: rest ∧ IsDigit c ∧ 0 < digitValue c := by
  induction n using decimal_induction with
  | small n one =>
      exact ⟨digit n, [], decimal_of_lt one, isDigit_digit one, by rwa [digitValue_digit one]⟩
  | large n many ih =>
      obtain ⟨c, rest, start, isDigit, nonzero⟩ := ih (by omega)
      exact ⟨c, rest ++ [digit (n % 10)], by rw [decimal_of_le many, start]; rfl,
        isDigit, nonzero⟩

/-- The bound on the length is the bound on the value. -/
theorem length_decimal_le_iff {n k : Nat} (positive : 0 < k) :
    (decimal n).length ≤ k ↔ n < 10 ^ k := by
  induction n using decimal_induction generalizing k with
  | small n one =>
      have power : 10 ≤ 10 ^ k := Nat.le_self_pow (by omega) 10
      rw [decimal_of_lt one]
      simp only [List.length_singleton]
      omega
  | large n many ih =>
      obtain ⟨k, rfl⟩ : ∃ less, k = less + 1 := ⟨k - 1, by omega⟩
      rw [decimal_of_le many, List.length_append, List.length_singleton]
      cases k with
      | zero =>
          have nonempty := List.length_pos_of_ne_nil (decimal_ne_nil (n / 10))
          simp only [Nat.reduceAdd, pow_one]
          omega
      | succ k =>
          have shorter := ih (k := k + 1) (by omega)
          have product : 10 ^ (k + 1 + 1) = 10 * 10 ^ (k + 1) := by rw [pow_succ]; omega
          rw [product]
          omega

/-- The positional value reads the most significant digit first. -/
def value (digits : List UInt8) : Nat :=
  digits.foldl (fun high c => 10 * high + digitValue c) 0

@[simp] theorem value_nil : value [] = 0 := rfl

theorem value_append_singleton (digits : List UInt8) (c : UInt8) :
    value (digits ++ [c]) = 10 * value digits + digitValue c := by
  simp [value]

theorem value_append (high low : List UInt8) :
    value (high ++ low) = value high * 10 ^ low.length + value low := by
  induction low using List.reverseRecOn with
  | nil => simp
  | append_singleton low c ih =>
      rw [← List.append_assoc, value_append_singleton, ih, value_append_singleton,
        List.length_append, List.length_singleton, pow_succ]
      ring

theorem value_cons (c : UInt8) (low : List UInt8) :
    value (c :: low) = digitValue c * 10 ^ low.length + value low := by
  have split := value_append [c] low
  simpa [value] using split

theorem value_lt {digits : List UInt8} (all : ∀ c ∈ digits, IsDigit c) :
    value digits < 10 ^ digits.length := by
  induction digits with
  | nil => simp
  | cons c low ih =>
      have first := digitValue_lt (all c (by simp))
      have tail := ih fun d member => all d (by simp [member])
      rw [value_cons, List.length_cons, pow_succ]
      have product : digitValue c * 10 ^ low.length ≤ 9 * 10 ^ low.length :=
        Nat.mul_le_mul_right _ (by omega)
      omega

/-- Reading a numeral gives the printed number. -/
@[simp] theorem value_decimal (n : Nat) : value (decimal n) = n := by
  induction n using decimal_induction with
  | small n one => simp [decimal_of_lt one, value, digitValue_digit one]
  | large n many ih =>
      rw [decimal_of_le many, value_append_singleton, ih,
        digitValue_digit (Nat.mod_lt _ (by decide))]
      omega

end Decimal
