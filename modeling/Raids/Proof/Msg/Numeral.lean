import Raids.Proof.Msg.Number

namespace Raids
open Decimal

/-- The numbers that fit into 64 bits with a sign. -/
def InInt64 (v : Int) : Prop := -2 ^ 63 ≤ v ∧ v < 2 ^ 63

instance (v : Int) : Decidable (InInt64 v) := inferInstanceAs (Decidable (_ ∧ _))

/-- A decimal text has digits behind an optional minus sign. -/
def IsIntText (str : Bytes) (v : Int) : Prop :=
  ∃ neg digits, str = signBytes neg ++ digits ∧ digits ≠ [] ∧ (∀ c ∈ digits, IsDigit c) ∧
    v = signed neg (value digits)

/-- A window that reads a number has read digits only. -/
theorem isDigit_of_pow10Window {i n r : Nat} {str : Bytes} (short : i < maxPow10)
    (read : pow10Window i n str = some r) :
    maxPow10 - i ≤ str.length ∧ ∀ c ∈ str.take (maxPow10 - i), IsDigit c := by
  induction str generalizing i n with
  | nil => cases read
  | cons c str ih =>
      rw [pow10Window] at read
      by_cases isDigit : IsDigit c
      · rw [if_neg (not_not.mpr isDigit)] at read
        obtain ⟨k, width⟩ : ∃ k, maxPow10 - i = k + 1 := ⟨maxPow10 - i - 1, by omega⟩
        rw [width, List.take_succ_cons, List.length_cons]
        by_cases last : i + 1 = maxPow10
        · have none : k = 0 := by omega
          subst none
          exact ⟨by omega, by simpa using isDigit⟩
        · simp only [if_neg last] at read
          obtain ⟨enough, all⟩ := ih (by omega) read
          have rest : maxPow10 - (i + 1) = k := by omega
          rw [rest] at enough all
          apply And.intro (by omega)
          intro d member
          rcases List.mem_cons.mp member with rfl | member
          · exact isDigit
          · exact all d member
      · rw [if_pos isDigit] at read
        cases read

/-- The sign of a text and what stands behind it. -/
theorem signBytes_append_tail (str : Bytes) :
    signBytes (str.head? == some minus) ++ (if str.head? == some minus then str.tail else str) =
      str := by
  cases str with
  | nil => rfl
  | cons c rest =>
      by_cases sign : c = minus <;> simp [signBytes, sign]

/-- Every number that is read has at most twenty digits. -/
theorem digits_of_readWindows {A : Type} {one : Bool → Nat → A}
    {two : Bool → Nat → Nat → Except RedisMsgStatus A} {str : Bytes} {v : A}
    (read : readWindows one two str = .ok v) :
    ∃ neg digits, str = signBytes neg ++ digits ∧ digits ≠ [] ∧ digits.length ≤ 20 ∧
      ∀ c ∈ digits, IsDigit c := by
  rw [readWindows] at read
  by_cases empty : str.isEmpty
  · rw [if_pos empty] at read
    cases read
  rw [if_neg empty] at read
  simp only at read
  have whole := signBytes_append_tail str
  generalize (str.head? == some minus) = neg at read whole
  generalize (if neg then str.tail else str) = digits at read whole
  have size : maxPow10 = 10 := rfl
  by_cases none : digits.isEmpty
  · rw [if_pos none] at read
    cases read
  rw [if_neg none] at read
  have nonempty : digits ≠ [] := fun nil => none (by simp [nil])
  have positive := List.length_pos_of_ne_nil nonempty
  apply Exists.intro neg
  apply Exists.intro digits
  apply And.intro whole.symm
  apply And.intro nonempty
  by_cases short : digits.length < maxPow10
  · -- One window has all digits.
    simp only [if_pos short, List.drop_zero] at read
    cases window : pow10Window (maxPow10 - digits.length) 0 digits with
    | none => rw [window] at read; cases read
    | some n =>
        have all := (isDigit_of_pow10Window (by omega) window).2
        rw [Nat.sub_sub_self short.le, List.take_length] at all
        exact ⟨by omega, all⟩
  · simp only [if_neg short] at read
    cases window : pow10Window 0 0 (digits.drop (digits.length - maxPow10)) with
    | none => rw [window] at read; cases read
    | some n =>
        rw [window] at read
        have low := (isDigit_of_pow10Window (by decide) window).2
        rw [List.take_of_length_le (by rw [List.length_drop]; omega)] at low
        by_cases one : digits.length - maxPow10 = 0
        · rw [one, List.drop_zero] at low
          exact ⟨by omega, low⟩
        · simp only [if_neg one] at read
          by_cases long : maxPow10 < digits.length - maxPow10
          · rw [if_pos long] at read
            cases read
          rw [if_neg long] at read
          apply And.intro (by omega)
          cases windowHigh : pow10Window (maxPow10 - (digits.length - maxPow10)) 0 digits with
          | none => rw [windowHigh] at read; cases read
          | some nn =>
              have high := (isDigit_of_pow10Window (by omega) windowHigh).2
              rw [Nat.sub_sub_self (by omega)] at high
              intro c member
              rw [← List.take_append_drop (digits.length - maxPow10) digits] at member
              rcases List.mem_append.mp member with member | member
              · exact high c member
              · exact low c member

/-- The recogniser accepts decimal texts of numbers in range only, and reads their value. -/
theorem isIntText_of_stringToInt {str : Bytes} {v : Int} (read : stringToInt str = .ok v) :
    IsIntText str v ∧ InInt64 v := by
  obtain ⟨neg, digits, rfl, nonempty, short, all⟩ :=
    digits_of_readWindows ((stringToInt_eq str).symm.trans read)
  rw [stringToInt_digits neg all nonempty short, intOfDigits] at read
  by_cases fits : value digits < 2 ^ 63 ∨ (neg = true ∧ value digits = 2 ^ 63)
  · rw [if_pos fits] at read
    obtain rfl := Except.ok.inj read
    apply And.intro ⟨neg, digits, rfl, nonempty, all, rfl⟩
    rw [InInt64, signed]
    rcases fits with small | ⟨rfl, exact⟩
    · split <;> omega
    · simp only [if_true]
      omega
  · rw [if_neg fits] at read
    cases read

/-- A text of an unsigned number has at most twenty digits. Behind a minus sign it stands for the
two's complement. -/
def IsUintText (str : Bytes) (v : Nat) : Prop :=
  ∃ neg digits, str = signBytes neg ++ digits ∧ digits ≠ [] ∧ digits.length ≤ 20 ∧
    (∀ c ∈ digits, IsDigit c) ∧ value digits < 2 ^ 64 ∧ (neg = true → value digits ≤ 2 ^ 63) ∧
      v = unsigned neg (value digits)

/-- The unsigned recogniser accepts these texts, and reads their value. -/
theorem stringToUint_iff {str : Bytes} {v : Nat} :
    stringToUint str = .ok v ↔ IsUintText str v := by
  constructor
  · intro read
    obtain ⟨neg, digits, rfl, nonempty, short, all⟩ :=
      digits_of_readWindows ((stringToUint_eq str).symm.trans read)
    rw [stringToUint_digits neg all nonempty short, uintOfDigits] at read
    by_cases fits : value digits < 2 ^ 64 ∧ (neg = true → value digits ≤ 2 ^ 63)
    · rw [if_pos fits] at read
      exact ⟨neg, digits, rfl, nonempty, short, all, fits.1, fits.2, (Except.ok.inj read).symm⟩
    · rw [if_neg fits] at read
      cases read
  · intro given
    obtain ⟨neg, digits, whole, nonempty, short, all, fits, least, same⟩ := given
    rw [whole, stringToUint_digits neg all nonempty short, uintOfDigits, if_pos ⟨fits, least⟩, same]

/-- A text has one value. -/
theorem IsIntText.unique {str : Bytes} {v w : Int} (first : IsIntText str v)
    (second : IsIntText str w) : v = w := by
  obtain ⟨neg, digits, rfl, nonempty, all, rfl⟩ := first
  obtain ⟨neg', digits', same, nonempty', all', rfl⟩ := second
  have notMinus : ∀ {ds : Bytes}, (∀ c ∈ ds, IsDigit c) → ∀ rest, ds ≠ minus :: rest := by
    intro ds allDigits rest eq
    exact minus_not_digit (allDigits minus (by simp [eq]))
  cases neg <;> cases neg' <;> simp only [signBytes, List.nil_append, if_true, Bool.false_eq_true,
    if_false, List.cons_append, List.cons.injEq, true_and] at same
  · rw [same]
  · exact absurd same (notMinus all _)
  · exact absurd same.symm (notMinus all' _)
  · rw [same]

/-- A text of more than 21 bytes is no number for the recogniser. -/
theorem length_of_stringToInt {str : Bytes} {v : Int} (read : stringToInt str = .ok v) :
    str.length ≤ 21 := by
  obtain ⟨neg, digits, rfl, _, short, _⟩ :=
    digits_of_readWindows ((stringToInt_eq str).symm.trans read)
  cases neg <;> simp only [signBytes, List.length_append, if_true, Bool.false_eq_true, if_false,
    List.length_cons, List.length_nil] <;> omega

end Raids
