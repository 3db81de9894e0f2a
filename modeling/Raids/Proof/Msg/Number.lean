import Raids.Construction.Msg.Number

namespace Raids
open Decimal

/-- Four more rounds of the numeral are one round of the digit count. -/
theorem uintDigitsFrom_eq {fuel v : Nat} (enough : v < fuel) (n : Nat) :
    uintDigitsFrom fuel v n + 1 = n + (decimal v).length := by
  induction fuel generalizing v n with
  | zero => omega
  | succ fuel ih =>
      simp only [uintDigitsFrom]
      by_cases one : v < 10
      · simp [one, decimal_of_lt one]
      have tens : (decimal v).length = (decimal (v / 10)).length + 1 := by
        simp [decimal_of_le (n := v) (by omega)]
      by_cases two : v < 100
      · simp [one, two, tens, decimal_of_lt (n := v / 10) (by omega)]
      have hundreds : (decimal (v / 10)).length = (decimal (v / 100)).length + 1 := by
        simp [decimal_of_le (n := v / 10) (by omega), Nat.div_div_eq_div_mul]
      by_cases three : v < 1000
      · simp [one, two, three, tens, hundreds, decimal_of_lt (n := v / 100) (by omega)]
      have thousands : (decimal (v / 100)).length = (decimal (v / 1000)).length + 1 := by
        simp [decimal_of_le (n := v / 100) (by omega), Nat.div_div_eq_div_mul]
      by_cases four : v < 10000
      · simp [one, two, three, four, tens, hundreds, thousands,
          decimal_of_lt (n := v / 1000) (by omega)]
      have more : (decimal (v / 1000)).length = (decimal (v / 10000)).length + 1 := by
        simp [decimal_of_le (n := v / 1000) (by omega), Nat.div_div_eq_div_mul]
      have rest := ih (v := v / 10000) (by omega) (n + 4)
      simp only [one, two, three, four, if_false]
      omega

theorem uint64Digits_eq (v : Nat) : uint64Digits v = (uint64ToString v).length := by
  have count := uintDigitsFrom_eq (Nat.lt_add_one v) 1
  rw [uint64Digits, uint64ToString]
  omega

/-- The digit count is the number of bytes that the printer writes. -/
theorem int64Digits_eq (v : Int) : int64Digits v = (int64ToString v).length := by
  rw [int64Digits, int64ToString]
  split
  · rw [List.length_cons, uint64Digits_eq]
    omega
  · exact uint64Digits_eq _

theorem minus_not_digit : ¬IsDigit minus := by decide

/-- The window reads the value of the digits that reach the end of the table. -/
theorem pow10Window_digits {digits : Bytes} (all : ∀ c ∈ digits, IsDigit c)
    (nonempty : digits ≠ []) (short : digits.length ≤ maxPow10) (n : Nat) (more : Bytes) :
    pow10Window (maxPow10 - digits.length) n (digits ++ more) = some (n + value digits) := by
  induction digits generalizing n with
  | nil => exact absurd rfl nonempty
  | cons c digits ih =>
      have isDigit : IsDigit c := all c (by simp)
      rw [List.length_cons] at short ⊢
      have size : maxPow10 = 10 := rfl
      have power : pow10.getD (maxPow10 - (digits.length + 1)) 0 = 10 ^ digits.length := by
        have table : ∀ k < 10, pow10.getD (9 - k) 0 = 10 ^ k := by decide
        rw [show maxPow10 - (digits.length + 1) = 9 - digits.length by omega]
        exact table digits.length (by omega)
      simp only [List.cons_append, pow10Window, isDigit, not_true, if_false, power, value_cons]
      by_cases last : digits = []
      · subst last
        simp [maxPow10]
      · have positive := List.length_pos_of_ne_nil last
        rw [if_neg (by omega),
          show maxPow10 - (digits.length + 1) + 1 = maxPow10 - digits.length by omega,
          ih (fun d member => all d (by simp [member])) last (by omega)]
        congr 1
        ring

/-- A numeral of at most twenty digits has a value in range or overflows. -/
def intOfDigits (neg : Bool) (v : Nat) : Except RedisMsgStatus Int :=
  if v < 2 ^ 63 ∨ (neg ∧ v = 2 ^ 63) then .ok (signed neg v) else .error .intOverflow

/-- The sign byte of a number. -/
def signBytes (neg : Bool) : Bytes := if neg then [minus] else []

/-- What the two conversions have in common: the last ten digits and the ten digits before them are
read in two windows. -/
def readWindows {A : Type} (one : Bool → Nat → A)
    (two : Bool → Nat → Nat → Except RedisMsgStatus A) (str : Bytes) : Except RedisMsgStatus A :=
  if str.isEmpty then .error .badInt
  else
    let neg := str.head? == some minus
    let digits := if neg then str.tail else str
    if digits.isEmpty then .error .badInt
    else
      let sz := digits.length
      let i := if sz < maxPow10 then maxPow10 - sz else 0
      let j := if sz < maxPow10 then 0 else sz - maxPow10
      match pow10Window i 0 (digits.drop j) with
      | none => .error .badInt
      | some n =>
          if j = 0 then .ok (one neg n)
          else if maxPow10 < j then .error .intOverflow
          else
            match pow10Window (maxPow10 - j) 0 digits with
            | none => .error .badInt
            | some nn => two neg nn n

theorem stringToInt_eq (str : Bytes) :
    stringToInt str = readWindows signed (fun neg nn n =>
      if 922337203 < nn ∨ (nn = 922337203 ∧ 6854775807 < n) then
        if neg ∧ nn = 922337203 ∧ n = 6854775808 then .ok (-2 ^ 63) else .error .intOverflow
      else .ok (signed neg (n + 10 * pow10.getD 0 0 * nn))) str := rfl

theorem stringToUint_eq (str : Bytes) :
    stringToUint str = readWindows unsigned (fun neg nn n =>
      if uintOverflow neg nn n then
        if neg ∧ nn = 922337203 ∧ n = 6854775808 then .ok (2 ^ 63) else .error .intOverflow
      else .ok (unsigned neg (n + 10 * pow10.getD 0 0 * nn))) str := rfl

section Windows

variable {A : Type} (one : Bool → Nat → A) (two : Bool → Nat → Nat → Except RedisMsgStatus A)
  (neg : Bool) {digits : Bytes}

/-- Behind the sign are the digits. -/
theorem readWindows_signed (all : ∀ c ∈ digits, IsDigit c) (nonempty : digits ≠ []) :
    readWindows one two (signBytes neg ++ digits) =
      let sz := digits.length
      let i := if sz < maxPow10 then maxPow10 - sz else 0
      let j := if sz < maxPow10 then 0 else sz - maxPow10
      match pow10Window i 0 (digits.drop j) with
      | none => .error .badInt
      | some n =>
          if j = 0 then .ok (one neg n)
          else if maxPow10 < j then .error .intOverflow
          else
            match pow10Window (maxPow10 - j) 0 digits with
            | none => .error .badInt
            | some nn => two neg nn n := by
  have headDigit : digits.head? ≠ some minus := by
    intro head
    obtain ⟨rest, rfl⟩ : ∃ rest, digits = minus :: rest := by
      cases digits with
      | nil => cases head
      | cons c rest => exact ⟨rest, by rw [Option.some.inj head]⟩
    exact minus_not_digit (all minus (by simp))
  have isNeg : ((signBytes neg ++ digits).head? == some minus) = neg := by
    cases neg
    · simpa [signBytes] using headDigit
    · simp [signBytes]
  have unsigned : (if neg then (signBytes neg ++ digits).tail else signBytes neg ++ digits) =
      digits := by
    cases neg <;> simp [signBytes]
  have notEmpty : (signBytes neg ++ digits).isEmpty = false := by
    cases neg <;> simp [signBytes, nonempty]
  simp only [readWindows, notEmpty, isNeg, unsigned, List.isEmpty_iff, nonempty, if_false,
    Bool.false_eq_true]

/-- At most ten digits are one window. -/
theorem readWindows_one (all : ∀ c ∈ digits, IsDigit c) (nonempty : digits ≠ [])
    (short : digits.length ≤ maxPow10) :
    readWindows one two (signBytes neg ++ digits) = .ok (one neg (value digits)) := by
  have window := pow10Window_digits all nonempty short 0 []
  have start : (if digits.length < maxPow10 then maxPow10 - digits.length else 0) =
      maxPow10 - digits.length := by
    split <;> omega
  have offset : (if digits.length < maxPow10 then 0 else digits.length - maxPow10) = 0 := by
    split <;> omega
  rw [List.append_nil, Nat.zero_add] at window
  rw [readWindows_signed one two neg all nonempty]
  simp only [start, offset, List.drop_zero, window, if_true]

/-- Of more digits the last ten are one window and the digits before them are another. -/
theorem readWindows_two (all : ∀ c ∈ digits, IsDigit c) (long : maxPow10 < digits.length)
    (short : digits.length ≤ 20) :
    readWindows one two (signBytes neg ++ digits) =
      two neg (value digits / 10 ^ 10) (value digits % 10 ^ 10) := by
  have size : maxPow10 = 10 := rfl
  have nonempty : digits ≠ [] := by
    rintro rfl
    simp at long
  rw [readWindows_signed one two neg all nonempty]
  obtain ⟨high, low, rfl, lowLength⟩ :
      ∃ high low, digits = high ++ low ∧ low.length = maxPow10 :=
    ⟨digits.take (digits.length - maxPow10), digits.drop (digits.length - maxPow10),
      (List.take_append_drop _ _).symm, by rw [List.length_drop]; omega⟩
  have allHigh : ∀ c ∈ high, IsDigit c := fun c member => all c (by simp [member])
  have allLow : ∀ c ∈ low, IsDigit c := fun c member => all c (by simp [member])
  simp only [List.length_append, lowLength] at long short ⊢
  have lowWindow := pow10Window_digits allLow
    (by intro nil; simp [nil, maxPow10] at lowLength) lowLength.le 0 []
  have highWindow := pow10Window_digits allHigh
    (by intro nil; simp [nil] at long) (by omega) 0 low
  rw [lowLength, Nat.sub_self, List.append_nil, Nat.zero_add] at lowWindow
  rw [Nat.zero_add] at highWindow
  have notShort : ¬high.length + maxPow10 < maxPow10 := by omega
  simp only [notShort, if_false, Nat.add_sub_cancel, List.drop_left, lowWindow, highWindow,
    show ¬high.length = 0 by omega, show ¬maxPow10 < high.length by omega]
  have whole : value (high ++ low) = value high * 10 ^ 10 + value low := by
    rw [value_append, lowLength, size]
  have lowSmall : value low < 10 ^ 10 := by
    have := value_lt allLow
    rwa [lowLength, size] at this
  rw [show value high = value (high ++ low) / 10 ^ 10 by omega,
    show value low = value (high ++ low) % 10 ^ 10 by omega]

end Windows

/-- The conversion reads every signed numeral of at most twenty digits exactly. -/
theorem stringToInt_digits (neg : Bool) {digits : Bytes} (all : ∀ c ∈ digits, IsDigit c)
    (nonempty : digits ≠ []) (short : digits.length ≤ 20) :
    stringToInt (signBytes neg ++ digits) = intOfDigits neg (value digits) := by
  have first : pow10.getD 0 0 = 1000000000 := rfl
  rw [stringToInt_eq]
  rcases Nat.lt_or_ge maxPow10 digits.length with two | one
  · rw [readWindows_two _ _ neg all two short, intOfDigits, first]
    by_cases above : 922337203 < value digits / 10 ^ 10 ∨
        (value digits / 10 ^ 10 = 922337203 ∧ 6854775807 < value digits % 10 ^ 10)
    · rw [if_pos above]
      by_cases least : neg ∧ value digits / 10 ^ 10 = 922337203 ∧
          value digits % 10 ^ 10 = 6854775808
      · have exact : value digits = 2 ^ 63 := by omega
        rw [if_pos least, if_pos (Or.inr ⟨least.1, exact⟩), exact, least.1]
        rfl
      · rw [if_neg least, if_neg]
        rintro (fits | ⟨isNeg, exact⟩)
        · omega
        · exact least ⟨isNeg, by omega⟩
    · rw [if_neg above, if_pos (Or.inl (by omega))]
      congr 2
      omega
  · rw [readWindows_one _ _ neg all nonempty one, intOfDigits]
    have small := value_lt all
    have power : 10 ^ digits.length ≤ 10 ^ 10 := Nat.pow_le_pow_right (by decide) one
    rw [if_pos (Or.inl (by omega))]

/-- An unsigned numeral has the bound of its type, and one with a sign the bound of an int64. -/
def uintOfDigits (neg : Bool) (v : Nat) : Except RedisMsgStatus Nat :=
  if v < 2 ^ 64 ∧ (neg = true → v ≤ 2 ^ 63) then .ok (unsigned neg v) else .error .intOverflow

/-- The unsigned conversion reads numerals of at most twenty digits. -/
theorem stringToUint_digits (neg : Bool) {digits : Bytes} (all : ∀ c ∈ digits, IsDigit c)
    (nonempty : digits ≠ []) (short : digits.length ≤ 20) :
    stringToUint (signBytes neg ++ digits) = uintOfDigits neg (value digits) := by
  have first : pow10.getD 0 0 = 1000000000 := rfl
  rw [stringToUint_eq]
  rcases Nat.lt_or_ge maxPow10 digits.length with two | one
  · rw [readWindows_two _ _ neg all two short, uintOfDigits, first]
    cases neg with
    | false =>
        simp only [uintOverflow, Bool.false_eq_true, if_false, false_and, decide_eq_true_eq,
          false_implies, and_true]
        split
        · rw [if_neg (by omega)]
        · rw [if_pos (by omega)]
          congr 2
          omega
    | true =>
        simp only [uintOverflow, if_true, true_and, decide_eq_true_eq, forall_const]
        split
        · split
          · rw [if_pos (by omega), show value digits = 2 ^ 63 by omega]
            rfl
          · rw [if_neg (by omega)]
        · rw [if_pos (by omega)]
          congr 2
          omega
  · rw [readWindows_one _ _ neg all nonempty one, uintOfDigits]
    have small := value_lt all
    have power : 10 ^ digits.length ≤ 10 ^ 10 := Nat.pow_le_pow_right (by decide) one
    rw [if_pos ⟨by omega, fun _ => by omega⟩]

theorem int64ToString_eq (v : Int) :
    int64ToString v = signBytes (v < 0) ++ decimal v.natAbs := by
  by_cases negative : v < 0 <;> simp [int64ToString, signBytes, uint64ToString, negative]

/-- Reading a printed int64 gives it back. -/
theorem stringToInt_int64ToString {v : Int} (lower : -2 ^ 63 ≤ v) (upper : v < 2 ^ 63) :
    stringToInt (int64ToString v) = .ok v := by
  have magnitude : v.natAbs < 2 ^ 63 ∨ (decide (v < 0) = true ∧ v.natAbs = 2 ^ 63) := by
    by_cases negative : v < 0
    · simp only [negative, decide_true, true_and]
      omega
    · simp only [negative, decide_false, Bool.false_eq_true, false_and, or_false]
      omega
  have short : (decimal v.natAbs).length ≤ 20 := by
    rw [length_decimal_le_iff (by decide)]
    omega
  rw [int64ToString_eq, stringToInt_digits _ (isDigit_of_mem_decimal _) (decimal_ne_nil _) short,
    value_decimal, intOfDigits, if_pos magnitude]
  congr 1
  simp only [signed, decide_eq_true_eq]
  split <;> omega

theorem strToInt32_int64ToString {len : Int} (lower : -2 ^ 31 ≤ len) (upper : len < 2 ^ 31) :
    strToInt32 (int64ToString len) = .ok len := by
  rw [strToInt32, stringToInt_int64ToString (by omega) (by omega)]
  exact congrArg Except.ok (toInt32_of_bounds lower upper)

/-- A printed number has no byte of a line end. -/
theorem not_mem_int64ToString {v : Int} {c : UInt8} (space : c ≤ 32) :
    c ∉ int64ToString v := by
  rw [int64ToString_eq]
  intro member
  rcases List.mem_append.mp member with sign | isDigit
  · have isMinus : c = minus := by
      simp only [signBytes] at sign
      split at sign
      · exact List.mem_singleton.mp sign
      · cases sign
    subst isMinus
    exact absurd space (by decide)
  · have bounds := isDigit_iff.mp (isDigit_of_mem_decimal _ c isDigit)
    rw [UInt8.le_iff_toNat_le] at space
    have bound : (32 : UInt8).toNat = 32 := rfl
    omega

end Raids
