import Raids.Construction.Msg.Unpack

namespace Raids
open Decimal

/-- A window of known digits is the window of the bytes. -/
theorem pow10WindowAt_known (str : Bytes) {i : Nat} (start : i < maxPow10)
    (enough : maxPow10 ≤ i + str.length) (n : Nat) (more : Reach) :
    pow10WindowAt i n (str.map some ++ more) = some (pow10Window i n str) := by
  induction str generalizing i n with
  | nil =>
      rw [List.length_nil] at enough
      omega
  | cons c str ih =>
      rw [List.length_cons] at enough
      simp only [List.map_cons, List.cons_append, pow10WindowAt, pow10Window]
      by_cases digit : IsDigit c
      · by_cases last : i + 1 = maxPow10
        · simp [digit, last]
        · simpa [digit, last] using ih (by omega) (by omega) _
      · simp [digit]

/-- A window that reaches the unknown byte stops at a byte before it or has no result. -/
theorem pow10WindowAt_unknown (str : Bytes) {i : Nat} (short : i + str.length < maxPow10)
    (n : Nat) : pow10WindowAt i n (str.map some ++ [none]) =
      if str.any (¬IsDigit ·) then some none else none := by
  induction str generalizing i n with
  | nil => simp [pow10WindowAt]
  | cons c str ih =>
      rw [List.length_cons] at short
      simp only [List.map_cons, List.cons_append, pow10WindowAt]
      by_cases digit : IsDigit c
      · simpa [digit, show i + 1 ≠ maxPow10 by omega] using ih (i := i + 1) (by omega) _
      · simp [digit]

/-- A byte that is not a digit stops the window. -/
theorem pow10Window_not_digit {str : Bytes} {i : Nat} (short : i + str.length ≤ maxPow10)
    (other : str.any (¬IsDigit ·)) (n : Nat) : pow10Window i n str = none := by
  induction str generalizing i n with
  | nil => simp at other
  | cons c str ih =>
      rw [List.length_cons] at short
      rw [pow10Window]
      by_cases digit : IsDigit c
      · have later : str.any (¬IsDigit ·) := by simpa [digit] using other
        have positive : 0 < str.length := by
          obtain ⟨d, member, -⟩ := List.any_eq_true.mp later
          exact List.length_pos_of_mem member
        rw [if_neg (not_not.mpr digit)]
        dsimp only
        rw [if_neg (by omega)]
        exact ih (by omega) later _
      · rw [if_pos digit]

/-- The two windows of the conversion behind the sign. -/
def digitsToInt (neg : Bool) (digits : Bytes) : Except RedisMsgStatus Int :=
  if digits.isEmpty then .error .badInt
  else
    let sz := digits.length
    let i := if sz < maxPow10 then maxPow10 - sz else 0
    let j := if sz < maxPow10 then 0 else sz - maxPow10
    match pow10Window i 0 (digits.drop j) with
    | none => .error .badInt
    | some n =>
        if j = 0 then .ok (signed neg n)
        else if maxPow10 < j then .error .intOverflow
        else
          match pow10Window (maxPow10 - j) 0 digits with
          | none => .error .badInt
          | some nn =>
              if 922337203 < nn ∨ (nn = 922337203 ∧ 6854775807 < n) then
                if neg ∧ nn = 922337203 ∧ n = 6854775808 then .ok (-2 ^ 63)
                else .error .intOverflow
              else .ok (signed neg (n + 10 * pow10.getD 0 0 * nn))

/-- The first byte tells the sign. -/
theorem stringToInt_cons (c : UInt8) (str : Bytes) :
    stringToInt (c :: str) =
      if c = minus then digitsToInt true str else digitsToInt false (c :: str) := by
  by_cases sign : c = minus
  · subst sign
    rfl
  · have isFalse : ((c :: str).head? == some minus) = false := by simpa using sign
    rw [if_neg sign, stringToInt]
    simp only [isFalse]
    rfl

/-- The conversion of known bytes is the conversion of the bytes. -/
theorem stringToIntAt_known (str : Bytes) :
    stringToIntAt (str.map some) = some (stringToInt str) := by
  have size : maxPow10 = 10 := rfl
  -- The digits are read by the same two windows.
  have windows : ∀ neg (digits : Bytes),
      digitsToIntAt neg (digits.map some) = some (digitsToInt neg digits) := by
    intro neg digits
    simp only [digitsToIntAt, digitsToInt, List.isEmpty_map, List.length_map, ← List.map_drop]
    cases nonempty : digits.isEmpty with
    | true => rfl
    | false =>
        have positive : 0 < digits.length := by
          rw [List.length_pos_iff]
          simpa using nonempty
        have last := pow10WindowAt_known (digits.drop (if digits.length < maxPow10 then 0
            else digits.length - maxPow10)) (i := if digits.length < maxPow10 then
            maxPow10 - digits.length else 0) (by split <;> omega)
          (by rw [List.length_drop]; split <;> omega) 0 []
        rw [List.append_nil] at last
        simp only [Bool.false_eq_true, if_false, last]
        cases pow10Window (if digits.length < maxPow10 then maxPow10 - digits.length else 0) 0
            (digits.drop (if digits.length < maxPow10 then 0 else digits.length - maxPow10)) with
        | none => rfl
        | some n =>
            dsimp only
            by_cases one : (if digits.length < maxPow10 then 0
                else digits.length - maxPow10) = 0
            · simp only [one, if_true]
            by_cases long : maxPow10 < (if digits.length < maxPow10 then 0
                else digits.length - maxPow10)
            · simp only [one, long, if_true, if_false]
            have first := pow10WindowAt_known digits (i := maxPow10 -
                (if digits.length < maxPow10 then 0 else digits.length - maxPow10))
              (by omega) (by
                clear last
                split at one <;> split at long <;> omega) 0 []
            rw [List.append_nil] at first
            simp only [one, long, if_false, first]
            cases pow10Window (maxPow10 - (if digits.length < maxPow10 then 0
                else digits.length - maxPow10)) 0 digits with
            | none => rfl
            | some nn =>
                dsimp only
                split
                · split <;> rfl
                · rfl
  cases str with
  | nil => rfl
  | cons c str =>
      rw [stringToInt_cons]
      by_cases sign : c = minus
      · simp only [List.map_cons, stringToIntAt, sign, if_true, windows]
      · simp only [List.map_cons, stringToIntAt, sign, if_false]
        exact windows false (c :: str)

/-- The digits of a number are the bytes behind its sign. -/
def unsignedBytes (str : Bytes) : Bytes := if str.head? = some minus then str.tail else str

/-- The window in front of the last byte holds nine bytes. -/
def nineBytes (digits : Bytes) : Bytes := digits.drop (digits.length - 9)

/-- One of the nine bytes is not a digit. -/
def HasOther (digits : Bytes) : Prop := (nineBytes digits).any (¬IsDigit ·)

instance (digits : Bytes) : Decidable (HasOther digits) := inferInstanceAs (Decidable (_ = _))

/-- The windows reach the unknown last byte unless a byte before it is not a digit. -/
theorem digitsToIntAt_unknown (neg : Bool) (digits : Bytes) :
    digitsToIntAt neg (digits.map some ++ [none]) =
      if HasOther digits then some (.error .badInt) else none := by
  have size : maxPow10 = 10 := rfl
  have notEmpty : (digits.map some ++ [none]).isEmpty = false := by simp
  have length : (digits.map some ++ [none]).length = digits.length + 1 := by simp
  have offset : (if digits.length + 1 < maxPow10 then 0 else digits.length + 1 - maxPow10) =
      digits.length - 9 := by
    split <;> omega
  have window := pow10WindowAt_unknown (nineBytes digits)
    (i := if digits.length + 1 < maxPow10 then maxPow10 - (digits.length + 1) else 0)
    (by rw [nineBytes, List.length_drop]; split <;> omega) 0
  have split : (nineBytes digits).map some ++ [none] =
      (digits.map some ++ [none]).drop (digits.length - 9) := by
    rw [nineBytes, List.map_drop, List.drop_append_of_le_length (by simp)]
  rw [split] at window
  simp only [digitsToIntAt, notEmpty, Bool.false_eq_true, if_false, length, offset, window]
  by_cases other : HasOther digits
  · have found : (nineBytes digits).any (¬IsDigit ·) = true := other
    simp only [other, found, if_true]
  · have noneFound : ¬(nineBytes digits).any (¬IsDigit ·) = true := other
    simp only [other, noneFound, if_false, Bool.false_eq_true]

/-- The conversion reaches the unknown last byte unless a byte before it is not a digit. -/
theorem stringToIntAt_unknown (str : Bytes) :
    stringToIntAt (str.map some ++ [none]) =
      if HasOther (unsignedBytes str) then some (.error .badInt) else none := by
  cases str with
  | nil => rfl
  | cons c str =>
      by_cases sign : c = minus
      · rw [show unsignedBytes (c :: str) = str by simp [unsignedBytes, sign]]
        simp only [List.map_cons, List.cons_append, stringToIntAt, sign, if_true]
        exact digitsToIntAt_unknown true str
      · rw [show unsignedBytes (c :: str) = c :: str by simp [unsignedBytes, sign]]
        simp only [List.map_cons, List.cons_append, stringToIntAt, sign, if_false]
        exact digitsToIntAt_unknown false (c :: str)

/-- The conversion rejects a number with such a byte. -/
theorem stringToInt_other {str : Bytes} (other : HasOther (unsignedBytes str)) :
    stringToInt str = .error .badInt := by
  have size : maxPow10 = 10 := rfl
  -- The last window starts at most one byte before the nine bytes.
  have windows : ∀ neg digits, HasOther digits → digitsToInt neg digits = .error .badInt := by
    intro neg digits other
    obtain ⟨c, member, isOther⟩ := List.any_eq_true.mp other
    have notEmpty : digits.isEmpty = false := by
      cases digits with
      | nil => simp [nineBytes] at member
      | cons d digits => rfl
    have nested : nineBytes digits =
        (digits.drop (if digits.length < maxPow10 then 0 else digits.length - maxPow10)).drop
          (digits.length - 9 -
            (if digits.length < maxPow10 then 0 else digits.length - maxPow10)) := by
      rw [nineBytes, List.drop_drop]
      congr 1
      split <;> omega
    rw [nested] at member
    simp only [digitsToInt, notEmpty, Bool.false_eq_true, if_false]
    rw [pow10Window_not_digit]
    · rw [List.length_drop]
      split <;> omega
    · exact List.any_eq_true.mpr ⟨c, List.mem_of_mem_drop member, isOther⟩
  cases str with
  | nil => simp [HasOther, nineBytes, unsignedBytes] at other
  | cons c str =>
      rw [stringToInt_cons]
      by_cases sign : c = minus
      · rw [if_pos sign]
        exact windows true str (by simpa [unsignedBytes, sign] using other)
      · rw [if_neg sign]
        exact windows false (c :: str) (by simpa [unsignedBytes, sign] using other)

end Raids
