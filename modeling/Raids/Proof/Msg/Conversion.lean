import Raids.Construction.Msg.Conversion
import Raids.Proof.Msg.Numeral

namespace Raids
open Decimal

section Window

variable {str : Bytes}

/-- A window that reads a number has digits of that value. -/
theorem pow10Window_lt {left r : Nat} {str : Bytes} (positive : 0 < left)
    (inside : left ≤ maxPow10) (read : pow10Window (maxPow10 - left) 0 str = some r) :
    r < 10 ^ left := by
  have size : maxPow10 = 10 := rfl
  obtain ⟨enough, all⟩ := isDigit_of_pow10Window (by omega) read
  rw [Nat.sub_sub_self inside] at enough all
  have length : (str.take left).length = left := List.length_take_of_le enough
  have digits := pow10Window_digits all (by
    rw [← List.length_pos_iff]
    omega) (by omega) 0 (str.drop left)
  rw [length, List.take_append_drop, read, Nat.zero_add] at digits
  have small := value_lt all
  rw [length] at small
  rwa [Option.some.inj digits]

/-- Every byte of the loop is inside of the text, and no sum of it wraps. -/
theorem windowLoop_eq {left j n : Nat} (positive : 0 < left) (inside : left ≤ maxPow10)
    (enough : j + left ≤ str.length) (fits : n + 10 ^ left ≤ 2 ^ 64) :
    windowLoop str left j n =
      some (match pow10Window (maxPow10 - left) n (str.drop j) with
        | none => .error .badInt
        | some r => .ok r) := by
  induction left generalizing j n with
  | zero => omega
  | succ left ih =>
      have size : maxPow10 = 10 := rfl
      have here : j < str.length := by omega
      have power : pow10[maxPow10 - (left + 1)]? = some (10 ^ left) := by
        have table : ∀ k < 10, pow10[9 - k]? = some (10 ^ k) := by decide
        rw [show maxPow10 - (left + 1) = 9 - left by omega]
        exact table left (by omega)
      have entry : pow10.getD (maxPow10 - (left + 1)) 0 = 10 ^ left := by
        rw [List.getD_eq_getElem?_getD, power]
        rfl
      rw [windowLoop, List.getElem?_eq_getElem here, List.drop_eq_getElem_cons here, pow10Window,
        entry, power]
      simp only [Option.bind_eq_bind, Option.bind_some]
      generalize str[j] = c
      by_cases isDigit : IsDigit c
      · have notOther : ¬(c < 48 ∨ 57 < c) := by
          rw [IsDigit] at isDigit
          rw [not_or, UInt8.not_lt, UInt8.not_lt]
          exact isDigit
        have small := digitValue_lt isDigit
        have grown : 10 ^ left * digitValue c + 10 ^ left ≤ 10 ^ (left + 1) := by
          calc 10 ^ left * digitValue c + 10 ^ left = 10 ^ left * (digitValue c + 1) := by ring
            _ ≤ 10 ^ left * 10 := Nat.mul_le_mul_left _ small
            _ = 10 ^ (left + 1) := (pow_succ 10 left).symm
        have positivePower : 0 < 10 ^ left := by positivity
        rw [if_neg notOther, if_neg (not_not.mpr isDigit), mul64, if_pos (by omega)]
        simp only [Option.bind_some]
        rw [add64, if_pos (by omega)]
        simp only [Option.bind_some]
        by_cases last : left = 0
        · rw [if_pos last, if_pos (by omega)]
        · rw [if_neg last, if_neg (by omega), ih (by omega) (by omega) (by omega) (by omega),
            show maxPow10 - (left + 1) + 1 = maxPow10 - left by omega]
      · have other : c < 48 ∨ 57 < c := by
          rw [IsDigit, not_and_or, UInt8.not_le, UInt8.not_le] at isDigit
          exact isDigit
        rw [if_pos other, if_pos isDigit]

end Window

section Convert

variable {A : Type} {store one : Bool → Nat → A}
  {test : Bool → Nat → Nat → Option (Except RedisMsgStatus A)}
  {two : Bool → Nat → Nat → Except RedisMsgStatus A}

/-- A conversion stays inside of its text and never wraps. -/
theorem convert_eq (stores : ∀ neg n, n < 10 ^ 10 → store neg n = one neg n)
    (tests : ∀ neg nn n, nn < 10 ^ 10 → n < 10 ^ 10 → test neg nn n = some (two neg nn n))
    (str : Bytes) : convert store test str = some (readWindows one two str) := by
  cases str with
  | nil => rfl
  | cons c rest =>
      have size : maxPow10 = 10 := rfl
      have sign : ((c :: rest).head? == some minus) = (c == minus) := rfl
      have digits : (if c == minus then (c :: rest).tail else c :: rest) =
          (c :: rest).drop (if c == minus then 1 else 0) := by
        by_cases isMinus : c == minus
        · rw [if_pos isMinus, if_pos isMinus]
          rfl
        · rw [if_neg isMinus, if_neg isMinus]
          rfl
      rw [convert, readWindows, if_neg (by simp), if_neg (by simp)]
      simp only [List.getElem?_cons_zero, Option.bind_eq_bind, Option.bind_some, sign, digits]
      generalize (c == minus) = neg
      generalize begins : (if neg then 1 else 0) = start
      have low : start ≤ 1 := by
        rw [← begins]
        split <;> omega
      generalize whole : c :: rest = str
      have behind : ((str.drop start).isEmpty : Prop) ↔ str.length - start = 0 := by
        rw [List.isEmpty_iff, ← List.length_eq_zero_iff, List.length_drop]
      rw [List.length_drop]
      by_cases none : str.length - start = 0
      · rw [if_pos none, if_pos (behind.mpr none)]
      rw [if_neg none, if_neg (fun empty => none (behind.mp empty))]
      by_cases short : str.length - start < maxPow10
      · have window : windowLoop str (str.length - start) start 0 = _ :=
          windowLoop_eq (by omega) (by omega) (by omega) (by
            have power := Nat.pow_le_pow_right (n := 10) (by decide)
              (show str.length - start ≤ 10 by omega)
            omega)
        simp only [if_pos short, List.drop_zero, Nat.add_zero, Nat.sub_sub_self short.le, window,
          Option.bind_some, if_true]
        cases read : pow10Window (maxPow10 - (str.length - start)) 0 (str.drop start) with
        | none => rfl
        | some n =>
            have small := pow10Window_lt (by omega) short.le read
            have power := Nat.pow_le_pow_right (n := 10) (by decide)
              (show str.length - start ≤ 10 by omega)
            simp only [stores neg n (by omega)]
      · have low10 : windowLoop str maxPow10 (start + (str.length - start - maxPow10)) 0 = _ :=
          windowLoop_eq (by decide) le_rfl (by omega) (by decide)
        simp only [if_neg short, Nat.sub_zero, low10, Option.bind_some, List.drop_drop,
          Nat.sub_self]
        cases read : pow10Window 0 0 (str.drop (start + (str.length - start - maxPow10))) with
        | none => rfl
        | some n =>
            have small : n < 10 ^ 10 := @pow10Window_lt maxPow10 n _ (by decide) le_rfl read
            dsimp only
            by_cases one : str.length - start - maxPow10 = 0
            · rw [if_pos one, if_pos one, stores neg n small]
            rw [if_neg one, if_neg one]
            by_cases long : maxPow10 < str.length - start - maxPow10
            · rw [if_pos long, if_pos long]
            rw [if_neg long, if_neg long, Nat.sub_sub_self (by omega)]
            have power := Nat.pow_le_pow_right (n := 10) (by decide)
              (show str.length - start - maxPow10 ≤ 10 by omega)
            have high10 : windowLoop str (str.length - start - maxPow10) start 0 = _ :=
              windowLoop_eq (by omega) (by omega) (by omega) (by omega)
            rw [high10]
            simp only [Option.bind_some]
            cases readHigh : pow10Window (maxPow10 - (str.length - start - maxPow10)) 0
                (str.drop start) with
            | none => rfl
            | some nn =>
                have smallHigh := pow10Window_lt (by omega) (by omega) readHigh
                exact tests neg nn n (by omega) small

end Convert

section Texts

theorem mul64_eq {a b : Nat} (fits : a * b < 2 ^ 64) : mul64 a b = some (a * b) := if_pos fits

/-- Two windows that fit in 64 bits are joined. -/
theorem joinWindows_eq {nn n : Nat} (fits : n + 10 * 1000000000 * nn < 2 ^ 64) :
    joinWindows nn n = some (n + 10 * 1000000000 * nn) := by
  have product := mul64_eq (a := 10) (b := 1000000000) (by norm_num)
  have first : pow10[0]? = some 1000000000 := rfl
  rw [joinWindows, first]
  simp only [Option.bind_eq_bind, Option.bind_some, product]
  rw [mul64, if_pos (by omega)]
  simp only [Option.bind_some]
  rw [add64, if_pos fits]

theorem storeInt_eq (neg : Bool) {n : Nat} (small : n < 2 ^ 63) :
    storeInt neg n = signed neg n := by
  have same : toInt64 n = n := by
    rw [toInt64, Int.bmod]
    omega
  rw [storeInt, signed, same]

theorem storeUint_eq (neg : Bool) {n : Nat} (small : neg = true → n < 2 ^ 63) :
    storeUint neg n = unsigned neg n := by
  cases neg with
  | false => rw [storeUint, unsigned, if_neg (by simp), if_neg (by simp)]
  | true =>
      have bound := small rfl
      have same : toInt64 n = n := by
        rw [toInt64, Int.bmod]
        omega
      rw [storeUint, unsigned, if_pos rfl, if_pos rfl, same]
      omega

/-- The code's conversion is the one of the windows. -/
theorem stringToInt64_eq (str : Bytes) : stringToInt64 str = some (stringToInt str) := by
  have first : pow10.getD 0 0 = 1000000000 := rfl
  rw [stringToInt64, stringToInt_eq]
  refine convert_eq (fun neg n small => storeInt_eq neg (by omega)) ?_ str
  intro neg nn n _ small
  rw [intTest, first]
  by_cases above : 922337203 < nn ∨ (nn = 922337203 ∧ 6854775807 < n)
  · rw [if_pos above, if_pos above]
    by_cases least : neg ∧ nn = 922337203 ∧ n = 6854775808
    · rw [if_pos least, if_pos least]
    · rw [if_neg least, if_neg least]
  · rw [if_neg above, if_neg above, joinWindows_eq (by omega), Option.map_some,
      storeInt_eq neg (by omega)]

theorem stringToUint64_eq (str : Bytes) : stringToUint64 str = some (stringToUint str) := by
  have first : pow10.getD 0 0 = 1000000000 := rfl
  rw [stringToUint64, stringToUint_eq]
  refine convert_eq (fun neg n small => storeUint_eq neg (fun _ => by omega)) ?_ str
  intro neg nn n _ small
  cases neg with
  | true =>
      simp only [uintTest, uintOverflow, if_true, first, decide_eq_true_eq, true_and]
      by_cases above : 922337203 < nn ∨ (nn = 922337203 ∧ 6854775807 < n)
      · rw [if_pos above, if_pos above]
        by_cases least : nn = 922337203 ∧ n = 6854775808
        · rw [if_pos least, if_pos least]
        · rw [if_neg least, if_neg least]
      · rw [if_neg above, if_neg above, joinWindows_eq (by omega), Option.map_some,
          storeUint_eq true (fun _ => by omega)]
  | false =>
      simp only [uintTest, uintOverflow, Bool.false_eq_true, if_false, first, decide_eq_true_eq,
        false_and]
      by_cases above : 1844674407 < nn ∨ (nn = 1844674407 ∧ 3709551615 < n)
      · rw [if_pos above, if_pos above]
      · rw [if_neg above, if_neg above, joinWindows_eq (by omega), Option.map_some,
          storeUint_eq false (by rintro ⟨⟩)]

/-- A numeral has at most twenty digits behind an optional sign. -/
def IsNumeral (str : Bytes) (neg : Bool) (digits : Bytes) : Prop :=
  str = signBytes neg ++ digits ∧ digits ≠ [] ∧ digits.length ≤ 20 ∧ ∀ c ∈ digits, IsDigit c

/-- A text that is refused has a byte that is no digit, or too large a value. -/
theorem refused_of_readWindows {A : Type} {one : Bool → Nat → A}
    {two : Bool → Nat → Nat → Except RedisMsgStatus A}
    (overflows : ∀ neg nn n status, two neg nn n = .error status → status = .intOverflow)
    {str : Bytes} {status : RedisMsgStatus} (read : readWindows one two str = .error status) :
    status = .badInt ∨ status = .intOverflow := by
  rw [readWindows] at read
  by_cases empty : str.isEmpty
  · rw [if_pos empty] at read
    exact Or.inl (Except.error.inj read).symm
  rw [if_neg empty] at read
  dsimp only at read
  generalize (str.head? == some minus) = neg at read
  generalize (if neg then str.tail else str) = digits at read
  generalize (if digits.length < maxPow10 then maxPow10 - digits.length else 0) = i at read
  generalize (if digits.length < maxPow10 then 0 else digits.length - maxPow10) = j at read
  by_cases none : digits.isEmpty
  · rw [if_pos none] at read
    exact Or.inl (Except.error.inj read).symm
  rw [if_neg none] at read
  cases window : pow10Window i 0 (digits.drop j) with
  | none =>
      rw [window] at read
      exact Or.inl (Except.error.inj read).symm
  | some n =>
      rw [window] at read
      dsimp only at read
      by_cases single : j = 0
      · rw [if_pos single] at read
        cases read
      rw [if_neg single] at read
      by_cases long : maxPow10 < j
      · rw [if_pos long] at read
        exact Or.inr (Except.error.inj read).symm
      rw [if_neg long] at read
      cases windowHigh : pow10Window (maxPow10 - j) 0 digits with
      | none =>
          rw [windowHigh] at read
          exact Or.inl (Except.error.inj read).symm
      | some nn =>
          rw [windowHigh] at read
          exact Or.inr (overflows neg nn n status read)

/-- A signed number is read from the numerals in range. -/
theorem stringToInt_iff {str : Bytes} {v : Int} :
    stringToInt str = .ok v ↔ ∃ neg digits, IsNumeral str neg digits ∧
      v = signed neg (value digits) ∧ InInt64 v := by
  constructor
  · intro read
    obtain ⟨neg, digits, rfl, nonempty, short, all⟩ :=
      digits_of_readWindows ((stringToInt_eq str).symm.trans read)
    obtain ⟨isText, inside⟩ := isIntText_of_stringToInt read
    have same := isText.unique ⟨neg, digits, rfl, nonempty, all, rfl⟩
    exact ⟨neg, digits, ⟨rfl, nonempty, short, all⟩, same, inside⟩
  · rintro ⟨neg, digits, ⟨rfl, nonempty, short, all⟩, rfl, inside⟩
    rw [stringToInt_digits neg all nonempty short, intOfDigits, if_pos]
    rw [InInt64, signed] at inside
    cases neg with
    | false =>
        simp only [Bool.false_eq_true, if_false] at inside
        exact Or.inl (by omega)
    | true =>
        simp only [if_true] at inside
        rcases Nat.lt_or_ge (value digits) (2 ^ 63) with small | large
        · exact Or.inl small
        · exact Or.inr ⟨rfl, by omega⟩

/-- A text that is refused is no integer, or it overflows. -/
theorem refused_stringToInt {str : Bytes} {status : RedisMsgStatus}
    (read : stringToInt str = .error status) : status = .badInt ∨ status = .intOverflow := by
  refine refused_of_readWindows ?_ ((stringToInt_eq str).symm.trans read)
  intro neg nn n status refused
  split at refused
  · split at refused
    · cases refused
    · exact (Except.error.inj refused).symm
  · cases refused

theorem refused_stringToUint {str : Bytes} {status : RedisMsgStatus}
    (read : stringToUint str = .error status) : status = .badInt ∨ status = .intOverflow := by
  refine refused_of_readWindows ?_ ((stringToUint_eq str).symm.trans read)
  intro neg nn n status refused
  split at refused
  · split at refused
    · cases refused
    · exact (Except.error.inj refused).symm
  · cases refused

/-- What a conversion of a text leaves: the texts it accepts with their numbers, and for all others
one of two errors. Nothing else happens: no byte outside of the text is read, and no sum wraps. -/
structure Converts {A : Type} (run : Bytes → Option (Except RedisMsgStatus A))
    (accepts : Bytes → A → Prop) : Prop where
  accepted : ∀ str v, run str = some (.ok v) ↔ accepts str v
  refused : ∀ str, (∀ v, ¬accepts str v) →
    run str = some (.error .badInt) ∨ run str = some (.error .intOverflow)

/-- The numerals of numbers with a sign. -/
def ReadsInt (str : Bytes) (v : Int) : Prop :=
  ∃ neg digits, IsNumeral str neg digits ∧ v = signed neg (value digits) ∧ InInt64 v

/-- The numerals of numbers without a sign. Behind a sign the number is the one that is read with a
sign, modulo 2 ^ 64. -/
def ReadsUint (str : Bytes) (v : Nat) : Prop :=
  (∃ digits, IsNumeral str false digits ∧ v = value digits ∧ v < 2 ^ 64) ∨
    str.head? = some minus ∧ ∃ i, ReadsInt str i ∧ (v : Int) = i % 2 ^ 64

/-- A conversion that is total accepts or refuses each text. -/
theorem converts_of_eq {A : Type} {run : Bytes → Option (Except RedisMsgStatus A)}
    {result : Bytes → Except RedisMsgStatus A} {accepts : Bytes → A → Prop}
    (total : ∀ str, run str = some (result str))
    (accepted : ∀ str v, result str = .ok v ↔ accepts str v)
    (refused : ∀ str status, result str = .error status →
      status = .badInt ∨ status = .intOverflow) : Converts run accepts where
  accepted := by
    intro str v
    rw [total, Option.some.injEq, accepted]
  refused := by
    intro str noNumber
    rw [total, Option.some.injEq, Option.some.injEq]
    cases read : result str with
    | ok v => exact absurd ((accepted str v).mp read) (noNumber v)
    | error status =>
        rcases refused str status read with rfl | rfl
        · exact Or.inl rfl
        · exact Or.inr rfl

/-- The two forms of an unsigned text. -/
theorem isUintText_iff {str : Bytes} {v : Nat} : IsUintText str v ↔ ReadsUint str v := by
  constructor
  · rintro ⟨neg, digits, rfl, nonempty, short, all, fits, least, rfl⟩
    cases neg with
    | false => exact Or.inl ⟨digits, ⟨rfl, nonempty, short, all⟩, rfl, fits⟩
    | true =>
        have bound := least rfl
        refine Or.inr ⟨rfl, _, ⟨true, digits, ⟨rfl, nonempty, short, all⟩, rfl, ?_⟩, ?_⟩
        · simp only [InInt64, signed, if_true]
          omega
        · simp only [unsigned, signed, if_true]
          omega
  · rintro (⟨digits, ⟨isText, nonempty, short, all⟩, rfl, fits⟩ |
      ⟨sign, i, ⟨neg, digits, ⟨rfl, nonempty, short, all⟩, rfl, inside⟩, same⟩)
    · exact ⟨false, digits, isText, nonempty, short, all, fits, by rintro ⟨⟩, rfl⟩
    · cases neg with
      | false =>
          obtain ⟨c, rest, rfl⟩ := List.exists_cons_of_ne_nil nonempty
          have isMinus : c = minus := Option.some.inj sign
          exact absurd (all c List.mem_cons_self) (isMinus ▸ minus_not_digit)
      | true =>
          simp only [InInt64, signed, if_true] at inside same
          refine ⟨true, digits, rfl, nonempty, short, all, by omega, fun _ => by omega, ?_⟩
          rw [unsigned, if_pos rfl]
          omega

/-- The conversions accept the numerals of at most twenty digits in their range. -/
theorem conversions_exact : Converts stringToInt64 ReadsInt ∧ Converts stringToUint64 ReadsUint :=
  ⟨converts_of_eq stringToInt64_eq (fun _ _ => stringToInt_iff) fun _ _ => refused_stringToInt,
    converts_of_eq stringToUint64_eq (fun _ _ => stringToUint_iff.trans isUintText_iff)
      fun _ _ => refused_stringToUint⟩

end Texts

end Raids
