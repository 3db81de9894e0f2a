import Raids.Construction.Http.Response
import Raids.Proof.Msg.JsonString

namespace Raids.Http

/-- The names of five characters behind an ampersand. -/
def entities : List (Bytes × UInt8) :=
  [(text "apos;", 39), (text "quot;", 34), (text "amp;", 38), (text "lt;", 60), (text "gt;", 62)]

/-- The byte of two hexadecimal digits of either case. -/
def escapedByte (s : Bytes) : Option UInt8 :=
  match s with
  | a :: b :: _ => (hexValue a).bind fun h => (hexValue b).map fun l => UInt8.ofNat (16 * h + l)
  | _ => none

/-- The character that the start of a text stands for, and how many bytes stand for it. -/
def uriToken (s : Bytes) : UInt8 × Nat :=
  match s with
  | [] => (0, 1)
  | c :: rest =>
      if c = 37 then
        match escapedByte rest with
        | some b => (b, 3)
        | none => (c, 1)
      else if c = 43 then (space, 1)
      else if c = 38 then
        match entities.find? fun amp => startsWithWord rest amp.1 with
        | some (name, char) => (char, name.length + 1)
        | none => (c, 1)
      else (c, 1)

theorem uriToken_pos (s : Bytes) : 0 < (uriToken s).2 := by
  unfold uriToken
  repeat' split
  all_goals simp

/-- The text from each place on where the bytes of a character start. -/
def uriTokens (s : Bytes) : List Bytes :=
  if s = [] then [] else s :: uriTokens (s.drop (uriToken s).2)
termination_by s.length
decreasing_by
  have positive := uriToken_pos s
  have some := List.length_pos_of_ne_nil (by assumption)
  rw [List.length_drop]
  omega

/-- The characters that a text stands for. -/
def decodedUri (s : Bytes) : Bytes := (uriTokens s).map fun t => (uriToken t).1

/-- The text ends within a name. -/
def CutName (rest name : Bytes) : Prop := rest.length < name.length ∧ startsWithWord name rest

/-- A low digit that is a small letter stands behind a high digit with its second bit, a percent
sign is not cut off, and an ampersand is no apostrophe and not cut off in a name. -/
structure TokenDecodes (s : Bytes) : Prop where
  digits : ∀ a b tail h l, s = 37 :: a :: b :: tail → hexValue a = some h → hexValue b = some l →
    97 ≤ b → h / 2 % 2 = 1
  escape : s ≠ [37] ∧ ∀ a, s = [37, a] → hexValue a = none
  entity : ∀ rest, s = 38 :: rest →
    startsWithWord rest (text "apos;") = false ∧ ∀ amp ∈ entities, ¬CutName rest amp.1

/-- The buffer holds the decoded text as far as it has room, with a final zero, and nothing is read
at the end of the text or behind it. -/
def DecodesUri (beyond : Nat → UInt8) (s : Bytes) (qlen : Nat) : Prop :=
  let (buf, len, past) := HttpReq.decodeUri beyond s qlen
  buf = (decodedUri s).take (qlen - 1) ++ [0] ∧ len = buf.length - 1 ∧ buf.length ≤ qlen ∧
    past = false

/-- A digit of either case. -/
def hexDigit (upper : Bool) (n : Nat) : UInt8 :=
  if n < 10 then UInt8.ofNat (48 + n)
  else if upper then UInt8.ofNat (55 + n) else UInt8.ofNat (87 + n)

/-- The bytes that need no escape. -/
def unescaped (keep : UInt8 → Bool) (b : UInt8) : Bool := keep b && b != 37 && b != 38 && b != 43

/-- The text of a string with its escapes. -/
def percentEncode (upper : Bool) (keep : UInt8 → Bool) (bs : Bytes) : Bytes :=
  bs.flatMap fun b =>
    if unescaped keep b then [b]
    else [37, hexDigit upper (b.toNat / 16), hexDigit upper (b.toNat % 16)]

section Compare

variable {beyond : Nat → UInt8} {s : Bytes}

theorem startsWithWord_iff {line word : Bytes} :
    startsWithWord line word ↔ word.map lower <+: line.map lower := by
  rw [startsWithWord, beq_iff_eq, List.map_take, List.prefix_iff_eq_take, List.length_map, eq_comm]

/-- A comparison leaves the text where the text ends within the name. -/
theorem strncasecmp_inside (i : Nat) (str : Bytes) :
    (∀ r ∈ (strncasecmp beyond s i str).2, r < s.length) ↔ ¬CutName (s.drop i) str := by
  induction str generalizing i with
  | nil => simp [strncasecmp, CutName]
  | cons c str ih =>
      rcases Nat.lt_or_ge i s.length with inside | behind
      · have here : s.drop i = s[i] :: s.drop (i + 1) := List.drop_eq_getElem_cons inside
        have byte : peek beyond s i = s[i] := by simp [peek, inside]
        rw [strncasecmp, byte]
        by_cases same : lower s[i] = lower c
        · rw [if_pos same]
          simp only [List.mem_cons, forall_eq_or_imp, inside, true_and, ih, here, CutName,
            List.length_cons, Nat.add_lt_add_iff_right, startsWithWord_iff, List.map_cons, same,
            List.cons_prefix_cons]
        · rw [if_neg same]
          have apart : ¬CutName (s.drop i) (c :: str) := by
            rw [CutName, here, startsWithWord_iff, List.map_cons, List.map_cons,
              List.cons_prefix_cons]
            exact fun cut => same cut.2.1
          simp [apart, inside]
      · have gone : s.drop i = [] := List.drop_eq_nil_of_le behind
        have cut : CutName (s.drop i) (c :: str) := by
          simp [CutName, gone, startsWithWord_iff]
        rw [strncasecmp]
        split
        · simp [cut, behind]
        · simp [cut, behind]

/-- Inside the text a comparison tells whether the name is there. -/
theorem strncasecmp_eq (i : Nat) {str : Bytes} (inside : ¬CutName (s.drop i) str) :
    (strncasecmp beyond s i str).1 = startsWithWord (s.drop i) str := by
  induction str generalizing i with
  | nil => simp [strncasecmp, startsWithWord]
  | cons c str ih =>
      rcases Nat.lt_or_ge i s.length with within | behind
      · have here : s.drop i = s[i] :: s.drop (i + 1) := List.drop_eq_getElem_cons within
        have byte : peek beyond s i = s[i] := by simp [peek, within]
        rw [strncasecmp, byte]
        by_cases same : lower s[i] = lower c
        · rw [if_pos same]
          have later : ¬CutName (s.drop (i + 1)) str := by
            simpa only [here, CutName, List.length_cons, Nat.add_lt_add_iff_right,
              startsWithWord_iff, List.map_cons, same, List.cons_prefix_cons, true_and] using inside
          dsimp only
          rw [ih (i + 1) later, Bool.eq_iff_iff, startsWithWord_iff, startsWithWord_iff, here,
            List.map_cons, List.map_cons, same, List.cons_prefix_cons, and_iff_right rfl]
        · rw [if_neg same, Eq.comm, Bool.eq_false_iff, ne_eq, startsWithWord_iff, here,
            List.map_cons, List.map_cons, List.cons_prefix_cons]
          exact fun starts => same starts.1.symm
      · have gone : s.drop i = [] := List.drop_eq_nil_of_le behind
        exact absurd ⟨by simp [gone], by simp [gone, startsWithWord_iff]⟩ inside

/-- No name starts with another one. -/
theorem ampChars_apart : ∀ amp ∈ ampChars, ∀ amp' ∈ ampChars,
    startsWithWord amp.1 amp'.1 = true → amp = amp' := by
  decide

/-- A text that starts with a name is not cut off in another one. -/
theorem not_cutName {rest : Bytes} {amp amp' : Bytes × UInt8} (isName : amp ∈ ampChars)
    (isName' : amp' ∈ ampChars) (starts : startsWithWord rest amp.1 = true) :
    ¬CutName rest amp'.1 := by
  intro cut
  rw [startsWithWord_iff] at starts
  have both := starts.trans (startsWithWord_iff.mp cut.2)
  obtain rfl := ampChars_apart amp' isName' amp isName (startsWithWord_iff.mpr both)
  have long := starts.length_le
  have short := cut.1
  simp only [List.length_map] at long
  omega

/-- The search leaves the text where the text ends within a name. -/
theorem findAmp_inside {c : UInt8} {rest : Bytes} {amps : List (Bytes × UInt8)}
    (names : ∀ amp ∈ amps, amp ∈ ampChars) :
    (∀ r ∈ (findAmp beyond (c :: rest) amps).2, r < (c :: rest).length) ↔
      ∀ amp ∈ amps, ¬CutName rest amp.1 := by
  induction amps with
  | nil => simp [findAmp]
  | cons amp amps ih =>
      have compared := @strncasecmp_inside beyond (c :: rest) 1 amp.1
      rw [List.drop_one, List.tail_cons] at compared
      have later := ih fun amp' member => names amp' (List.mem_cons_of_mem _ member)
      rw [findAmp, List.forall_mem_cons]
      by_cases cut : CutName rest amp.1
      · simp only [cut, not_true, false_and, iff_false]
        intro inside
        refine compared.not.mpr (not_not.mpr cut) fun r member => inside r ?_
        split
        · exact member
        · exact List.mem_append_left _ member
      · have same : (strncasecmp beyond (c :: rest) 1 amp.1).1 = startsWithWord rest amp.1 :=
          strncasecmp_eq 1 (by simpa using cut)
        dsimp only
        rw [same]
        by_cases starts : startsWithWord rest amp.1 = true
        · rw [if_pos starts]
          refine iff_of_true (compared.mpr cut) ⟨cut, fun amp' member => ?_⟩
          exact not_cutName (names amp (by simp)) (names amp' (by simp [member])) starts
        · rw [if_neg starts]
          simp only [List.forall_mem_append, compared, later]

/-- Inside the text the search finds the first name that is there. -/
theorem findAmp_eq {c : UInt8} {rest : Bytes} {amps : List (Bytes × UInt8)}
    (inside : ∀ amp ∈ amps, ¬CutName rest amp.1) :
    (findAmp beyond (c :: rest) amps).1 = amps.find? fun amp => startsWithWord rest amp.1 := by
  induction amps with
  | nil => rfl
  | cons amp amps ih =>
      have same : (strncasecmp beyond (c :: rest) 1 amp.1).1 = startsWithWord rest amp.1 :=
        strncasecmp_eq 1 (by simpa using inside amp (by simp))
      rw [findAmp, List.find?_cons]
      dsimp only
      rw [same]
      cases startsWithWord rest amp.1 with
      | true => rfl
      | false => exact ih fun amp' member => inside amp' (List.mem_cons_of_mem _ member)

end Compare

section Digits

theorem isXdigit_iff (c : UInt8) : isXdigit c = true ↔ (hexValue c).isSome := by
  simp only [isXdigit, hexValue]
  split
  · rename_i digit
    simp [digit]
  · split
    · rename_i small
      simp [small]
    · split
      · rename_i large
        simp [large]
      · simp_all

/-- A digit stands for less than sixteen, and a small letter is taken for one that is larger by
32. -/
theorem hexval_eq {c : UInt8} {v : Nat} (digit : hexValue c = some v) :
    v < 16 ∧ (hexval c).toNat = if 97 ≤ c then v + 32 else v := by
  simp only [hexval, UInt8.le_iff_toNat_le] at *
  unfold hexValue at digit
  simp only [UInt8.le_iff_toNat_le, UInt8.reduceToNat] at *
  split at digit
  · rename_i range
    obtain rfl := Option.some.inj digit
    have least : (48 : UInt8) ≤ c := UInt8.le_iff_toNat_le.mpr range.1
    rw [if_pos range, if_neg (by omega), UInt8.toNat_sub_of_le _ _ least]
    exact ⟨by omega, rfl⟩
  · split at digit
    · rename_i range
      obtain rfl := Option.some.inj digit
      have least : (65 : UInt8) ≤ c := UInt8.le_iff_toNat_le.mpr (by simp; omega)
      rw [if_neg (by omega), if_pos (by omega), if_pos range.1, UInt8.toNat_add,
        UInt8.toNat_sub_of_le _ _ least]
      simp only [UInt8.reduceToNat]
      omega
    · split at digit
      · rename_i range
        obtain rfl := Option.some.inj digit
        have least : (65 : UInt8) ≤ c := UInt8.le_iff_toNat_le.mpr range.1
        rw [if_neg (by omega), if_pos range.1, if_neg (by omega), UInt8.toNat_add,
          UInt8.toNat_sub_of_le _ _ least]
        simp only [UInt8.reduceToNat]
        omega
      · cases digit

/-- The second bit of the high digit is the bit that a small letter sets. -/
theorem or_small_letter : ∀ h l : Fin 16,
    (UInt8.ofNat (16 * h) ||| UInt8.ofNat (l + 32) = UInt8.ofNat (16 * h + l) ↔
      (h : Nat) / 2 % 2 = 1) ∧
      UInt8.ofNat (16 * h) ||| UInt8.ofNat l = UInt8.ofNat (16 * h + l) := by
  decide

theorem hexval_shift {c : UInt8} {v : Nat} (digit : hexValue c = some v) :
    hexval c <<< 4 = UInt8.ofNat (16 * v) := by
  obtain ⟨below, value⟩ := hexval_eq digit
  apply UInt8.toNat_inj.mp
  rw [UInt8.toNat_shiftLeft, value, UInt8.toNat_ofNat, Nat.shiftLeft_eq]
  split <;> simp <;> omega

/-- Two digits are one byte, where the second one is no small letter or the first one has its
second bit. -/
theorem escapedByte_exact {a b : UInt8} {h l : Nat} (first : hexValue a = some h)
    (second : hexValue b = some l) :
    hexval a <<< 4 ||| hexval b = UInt8.ofNat (16 * h + l) ↔ (97 ≤ b → h / 2 % 2 = 1) := by
  obtain ⟨highBelow, -⟩ := hexval_eq first
  obtain ⟨lowBelow, low⟩ := hexval_eq second
  have digits := or_small_letter ⟨h, highBelow⟩ ⟨l, lowBelow⟩
  have byte : hexval b = UInt8.ofNat (hexval b).toNat := UInt8.ofNat_toNat.symm
  rw [hexval_shift first, byte, low]
  by_cases small : 97 ≤ b
  · rw [if_pos small, digits.1]
    simp [small]
  · rw [if_neg small, digits.2]
    simp [small]

end Digits

section Turn

variable {beyond : Nat → UInt8}

theorem decodeTurn_plus (rest : Bytes) : decodeTurn beyond (43 :: rest) = ⟨space, 1, [0]⟩ := rfl

theorem decodeTurn_plain {c : UInt8} {rest : Bytes} (percent : c ≠ 37) (plus : c ≠ 43)
    (ampersand : c ≠ 38) : decodeTurn beyond (c :: rest) = ⟨c, 1, [0]⟩ := by
  have first : peek beyond (c :: rest) 0 = c := rfl
  simp only [decodeTurn, first, if_neg percent, if_neg plus, if_neg ampersand]

/-- Two bytes behind a percent sign are digits or stay as they are. -/
theorem tokenDecodes_escape {a b : UInt8} {tail : Bytes} :
    TokenDecodes (37 :: a :: b :: tail) ↔ ∀ h l, hexValue a = some h →
      hexValue b = some l → 97 ≤ b → h / 2 % 2 = 1 := by
  constructor
  · exact fun decodes h l => decodes.digits a b tail h l rfl
  · intro digits
    refine ⟨fun a' b' tail' h l same => ?_, by simp, by simp⟩
    simp only [List.cons.injEq, true_and] at same
    obtain ⟨rfl, rfl, -⟩ := same
    exact digits h l

theorem tokenDecodes_plain {c : UInt8} {rest : Bytes} (percent : c ≠ 37) (ampersand : c ≠ 38) :
    TokenDecodes (c :: rest) := by
  constructor <;> simp [percent, ampersand]

/-- A percent sign that is cut off is read past the end. -/
theorem turn_cut (rest : Bytes) (cut : rest = [] ∨ ∃ a, rest = [a] ∧ isXdigit a = true) :
    ¬(∀ r ∈ (decodeTurn beyond (37 :: rest)).reads, r < (37 :: rest).length) ∧
      ¬TokenDecodes (37 :: rest) := by
  have first : peek beyond (37 :: rest) 0 = 37 := rfl
  rcases cut with rfl | ⟨a, rfl, digit⟩
  · refine ⟨fun inside => ?_, fun decodes => decodes.escape.1 rfl⟩
    have second : 1 ∈ (decodeTurn beyond [37]).reads := by
      rw [decodeTurn, first, if_pos rfl]
      by_cases digit : isXdigit (peek beyond [37] 1) <;>
        by_cases digit' : isXdigit (peek beyond [37] 2) <;> simp [digit, digit']
    exact absurd (inside 1 second) (by simp)
  · refine ⟨fun inside => ?_, fun decodes => ?_⟩
    · have second : peek beyond [37, a] 1 = a := rfl
      have third : 2 ∈ (decodeTurn beyond [37, a]).reads := by
        rw [decodeTurn, first, if_pos rfl, second, if_pos digit]
        split <;> simp
      exact absurd (inside 2 third) (by simp)
    · have none := decodes.escape.2 a rfl
      rw [isXdigit_iff, none] at digit
      cases digit

/-- The turn at a percent sign. -/
theorem turn_escape (rest : Bytes) :
    (((decodeTurn beyond (37 :: rest)).char = (uriToken (37 :: rest)).1 ∧
        ∀ r ∈ (decodeTurn beyond (37 :: rest)).reads, r < (37 :: rest).length) ↔
      TokenDecodes (37 :: rest)) ∧
    (TokenDecodes (37 :: rest) →
      (decodeTurn beyond (37 :: rest)).len = (uriToken (37 :: rest)).2) := by
  by_cases cut : rest = [] ∨ ∃ a, rest = [a] ∧ isXdigit a = true
  · obtain ⟨past, fails⟩ := turn_cut rest cut
    exact ⟨iff_of_false (fun decodes => past decodes.2) fails, fun decodes => absurd decodes fails⟩
  · rw [not_or, not_exists] at cut
    rcases rest with _ | ⟨a, _ | ⟨b, tail⟩⟩
    · exact absurd rfl cut.1
    · have noDigit : isXdigit a = false := by simpa using cut.2 a
      have turn : decodeTurn beyond [37, a] = ⟨37, 1, [0, 1]⟩ := by
        simp [decodeTurn, peek, noDigit]
      have token : uriToken [37, a] = (37, 1) := rfl
      have decodes : TokenDecodes [37, a] := by
        have none : hexValue a = Option.none := by
          rw [← Option.not_isSome_iff_eq_none, ← isXdigit_iff, noDigit]
          decide
        constructor
        · intro a' b tail h l same
          simp at same
        · refine ⟨by simp, fun a' same => ?_⟩
          simp only [List.cons.injEq, and_true, true_and] at same
          rw [← same, none]
        · intro rest' same
          simp at same
      rw [turn, token]
      exact ⟨iff_of_true ⟨rfl, by simp⟩ decodes, fun _ => rfl⟩
    · have first : peek beyond (37 :: a :: b :: tail) 0 = 37 := rfl
      have second : peek beyond (37 :: a :: b :: tail) 1 = a := rfl
      have third : peek beyond (37 :: a :: b :: tail) 2 = b := rfl
      rw [tokenDecodes_escape]
      cases high : hexValue a with
      | none =>
          have noDigit : isXdigit a = false := by
            rw [Bool.eq_false_iff, ne_eq, isXdigit_iff, high]
            decide
          have turn : decodeTurn beyond (37 :: a :: b :: tail) = ⟨37, 1, [0, 1]⟩ := by
            simp [decodeTurn, first, second, noDigit]
          have token : uriToken (37 :: a :: b :: tail) = (37, 1) := by
            simp [uriToken, escapedByte, high]
          simp [turn, token]
      | some h =>
          have digit : isXdigit a = true := by rw [isXdigit_iff, high]; rfl
          cases low : hexValue b with
          | none =>
              have noDigit : isXdigit b = false := by
                rw [Bool.eq_false_iff, ne_eq, isXdigit_iff, low]
                decide
              have turn : decodeTurn beyond (37 :: a :: b :: tail) = ⟨37, 1, [0, 1, 2]⟩ := by
                simp [decodeTurn, first, second, third, digit, noDigit]
              have token : uriToken (37 :: a :: b :: tail) = (37, 1) := by
                simp [uriToken, escapedByte, high, low]
              simp [turn, token]
          | some l =>
              have digit' : isXdigit b = true := by rw [isXdigit_iff, low]; rfl
              have turn : decodeTurn beyond (37 :: a :: b :: tail) =
                  ⟨hexval a <<< 4 ||| hexval b, 3, [0, 1, 2]⟩ := by
                simp [decodeTurn, first, second, third, digit, digit']
              have token : uriToken (37 :: a :: b :: tail) = (UInt8.ofNat (16 * h + l), 3) := by
                simp [uriToken, escapedByte, high, low]
              rw [turn, token]
              dsimp only
              rw [escapedByte_exact high low]
              simp

/-- The turn at an ampersand. -/
theorem turn_entity (rest : Bytes) :
    (((decodeTurn beyond (38 :: rest)).char = (uriToken (38 :: rest)).1 ∧
        ∀ r ∈ (decodeTurn beyond (38 :: rest)).reads, r < (38 :: rest).length) ↔
      TokenDecodes (38 :: rest)) ∧
    (TokenDecodes (38 :: rest) →
      (decodeTurn beyond (38 :: rest)).len = (uriToken (38 :: rest)).2) := by
  have first : peek beyond (38 :: rest) 0 = 38 := rfl
  have noPercent : ¬(38 : UInt8) = 37 := by decide
  have noPlus : ¬(38 : UInt8) = 43 := by decide
  have decodes : TokenDecodes (38 :: rest) ↔ startsWithWord rest (text "apos;") = false ∧
      ∀ amp ∈ entities, ¬CutName rest amp.1 := by
    constructor
    · exact fun decodes => decodes.entity rest rfl
    · intro entity
      refine ⟨by simp, by simp, fun rest' same => ?_⟩
      obtain rfl := (List.cons.inj same).2
      exact entity
  have names : (∀ amp ∈ ampChars, ¬CutName rest amp.1) ↔ ∀ amp ∈ entities, ¬CutName rest amp.1 := by
    simp [ampChars, entities]
  have searched := @findAmp_inside beyond 38 rest ampChars fun _ member => member
  rw [decodes, ← names, ← searched]
  rcases result : findAmp beyond (38 :: rest) ampChars with ⟨found, reads⟩
  have inside : (∀ r ∈ (decodeTurn beyond (38 :: rest)).reads, r < (38 :: rest).length) ↔
      ∀ r ∈ reads, r < (38 :: rest).length := by
    cases found <;> simp [decodeTurn, first, noPercent, noPlus, result]
  rw [inside]
  by_cases whole : ∀ r ∈ reads, r < (38 :: rest).length
  · have first' : found = ampChars.find? fun amp => startsWithWord rest amp.1 := by
      rw [← findAmp_eq (searched.mp (by rw [result]; exact whole)), result]
    rw [and_iff_left whole, and_iff_left whole]
    by_cases apostrophe : startsWithWord rest (text "apos;") = true
    · have taken : found = some (text "apos;", 38) := by
        rw [first', ampChars, List.find?_cons, apostrophe]
      have meant : (uriToken (38 :: rest)).1 = 39 := by
        simp [uriToken, entities, apostrophe, noPercent, noPlus]
      have char : (decodeTurn beyond (38 :: rest)).char = 38 := by
        simp [decodeTurn, first, noPercent, noPlus, result, taken]
      rw [meant, char, apostrophe]
      exact ⟨by decide, fun none => absurd none (by decide)⟩
    · have same : found = entities.find? fun amp => startsWithWord rest amp.1 := by
        rw [first']
        simp only [ampChars, entities, List.find?_cons, apostrophe]
      have turn : (decodeTurn beyond (38 :: rest)).char = (uriToken (38 :: rest)).1 ∧
          (decodeTurn beyond (38 :: rest)).len = (uriToken (38 :: rest)).2 := by
        cases found <;>
          simp [decodeTurn, uriToken, first, noPercent, noPlus, result, ← same]
      simp [turn, apostrophe]
  · exact ⟨iff_of_false (fun both => whole both.2) fun both => whole both.2,
      fun both => absurd both.2 whole⟩

/-- A turn decodes its character under the condition only, and leaves its bytes behind. -/
theorem turn_exact {s : Bytes} (given : s ≠ []) :
    (((decodeTurn beyond s).char = (uriToken s).1 ∧
        ∀ r ∈ (decodeTurn beyond s).reads, r < s.length) ↔ TokenDecodes s) ∧
    (TokenDecodes s → (decodeTurn beyond s).len = (uriToken s).2) := by
  cases s with
  | nil => exact absurd rfl given
  | cons c rest =>
      by_cases percent : c = 37
      · rw [percent]
        exact turn_escape rest
      · by_cases ampersand : c = 38
        · rw [ampersand]
          exact turn_entity rest
        · have plain := @tokenDecodes_plain c rest percent ampersand
          by_cases plus : c = 43
          · have token : uriToken (c :: rest) = (space, 1) := by
              simp only [uriToken, if_neg percent, if_pos plus]
            rw [plus] at plain token ⊢
            rw [decodeTurn_plus, token]
            exact ⟨iff_of_true ⟨rfl, by simp⟩ plain, fun _ => rfl⟩
          · have turn := @decodeTurn_plain beyond c rest percent plus ampersand
            have token : uriToken (c :: rest) = (c, 1) := by
              simp only [uriToken, if_neg percent, if_neg plus, if_neg ampersand]
            rw [turn, token]
            exact ⟨iff_of_true ⟨rfl, by simp⟩ plain, fun _ => rfl⟩

end Turn

section Loop

variable {beyond : Nat → UInt8}

theorem uriTokens_nil : uriTokens [] = [] := by
  rw [uriTokens, if_pos rfl]

theorem uriTokens_of_ne_nil {s : Bytes} (given : s ≠ []) :
    uriTokens s = s :: uriTokens (s.drop (uriToken s).2) := by
  rw [uriTokens, if_neg given]

/-- The loop decodes the text, as far as there is room, under the condition only. -/
theorem decodeLoop_exact (room : Nat) (s : Bytes) :
    ((decodeLoop beyond room s).1 = (decodedUri s).take room ∧
        (decodeLoop beyond room s).2 = false) ↔
      ∀ t ∈ (uriTokens s).take room, TokenDecodes t := by
  induction room generalizing s with
  | zero => simp [decodeLoop]
  | succ room ih =>
      by_cases empty : s = []
      · simp [empty, decodeLoop, decodedUri, uriTokens_nil]
      · have later := ih (s.drop (uriToken s).2)
        rw [decodedUri, uriTokens_of_ne_nil empty, List.map_cons, List.take_succ_cons,
          List.take_succ_cons, List.forall_mem_cons, decodeLoop, if_neg empty]
        obtain ⟨turn, len⟩ := @turn_exact beyond s empty
        have reads : (decodeTurn beyond s).reads.any (s.length ≤ ·) = false ↔
            ∀ r ∈ (decodeTurn beyond s).reads, r < s.length := by
          simp
        simp only [List.cons.injEq, Bool.or_eq_false_iff, reads]
        constructor
        · rintro ⟨⟨char, text⟩, inside, past⟩
          have decodes := turn.mp ⟨char, inside⟩
          rw [len decodes] at text past
          exact ⟨decodes, later.mp ⟨text, past⟩⟩
        · rintro ⟨decodes, all⟩
          obtain ⟨char, inside⟩ := turn.mpr decodes
          obtain ⟨text, past⟩ := later.mpr all
          rw [len decodes]
          exact ⟨⟨char, text⟩, inside, past⟩

end Loop

section Encode

/-- A digit is read back as its value. -/
theorem hexValue_hexDigit (upper : Bool) {n : Nat} (below : n < 16) :
    hexValue (hexDigit upper n) = some n := by
  cases upper <;> interval_cases n <;> rfl

/-- Only the small digits from ten on are small letters. -/
theorem small_hexDigit (upper : Bool) {n : Nat} (below : n < 16) :
    97 ≤ hexDigit upper n ↔ upper = false ∧ 10 ≤ n := by
  cases upper <;> interval_cases n <;> decide

variable {upper : Bool} {keep : UInt8 → Bool}

/-- The code of one byte is one token that stands for it. -/
theorem uriToken_encode (b : UInt8) (rest : Bytes) :
    (uriToken (percentEncode upper keep [b] ++ rest)).1 = b ∧
      (uriToken (percentEncode upper keep [b] ++ rest)).2 = (percentEncode upper keep [b]).length ∧
      (TokenDecodes (percentEncode upper keep [b] ++ rest) ↔
        unescaped keep b = true ∨ upper = true ∨ b.toNat % 16 < 10 ∨ b.toNat / 32 % 2 = 1) := by
  have range := b.toNat_lt
  by_cases plain : unescaped keep b = true
  · have code : percentEncode upper keep [b] = [b] := by simp [percentEncode, plain]
    obtain ⟨⟨⟨-, noPercent⟩, noAmpersand⟩, noPlus⟩ :
        ((keep b = true ∧ b ≠ 37) ∧ b ≠ 38) ∧ b ≠ 43 := by
      simpa [unescaped] using plain
    rw [code, List.singleton_append]
    refine ⟨?_, ?_, iff_of_true (tokenDecodes_plain noPercent noAmpersand) (.inl plain)⟩
    · simp only [uriToken, if_neg noPercent, if_neg noAmpersand, if_neg noPlus]
    · simp only [uriToken, if_neg noPercent, if_neg noAmpersand, if_neg noPlus]
      rfl
  · have code : percentEncode upper keep [b] =
        [37, hexDigit upper (b.toNat / 16), hexDigit upper (b.toNat % 16)] := by
      simp [percentEncode, plain]
    have high := hexValue_hexDigit upper (show b.toNat / 16 < 16 by omega)
    have low := hexValue_hexDigit upper (show b.toNat % 16 < 16 by omega)
    have token : uriToken (37 :: hexDigit upper (b.toNat / 16) ::
        hexDigit upper (b.toNat % 16) :: rest) = (b, 3) := by
      have whole : 16 * (b.toNat / 16) + b.toNat % 16 = b.toNat := by omega
      simp only [uriToken, escapedByte, high, low, Option.bind_some, Option.map_some, if_true,
        whole, UInt8.ofNat_toNat]
    rw [code]
    refine ⟨congrArg Prod.fst token, congrArg Prod.snd token, ?_⟩
    have decodes : TokenDecodes (37 :: hexDigit upper (b.toNat / 16) ::
        hexDigit upper (b.toNat % 16) :: rest) ↔
          (upper = false ∧ 10 ≤ b.toNat % 16 → b.toNat / 16 / 2 % 2 = 1) := by
      rw [tokenDecodes_escape, ← small_hexDigit upper (show b.toNat % 16 < 16 by omega)]
      simp [high, low]
    refine decodes.trans ?_
    rw [Nat.div_div_eq_div_mul]
    cases upper <;> simp [plain]
    · omega

theorem percentEncode_cons (b : UInt8) (bs : Bytes) :
    percentEncode upper keep (b :: bs) =
      percentEncode upper keep [b] ++ percentEncode upper keep bs := by
  simp [percentEncode]

theorem percentEncode_ne_nil (b : UInt8) (bs : Bytes) :
    percentEncode upper keep (b :: bs) ≠ [] := by
  simp only [percentEncode, List.flatMap_cons]
  split <;> simp

/-- The code of a string has one token for each byte. -/
theorem decodedUri_encode (bs : Bytes) :
    decodedUri (percentEncode upper keep bs) = bs ∧
      ((∀ t ∈ uriTokens (percentEncode upper keep bs), TokenDecodes t) ↔
        upper = true ∨
          ∀ b ∈ bs, unescaped keep b = true ∨ b.toNat % 16 < 10 ∨ b.toNat / 32 % 2 = 1) := by
  induction bs with
  | nil => simp [decodedUri, percentEncode, uriTokens_nil]
  | cons b bs ih =>
      obtain ⟨char, len, decodes⟩ := @uriToken_encode upper keep b (percentEncode upper keep bs)
      have tokens := uriTokens_of_ne_nil (@percentEncode_ne_nil upper keep b bs)
      rw [percentEncode_cons] at tokens ⊢
      rw [len, List.drop_left] at tokens
      rw [decodedUri] at ih ⊢
      rw [tokens, List.map_cons, char, ih.1, List.forall_mem_cons, decodes, ih.2]
      refine ⟨rfl, ?_⟩
      rw [List.forall_mem_cons]
      tauto

end Encode

/-- The text is decoded under this condition only, on the characters that have room. A string comes
back from its code where it is written with capitals, or no byte that is escaped has a low digit
from ten on without its third bit from above. -/
theorem decodeUri_exact (beyond : Nat → UInt8) (s : Bytes) (qlen : Nat) (upper : Bool)
    (keep : UInt8 → Bool) (bs : Bytes) (more : Nat) :
    (DecodesUri beyond s qlen ↔
      0 < qlen ∧ ∀ t ∈ (uriTokens s).take (qlen - 1), TokenDecodes t) ∧
    (HttpReq.decodeUri beyond (percentEncode upper keep bs) (bs.length + 1 + more) =
        (bs ++ [0], bs.length, false) ↔
      upper = true ∨
        ∀ b ∈ bs, unescaped keep b = true ∨ b.toNat % 16 < 10 ∨ b.toNat / 32 % 2 = 1) := by
  constructor
  · rw [DecodesUri, HttpReq.decodeUri, ← @decodeLoop_exact beyond]
    rcases decodeLoop beyond (qlen - 1) s with ⟨q, past⟩
    dsimp only
    rw [List.append_left_inj, List.length_append, List.length_singleton]
    constructor
    · rintro ⟨decoded, -, fits, inside⟩
      exact ⟨by omega, decoded, inside⟩
    · rintro ⟨positive, decoded, inside⟩
      have fits : q.length ≤ qlen - 1 := by
        rw [decoded]
        exact List.length_take_le _ _
      exact ⟨decoded, by omega, by omega, inside⟩
  · obtain ⟨decoded, all⟩ := @decodedUri_encode upper keep bs
    have tokens : (uriTokens (percentEncode upper keep bs)).length = bs.length := by
      rw [← congrArg List.length decoded, decodedUri, List.length_map]
    have loop := @decodeLoop_exact beyond (bs.length + more) (percentEncode upper keep bs)
    rw [decoded, List.take_of_length_le (Nat.le_add_right _ _),
      List.take_of_length_le (tokens.le.trans (Nat.le_add_right _ _)), all] at loop
    rw [← loop, HttpReq.decodeUri, show bs.length + 1 + more - 1 = bs.length + more by omega]
    rcases decodeLoop beyond (bs.length + more) (percentEncode upper keep bs) with ⟨q, past⟩
    simp only [Prod.mk.injEq, List.append_left_inj]
    constructor
    · rintro ⟨same, -, inside⟩
      exact ⟨same, inside⟩
    · rintro ⟨same, inside⟩
      exact ⟨same, by rw [same], inside⟩

/-- A small letter as the low digit is not read as its value. -/
theorem not_decodeUri_exact : ¬DecodesUri (fun _ => space) (text "%4a") 8 := by
  intro decodes
  have loop := (@decodeLoop_exact (fun _ => space) 7 (text "%4a")).mp
    ⟨List.append_cancel_right decodes.1, decodes.2.2.2⟩
  have token : TokenDecodes (text "%4a") := loop _ (by
    rw [uriTokens_of_ne_nil (by decide), List.take_succ_cons]
    exact List.mem_cons_self)
  exact absurd (token.digits 52 97 [] 4 10 rfl rfl rfl (by decide)) (by decide)

section Space

variable {beyond : Nat → UInt8}

/-- A name ends at the space behind the text. -/
theorem strncasecmp_space (ends : beyond 0 = space) {s str : Bytes} {i : Nat}
    (inside : i ≤ s.length) (letters : ∀ c ∈ str, lower c ≠ space) :
    (strncasecmp beyond s i str).1 = startsWithWord (s.drop i) str := by
  induction str generalizing i with
  | nil => simp [strncasecmp, startsWithWord]
  | cons c str ih =>
      obtain ⟨letter, letters⟩ := List.forall_mem_cons.mp letters
      rcases Nat.lt_or_ge i s.length with within | behind
      · have here : s.drop i = s[i] :: s.drop (i + 1) := List.drop_eq_getElem_cons within
        have byte : peek beyond s i = s[i] := by simp [peek, within]
        rw [strncasecmp, byte]
        by_cases same : lower s[i] = lower c
        · rw [if_pos same]
          dsimp only
          rw [ih within letters, Bool.eq_iff_iff, startsWithWord_iff, startsWithWord_iff, here,
            List.map_cons, List.map_cons, same, List.cons_prefix_cons, and_iff_right rfl]
        · rw [if_neg same, Eq.comm, Bool.eq_false_iff, ne_eq, startsWithWord_iff, here,
            List.map_cons, List.map_cons, List.cons_prefix_cons]
          exact fun starts => same starts.1.symm
      · have last : i = s.length := by omega
        have byte : peek beyond s i = space := by simp [peek, last, ends]
        have apart : ¬lower space = lower c := fun same => letter same.symm
        rw [strncasecmp, byte, if_neg apart, last, List.drop_length]
        rfl

theorem findAmp_space (ends : beyond 0 = space) {c : UInt8} {rest : Bytes}
    {amps : List (Bytes × UInt8)} (letters : ∀ amp ∈ amps, ∀ c ∈ amp.1, lower c ≠ space) :
    (findAmp beyond (c :: rest) amps).1 = amps.find? fun amp => startsWithWord rest amp.1 := by
  induction amps with
  | nil => rfl
  | cons amp amps ih =>
      obtain ⟨letter, letters⟩ := List.forall_mem_cons.mp letters
      have same : (strncasecmp beyond (c :: rest) 1 amp.1).1 = startsWithWord rest amp.1 :=
        strncasecmp_space ends (by simp) letter
      rw [findAmp, List.find?_cons]
      dsimp only
      rw [same]
      cases startsWithWord rest amp.1 with
      | true => rfl
      | false => exact ih letters

/-- In front of a space the characters of the text alone are written, as the service has it. -/
theorem decodeLoop_space (ends : beyond 0 = space) (room : Nat) (s : Bytes) :
    (decodeLoop beyond room s).1 = decodeUri room s := by
  induction room generalizing s with
  | zero => rfl
  | succ room ih =>
      cases s with
      | nil => rfl
      | cons c rest =>
          have first : peek beyond (c :: rest) 0 = c := rfl
          rw [decodeLoop, if_neg (by simp)]
          dsimp only
          rw [ih]
          by_cases percent : c = 37
          · have noDigit : isXdigit space = false := by decide
            subst percent
            rcases rest with _ | ⟨a, _ | ⟨b, tail⟩⟩
            · have second : peek beyond [37] 1 = space := ends
              simp [decodeTurn, first, second, noDigit, decodeUri]
            · have second : peek beyond [37, a] 1 = a := rfl
              have third : peek beyond [37, a] 2 = space := ends
              by_cases digit : isXdigit a = true <;>
                simp [decodeTurn, first, second, third, digit, noDigit, decodeUri]
            · have second : peek beyond (37 :: a :: b :: tail) 1 = a := rfl
              have third : peek beyond (37 :: a :: b :: tail) 2 = b := rfl
              by_cases digit : isXdigit a = true <;> by_cases digit' : isXdigit b = true <;>
                simp [decodeTurn, first, second, third, digit, digit', decodeUri]
          · by_cases plus : c = 43
            · rw [plus, decodeTurn_plus]
              simp [decodeUri]
            · by_cases ampersand : c = 38
              · have letters : ∀ amp ∈ ampChars, ∀ c ∈ amp.1, lower c ≠ space := by
                  have none : (ampChars.any fun amp => amp.1.any (lower · == space)) = false := rfl
                  simpa [List.any_eq_false] using none
                have found := @findAmp_space beyond ends c rest ampChars letters
                rcases result : findAmp beyond (c :: rest) ampChars with ⟨amp, reads⟩
                rw [result] at found
                subst ampersand
                cases amp <;>
                  simp [decodeTurn, first, decodeUri, result, ← found]
              · rw [decodeTurn_plain percent plus ampersand]
                simp [decodeUri, percent, plus, ampersand]

end Space

end Raids.Http
