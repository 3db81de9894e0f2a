import Mathlib.Data.List.TakeWhile
import Raids.Proof.Msg.JsonRoundTrip

namespace Raids
open Decimal

/-- Where a text ends: between tokens, inside a string, behind its backslash, inside the digits of
its escape, or inside a word. -/
inductive JsonLex where
  | plain
  | string (quote : UInt8)
  | escape (quote : UInt8)
  | hex (quote : UInt8) (left : Nat)
  | word (seen : Bytes)
  deriving DecidableEq, Repr

/-- The words that the reader knows. -/
def jsonWords : List Bytes := [jsonTrue, jsonFalse, jsonNull, jsonNil]

/-- A word goes on as long as it is the start of a known one. -/
def JsonLex.ofWord (seen : Bytes) : JsonLex :=
  if jsonWords.any fun word => seen.isPrefixOf word && seen != word then .word seen else .plain

def JsonLex.step : JsonLex → UInt8 → JsonLex
  | .plain, c =>
      if c = singleQuote ∨ c = backtick ∨ c = doubleQuote then .string c else .ofWord [c]
  | .string quote, c =>
      if c = quote then .plain else if c = backslash then .escape quote else .string quote
  | .escape quote, c =>
      if c = 120 then .hex quote 2 else if c = 117 then .hex quote 4 else .string quote
  | .hex quote left, _ => if left ≤ 1 then .string quote else .hex quote (left - 1)
  | .word seen, c => .ofWord (seen ++ [c])

def JsonLex.run (lex : JsonLex) (json : Bytes) : JsonLex := json.foldl JsonLex.step lex

/-- A text that ends inside the digits of an escape or inside a word. -/
def JsonLex.Cut : JsonLex → Prop
  | .hex _ _ => True
  | .word _ => True
  | _ => False

instance (lex : JsonLex) : Decidable lex.Cut := by
  cases lex <;> unfold JsonLex.Cut <;> infer_instance

namespace JsonLex

theorem run_append (lex : JsonLex) (first second : Bytes) :
    lex.run (first ++ second) = (lex.run first).run second := List.foldl_append

theorem run_cons (lex : JsonLex) (c : UInt8) (json : Bytes) :
    lex.run (c :: json) = (lex.step c).run json := rfl

/-- A byte that starts no string and no word stays between the tokens. -/
theorem step_plain {c : UInt8}
    (other : c ∉ [singleQuote, backtick, doubleQuote, 116, 102, 110]) :
    JsonLex.plain.step c = .plain := by
  have all : ∀ c : UInt8, c ∉ [singleQuote, backtick, doubleQuote, 116, 102, 110] →
      JsonLex.plain.step c = .plain := by
    apply BigEndian.forall_byte
    decide +kernel
  exact all c other

/-- Bytes that start no string and no word stay between the tokens. -/
theorem run_plain {json : Bytes} (rest : Bytes)
    (other : ∀ c ∈ json, c ∉ [singleQuote, backtick, doubleQuote, 116, 102, 110]) :
    JsonLex.plain.run (json ++ rest) = JsonLex.plain.run rest := by
  induction json with
  | nil => rfl
  | cons c json ih =>
      rw [List.cons_append, run_cons, step_plain (other c List.mem_cons_self)]
      exact ih fun d member => other d (List.mem_cons_of_mem _ member)

theorem run_eatWhite (json : Bytes) :
    JsonLex.plain.run (eatWhite json) = JsonLex.plain.run json := by
  have spaces : ∀ c, JsonSpace c → c ∉ [singleQuote, backtick, doubleQuote, 116, 102, 110] := by
    intro c space member
    simp only [List.mem_cons, List.not_mem_nil, or_false] at member
    rcases member with rfl | rfl | rfl | rfl | rfl | rfl <;> exact absurd space (by decide)
  have split := List.takeWhile_append_dropWhile (p := (JsonSpace ·)) (l := json)
  rw [eatWhite]
  nth_rewrite 2 [← split]
  rw [run_plain]
  intro c member
  have space := List.all_eq_true.mp (List.all_takeWhile (p := (JsonSpace ·)) (l := json)) c member
  exact spaces c (of_decide_eq_true space)

/-- A known word ends between the tokens, and its parts are cut. -/
theorem run_word : ∀ word ∈ jsonWords, JsonLex.plain.run word = .plain ∧
    ∀ n < word.length, 0 < n → (JsonLex.plain.run (word.take n)).Cut := by
  decide

end JsonLex

section Chars

variable {mem : JsonMem} {quote : UInt8}

/-- The digits of an escape that the text cuts. -/
theorem cut_hex {left : Nat} {digits : Bytes} (short : digits.length < left) :
    ((JsonLex.hex quote left).run digits).Cut := by
  induction digits generalizing left with
  | nil => trivial
  | cons c digits ih =>
      rw [List.length_cons] at short
      rw [JsonLex.run_cons, JsonLex.step, if_neg (by omega)]
      exact ih (by omega)

/-- The digits of an escape end inside the string. -/
theorem run_hex {left : Nat} {digits : Bytes} (whole : digits.length = left + 1) :
    (JsonLex.hex quote (left + 1)).run digits = .string quote := by
  induction left generalizing digits with
  | zero =>
      obtain ⟨c, rfl⟩ := List.length_eq_one_iff.mp whole
      rfl
  | succ left ih =>
      cases digits with
      | nil => cases whole
      | cons c digits =>
          rw [JsonLex.run_cons, JsonLex.step, if_neg (by omega)]
          exact ih (Nat.succ.inj whole)

/-- A string that is read ends between the tokens, and more text does not change it; neither does
it change an error, if the text is not cut inside an escape. -/
structure CharsStable (mem : JsonMem) (quote : UInt8) (json : Bytes) (b : JsonString) : Prop where
  item : ∀ {str rest} more, parseChars mem quote json b = .ok (str, rest) →
    parseChars mem quote (json ++ more) b = .ok (str, rest ++ more) ∧
      (JsonLex.string quote).run json = JsonLex.plain.run rest ∧ rest.length < json.length
  fail : ∀ {status} more, parseChars mem quote json b = .error status →
    status ≠ .partialValue → ¬((JsonLex.string quote).run json).Cut →
      parseChars mem quote (json ++ more) b = .error status

/-- A text that is read up to some place is as stable as what follows. -/
theorem CharsStable.front (front : Bytes) {tail : Bytes} {b b' : JsonString}
    (same : ∀ more, parseChars mem quote (front ++ (tail ++ more)) b =
      parseChars mem quote (tail ++ more) b')
    (lex : (JsonLex.string quote).run front = .string quote)
    (stable : CharsStable mem quote tail b') : CharsStable mem quote (front ++ tail) b := by
  have now := same []
  rw [List.append_nil] at now
  constructor
  · intro str rest more done
    obtain ⟨longer, ends, shorter⟩ := stable.item more (now.symm.trans done)
    refine ⟨?_, ?_, ?_⟩
    · rw [List.append_assoc, same, longer]
    · rw [JsonLex.run_append, lex, ends]
    · rw [List.length_append]
      omega
  · intro status more failed isError whole
    rw [JsonLex.run_append, lex] at whole
    rw [List.append_assoc, same]
    exact stable.fail more (now.symm.trans failed) isError whole

/-- An error that does not look behind the text is stable. -/
theorem CharsStable.of_error {json : Bytes} {b : JsonString} {status : RedisMsgStatus}
    (same : ∀ more, parseChars mem quote (json ++ more) b = .error status) :
    CharsStable mem quote json b := by
  have now := same []
  rw [List.append_nil] at now
  constructor
  · intro str rest more done
    rw [now] at done
    cases done
  · intro status' more failed _ _
    rw [same, ← now, failed]

/-- A text that is cut, or waits for more, says nothing about a longer one. -/
theorem CharsStable.of_cut {json : Bytes} {b : JsonString} {status : RedisMsgStatus}
    (failed : parseChars mem quote json b = .error status)
    (cut : status = .partialValue ∨ ((JsonLex.string quote).run json).Cut) :
    CharsStable mem quote json b := by
  constructor
  · intro str rest more done
    rw [failed] at done
    cases done
  · intro status' more failed' isError whole
    rw [failed] at failed'
    obtain rfl := Except.error.inj failed'
    exact absurd cut (not_or.mpr ⟨isError, whole⟩)

theorem charsStable (json : Bytes) (b : JsonString) :
    CharsStable mem quote json b := by
  induction size : json.length using Nat.strong_induction_on generalizing json b with
  | _ size ih =>
      subst size
      cases json with
      | nil => exact .of_cut rfl (Or.inl rfl)
      | cons c rest =>
          cases reserved : b.reserve mem (b.str.length = b.sz) with
          | error status =>
              apply CharsStable.of_error
              intro more
              rw [List.cons_append, parseChars, reserved]
              rfl
          | ok b' =>
              have start : ∀ text, parseChars mem quote (c :: text) b = _ := fun text => by
                rw [parseChars, reserved]
              simp only [bind, Except.bind] at start
              have shorter : ∀ {tail : Bytes} (b'' : JsonString),
                  tail.length < (c :: rest).length → CharsStable mem quote tail b'' :=
                fun b'' less => ih _ less _ b'' rfl
              by_cases ends : c = quote
              · have found := fun text => (start text).trans (if_pos ends)
                constructor
                · intro str rest' more done
                  obtain ⟨rfl, rfl⟩ := Prod.mk.inj (Except.ok.inj ((found rest).symm.trans done))
                  refine ⟨found (rest ++ more), ?_, by simp⟩
                  rw [JsonLex.run_cons, JsonLex.step, if_pos ends]
                · intro status more failed _ _
                  rw [found] at failed
                  cases failed
              simp only [ends, if_false] at start
              by_cases plain : c = backslash
              · subst plain
                have opened : ∀ text, (JsonLex.string quote).run (backslash :: text) =
                    (JsonLex.escape quote).run text := by
                  intro text
                  rw [JsonLex.run_cons, JsonLex.step, if_neg ends, if_pos rfl]
                simp only [ne_eq, not_true_eq_false, if_false] at start
                rcases rest with _ | ⟨e, rest⟩
                · exact .of_cut (start []) (Or.inl rfl)
                have behind := fun text => start (e :: text)
                by_cases byte : e = 120
                · subst byte
                  simp only [if_true] at behind
                  have lex : ∀ text, (JsonLex.string quote).run (backslash :: 120 :: text) =
                      (JsonLex.hex quote 2).run text := fun text => opened (120 :: text)
                  rcases rest with _ | ⟨h₁, _ | ⟨h₂, rest⟩⟩
                  · exact .of_cut (behind []) (Or.inr (lex _ ▸ cut_hex (by simp)))
                  · exact .of_cut (behind [h₁]) (Or.inr (lex _ ▸ cut_hex (by simp)))
                  · have digits := fun text => behind (h₁ :: h₂ :: text)
                    simp only at digits
                    cases first : hexValue h₁ with
                    | none =>
                        simp only [first] at digits
                        exact .of_error fun more => digits (rest ++ more)
                    | some v₁ =>
                        cases second : hexValue h₂ with
                        | none =>
                            simp only [first, second] at digits
                            exact .of_error fun more => digits (rest ++ more)
                        | some v₂ =>
                            simp only [first, second] at digits
                            exact .front [backslash, 120, h₁, h₂]
                              (fun more => digits (rest ++ more)) (lex _ ▸ run_hex rfl)
                              (shorter _ (by simp; omega))
                · simp only [byte, if_false] at behind
                  by_cases uchar : e = 117
                  · subst uchar
                    simp only [if_true] at behind
                    have lex : ∀ text, (JsonLex.string quote).run (backslash :: 117 :: text) =
                        (JsonLex.hex quote 4).run text := fun text => opened (117 :: text)
                    rcases rest with _ | ⟨h₁, _ | ⟨h₂, _ | ⟨h₃, _ | ⟨h₄, rest⟩⟩⟩⟩
                    · exact .of_cut (behind []) (Or.inr (lex _ ▸ cut_hex (by simp)))
                    · exact .of_cut (behind [h₁]) (Or.inr (lex _ ▸ cut_hex (by simp)))
                    · exact .of_cut (behind [h₁, h₂]) (Or.inr (lex _ ▸ cut_hex (by simp)))
                    · exact .of_cut (behind [h₁, h₂, h₃]) (Or.inr (lex _ ▸ cut_hex (by simp)))
                    · have digits := fun text => behind (h₁ :: h₂ :: h₃ :: h₄ :: text)
                      simp only at digits
                      by_cases all : ∃ v₁ v₂ v₃ v₄, hexValue h₁ = some v₁ ∧
                          hexValue h₂ = some v₂ ∧ hexValue h₃ = some v₃ ∧ hexValue h₄ = some v₄
                      · obtain ⟨v₁, v₂, v₃, v₄, first, second, third, fourth⟩ := all
                        simp only [first, second, third, fourth] at digits
                        cases put : b'.putUchar mem
                            (v₁ <<< 12 ||| v₂ <<< 8 ||| v₃ <<< 4 ||| v₄) with
                        | error status =>
                            simp only [put] at digits
                            exact .of_error fun more => digits (rest ++ more)
                        | ok b'' =>
                            simp only [put] at digits
                            exact .front [backslash, 117, h₁, h₂, h₃, h₄]
                              (fun more => digits (rest ++ more)) (lex _ ▸ run_hex rfl)
                              (shorter _ (by simp; omega))
                      · have bad : ∀ text, parseChars mem quote
                            (backslash :: 117 :: h₁ :: h₂ :: h₃ :: h₄ :: text) b =
                              .error .badJson := by
                          intro text
                          rw [digits]
                          split
                          · rename_i v₁ v₂ v₃ v₄ first second third fourth
                            exact absurd ⟨v₁, v₂, v₃, v₄, first, second, third, fourth⟩ all
                          · rfl
                        exact .of_error fun more => bad (rest ++ more)
                  · simp only [uchar, if_false] at behind
                    have lex : (JsonLex.string quote).run [backslash, e] = .string quote := by
                      rw [opened]
                      simp [JsonLex.run, JsonLex.step, byte, uchar]
                    exact .front [backslash, e] (fun more => behind (rest ++ more)) lex
                      (shorter _ (by simp))
              · simp only [plain, ne_eq, not_false_eq_true, if_true] at start
                have lex : (JsonLex.string quote).run [c] = .string quote := by
                  simp [JsonLex.run, JsonLex.step, ends, plain]
                exact .front [c] (fun more => start (rest ++ more)) lex
                  (shorter _ (by simp))

end Chars

section Values

variable {mem : JsonMem}

theorem eatWhite_append {json : Bytes} (nonempty : eatWhite json ≠ []) (more : Bytes) :
    eatWhite (json ++ more) = eatWhite json ++ more := by
  unfold eatWhite at nonempty ⊢
  rw [List.dropWhile_append, if_neg (by simpa [List.isEmpty_iff] using nonempty)]

theorem length_eatWhite (json : Bytes) : (eatWhite json).length ≤ json.length :=
  (List.dropWhile_sublist _).length_le

/-- A text that is a number to its end. -/
def IsNumber (json : Bytes) : Prop :=
  ∃ c digits, json = c :: digits ∧ (IsDigit c ∨ c = minus) ∧ ∀ d ∈ digits, IsDigit d

/-- Digits that end inside a text do not change when more text follows. -/
theorem digits_append (digits more : Bytes) :
    (digits.dropWhile (IsDigit ·) = [] ∧ ∀ d ∈ digits, IsDigit d) ∨
      ((digits ++ more).takeWhile (IsDigit ·) = digits.takeWhile (IsDigit ·) ∧
        (digits ++ more).dropWhile (IsDigit ·) = digits.dropWhile (IsDigit ·) ++ more) := by
  by_cases ends : digits.dropWhile (IsDigit ·) = []
  · apply Or.inl
    refine ⟨ends, fun d member => ?_⟩
    have all := List.dropWhile_eq_nil_iff.mp ends d member
    exact of_decide_eq_true all
  · apply Or.inr
    have split := List.takeWhile_append_dropWhile (p := (IsDigit ·)) (l := digits)
    have shorter : ¬(digits.takeWhile (IsDigit ·)).length = digits.length := by
      intro same
      have length := congrArg List.length split
      rw [List.length_append] at length
      exact ends (List.length_eq_zero_iff.mp (by omega))
    rw [List.takeWhile_append, List.dropWhile_append, if_neg shorter,
      if_neg (by simpa [List.isEmpty_iff] using ends)]
    exact ⟨rfl, rfl⟩

theorem run_digits (digits : Bytes) :
    JsonLex.plain.run digits = JsonLex.plain.run (digits.dropWhile (IsDigit ·)) := by
  have plain : ∀ c, IsDigit c → c ∉ [singleQuote, backtick, doubleQuote, 116, 102, 110] := by
    intro c digit member
    simp only [List.mem_cons, List.not_mem_nil, or_false] at member
    rcases member with rfl | rfl | rfl | rfl | rfl | rfl <;> exact absurd digit (by decide)
  have split := List.takeWhile_append_dropWhile (p := (IsDigit ·)) (l := digits)
  nth_rewrite 1 [← split]
  apply JsonLex.run_plain
  intro c member
  have digit := List.all_eq_true.mp (List.all_takeWhile (p := (IsDigit ·)) (l := digits)) c member
  exact plain c (of_decide_eq_true digit)

/-- A number takes its digits, and ends between the tokens. -/
theorem parseNumber_append {c : UInt8} (start : IsDigit c ∨ c = minus) (tail more : Bytes) :
    ((parseNumber (c :: tail)).2 = [] ∧ IsNumber (c :: tail) ∨
      parseNumber (c :: (tail ++ more)) =
        ((parseNumber (c :: tail)).1, (parseNumber (c :: tail)).2 ++ more)) ∧
    JsonLex.plain.run (c :: tail) = JsonLex.plain.run (parseNumber (c :: tail)).2 ∧
      (parseNumber (c :: tail)).2.length < (c :: tail).length := by
  by_cases negative : c = minus
  · subst negative
    have number : ∀ text, parseNumber (minus :: text) =
        (.integer (toInt64 (-toInt64 ((text.takeWhile (IsDigit ·)).foldl
          (fun n c => (n * 10 + digitValue c) % 2 ^ 64) 0 : Nat))),
          text.dropWhile (IsDigit ·)) := by
      intro text
      have head : ((minus :: text).head? == some minus) = true := by simp
      simp only [parseNumber, head, if_true, List.tail_cons]
    rw [number, number]
    refine ⟨?_, ?_, ?_⟩
    · rcases digits_append tail more with ⟨ends, all⟩ | ⟨taken, dropped⟩
      · exact Or.inl ⟨ends, minus, tail, rfl, start, all⟩
      · exact Or.inr (by rw [taken, dropped])
    · rw [JsonLex.run_cons, show JsonLex.plain.step minus = .plain by decide]
      exact run_digits tail
    · exact Nat.lt_succ_of_le (List.dropWhile_sublist _).length_le
  · have digit := start.resolve_right negative
    have number : ∀ text, parseNumber (c :: text) =
        (.integer (toInt64 (((c :: text).takeWhile (IsDigit ·)).foldl
          (fun n c => (n * 10 + digitValue c) % 2 ^ 64) 0 : Nat)),
          (c :: text).dropWhile (IsDigit ·)) := by
      intro text
      have head : ((c :: text).head? == some minus) = false := by simp [negative]
      simp only [parseNumber, head, Bool.false_eq_true, if_false]
    rw [number, number]
    refine ⟨?_, run_digits _, ?_⟩
    · rcases digits_append (c :: tail) more with ⟨ends, all⟩ | ⟨taken, dropped⟩
      · exact Or.inl ⟨ends, c, tail, rfl, start, fun d member =>
          all d (List.mem_cons_of_mem _ member)⟩
      · rw [List.cons_append] at taken dropped
        exact Or.inr (by rw [taken, dropped])
    · rw [List.dropWhile_cons_of_pos (by simpa using digit)]
      exact Nat.lt_succ_of_le (List.dropWhile_sublist _).length_le

/-- A text that becomes a word with more text is cut inside it. -/
theorem cut_word {word json more : Bytes} (known : word ∈ jsonWords) (nonempty : json ≠ [])
    (longer : word.isPrefixOf (json ++ more) = true) (short : ¬word.isPrefixOf json = true) :
    (JsonLex.plain.run json).Cut := by
  rw [List.isPrefixOf_iff_prefix] at longer short
  rcases List.prefix_or_prefix_of_prefix longer (List.prefix_append json more) with inside | front
  · exact absurd inside short
  · have part := List.prefix_iff_eq_take.mp front
    have less : json.length < word.length := by
      apply Nat.lt_of_le_of_ne front.length_le
      intro same
      exact short (front.eq_of_length same ▸ List.prefix_rfl)
    have cut := (JsonLex.run_word word known).2 json.length less
      (List.length_pos_iff.mpr nonempty)
    rw [← part] at cut
    exact cut

/-- A word ends between the tokens; a text that is no word stays none, if it is not cut inside
one. -/
theorem parseWord_append {json : Bytes} (nonempty : json ≠ []) (more : Bytes) :
    (∀ value rest, parseWord json = .ok (value, rest) →
      parseWord (json ++ more) = .ok (value, rest ++ more) ∧
        JsonLex.plain.run json = JsonLex.plain.run rest ∧ rest.length < json.length) ∧
    ∀ status, parseWord json = .error status → ¬(JsonLex.plain.run json).Cut →
      parseWord (json ++ more) = .error status := by
  have words : jsonTrue ∈ jsonWords ∧ jsonFalse ∈ jsonWords ∧ jsonNull ∈ jsonWords ∧
      jsonNil ∈ jsonWords := by decide
  have ends : ∀ word ∈ jsonWords, ∀ rest, JsonLex.plain.run (word ++ rest) =
      JsonLex.plain.run rest := by
    intro word known rest
    rw [JsonLex.run_append, (JsonLex.run_word word known).1]
  have shorter : ∀ word ∈ jsonWords, ∀ rest : Bytes, rest.length < (word ++ rest).length := by
    intro word known rest
    have positive : ∀ word ∈ jsonWords, 0 < word.length := by decide
    have some := positive word known
    rw [List.length_append]
    omega
  constructor
  · intro value rest done
    unfold parseWord at done
    split at done
    · rename_i prefixed
      obtain ⟨tail, rfl⟩ := List.isPrefixOf_iff_prefix.mp prefixed
      obtain ⟨rfl, rfl⟩ := Prod.mk.inj (Except.ok.inj done)
      exact ⟨rfl, ends _ words.1 _, shorter _ words.1 _⟩
    · split at done
      · rename_i prefixed
        obtain ⟨tail, rfl⟩ := List.isPrefixOf_iff_prefix.mp prefixed
        obtain ⟨rfl, rfl⟩ := Prod.mk.inj (Except.ok.inj done)
        exact ⟨rfl, ends _ words.2.1 _, shorter _ words.2.1 _⟩
      · split at done
        · rename_i prefixed
          obtain ⟨tail, rfl⟩ := List.isPrefixOf_iff_prefix.mp prefixed
          obtain ⟨rfl, rfl⟩ := Prod.mk.inj (Except.ok.inj done)
          exact ⟨rfl, ends _ words.2.2.1 _, shorter _ words.2.2.1 _⟩
        · split at done
          · rename_i prefixed
            obtain ⟨tail, rfl⟩ := List.isPrefixOf_iff_prefix.mp prefixed
            obtain ⟨rfl, rfl⟩ := Prod.mk.inj (Except.ok.inj done)
            exact ⟨rfl, ends _ words.2.2.2 _, shorter _ words.2.2.2 _⟩
          · cases done
  · intro status failed whole
    have none : ∀ word ∈ jsonWords, ¬word.isPrefixOf json = true →
        ¬word.isPrefixOf (json ++ more) = true := fun word known short longer =>
      whole (cut_word known nonempty longer short)
    unfold parseWord at failed
    split at failed
    · cases failed
    · rename_i first
      split at failed
      · cases failed
      · rename_i second
        split at failed
        · cases failed
        · rename_i third
          split at failed
          · cases failed
          · rename_i fourth
            unfold parseWord
            rw [if_neg (none _ words.1 first), if_neg (none _ words.2.1 second),
              if_neg (none _ words.2.2.1 third), if_neg (none _ words.2.2.2 fourth)]
            exact failed

/-- A value that is read ends between the tokens, and more text only changes a number that it
goes on; more text does not change an error, if the text is not cut. -/
structure JsonStable (mem : JsonMem) (fuel : Nat) (json : Bytes) : Prop where
  item : ∀ {value rest fuel'} more, fuel ≤ fuel' → parseJson mem fuel json = .ok (value, rest) →
    (rest = [] ∧ IsNumber (eatWhite json) ∧
        (∃ result, parseJson mem fuel' (json ++ more) = .ok result) ∨
      parseJson mem fuel' (json ++ more) = .ok (value, rest ++ more)) ∧
    JsonLex.plain.run json = JsonLex.plain.run rest ∧ rest.length < json.length
  fail : ∀ {status fuel'} more, fuel ≤ fuel' → parseJson mem fuel json = .error status →
    status ≠ .partialValue → ¬(JsonLex.plain.run json).Cut →
      parseJson mem fuel' (json ++ more) = .error status

/-- The same holds of the elements of an array, which end with its bracket. -/
structure ValuesStable (mem : JsonMem) (fuel : Nat) (json : Bytes) : Prop where
  item : ∀ {blocks elems value rest fuel'} more, fuel ≤ fuel' →
    parseValues mem fuel blocks elems json = .ok (value, rest) →
    parseValues mem fuel' blocks elems (json ++ more) = .ok (value, rest ++ more) ∧
      JsonLex.plain.run json = JsonLex.plain.run rest ∧ rest.length < json.length
  fail : ∀ {blocks elems status fuel'} more, fuel ≤ fuel' →
    parseValues mem fuel blocks elems json = .error status →
    status ≠ .partialValue → ¬(JsonLex.plain.run json).Cut →
      parseValues mem fuel' blocks elems (json ++ more) = .error status

theorem parseString_append (quote : UInt8) (json more : Bytes) :
    (∀ value rest, parseString mem quote json = .ok (value, rest) →
      parseString mem quote (json ++ more) = .ok (value, rest ++ more) ∧
        (JsonLex.string quote).run json = JsonLex.plain.run rest ∧ rest.length < json.length) ∧
    ∀ status, parseString mem quote json = .error status → status ≠ .partialValue →
      ¬((JsonLex.string quote).run json).Cut →
        parseString mem quote (json ++ more) = .error status := by
  unfold parseString
  by_cases granted : mem.wrk 8 = true
  · rw [if_pos granted, if_pos granted]
    have stable : CharsStable mem quote json ⟨[], 8⟩ := charsStable json ⟨[], 8⟩
    cases chars : parseChars mem quote json ⟨[], 8⟩ with
    | error status =>
        refine ⟨nofun, fun status' failed isError whole => ?_⟩
        obtain rfl := Except.error.inj failed
        rw [stable.fail more chars isError whole]
        rfl
    | ok pair =>
        obtain ⟨str, tail⟩ := pair
        obtain ⟨longer, lex, shorter⟩ := stable.item more chars
        refine ⟨fun value rest done => ?_, nofun⟩
        obtain ⟨rfl, rfl⟩ := Prod.mk.inj (Except.ok.inj done)
        refine ⟨?_, lex, shorter⟩
        rw [longer]
        rfl
  · rw [if_neg granted, if_neg granted]
    exact ⟨nofun, fun status failed _ _ => failed⟩

/-- A value is as stable as what the reader of its first byte makes of the bytes behind it. -/
theorem jsonStable_of_read {fuel : Nat} {json tail : Bytes} {c : UInt8}
    (start : eatWhite json = c :: tail) (read : Nat → Bytes → Except RedisMsgStatus (RedisMsg × Bytes))
    (same : ∀ fuel text behind, eatWhite text = c :: behind →
      parseJson mem (fuel + 1) text = read fuel behind)
    (item : ∀ value rest fuel' more, fuel ≤ fuel' → read fuel tail = .ok (value, rest) →
      (rest = [] ∧ IsNumber (c :: tail) ∧ (∃ result, read fuel' (tail ++ more) = .ok result) ∨
        read fuel' (tail ++ more) = .ok (value, rest ++ more)) ∧
      JsonLex.plain.run (c :: tail) = JsonLex.plain.run rest ∧ rest.length < (c :: tail).length)
    (fail : ∀ status fuel' more, fuel ≤ fuel' → read fuel tail = .error status →
      status ≠ .partialValue → ¬(JsonLex.plain.run (c :: tail)).Cut →
        read fuel' (tail ++ more) = .error status) : JsonStable mem (fuel + 1) json := by
  have eaten : ∀ more, eatWhite (json ++ more) = c :: (tail ++ more) := by
    intro more
    rw [eatWhite_append (by rw [start]; exact nofun), start]
    rfl
  have size := length_eatWhite json
  rw [start] at size
  have lex := JsonLex.run_eatWhite json
  rw [start] at lex
  constructor
  · intro value rest fuel' more enough done
    obtain ⟨fuel', rfl⟩ : ∃ less, fuel' = less + 1 := ⟨fuel' - 1, by omega⟩
    rw [same fuel json tail start] at done
    rw [same fuel' _ _ (eaten more), start, ← lex]
    obtain ⟨answer, ends, shorter⟩ := item value rest fuel' more (by omega) done
    exact ⟨answer, ends, by omega⟩
  · intro status fuel' more enough failed isError whole
    obtain ⟨fuel', rfl⟩ : ∃ less, fuel' = less + 1 := ⟨fuel' - 1, by omega⟩
    rw [same fuel json tail start] at failed
    rw [same fuel' _ _ (eaten more)]
    rw [← lex] at whole
    exact fail status fuel' more (by omega) failed isError whole

/-- The elements behind a bracket are as stable as without the white space in front of them. -/
theorem values_eatWhite {fuel : Nat} {tail : Bytes} (values : ValuesStable mem fuel (eatWhite tail))
    (blocks : JsonBlocks) (elems : List RedisMsg) :
    (∀ value rest fuel' more, fuel ≤ fuel' →
      parseValues mem fuel blocks elems (eatWhite tail) = .ok (value, rest) →
      parseValues mem fuel' blocks elems (eatWhite (tail ++ more)) = .ok (value, rest ++ more) ∧
        JsonLex.plain.run tail = JsonLex.plain.run rest ∧ rest.length < tail.length) ∧
    ∀ status fuel' more, fuel ≤ fuel' →
      parseValues mem fuel blocks elems (eatWhite tail) = .error status →
      status ≠ .partialValue → ¬(JsonLex.plain.run tail).Cut →
        parseValues mem fuel' blocks elems (eatWhite (tail ++ more)) = .error status := by
  have size := length_eatWhite tail
  have lex := JsonLex.run_eatWhite tail
  by_cases empty : eatWhite tail = []
  · have waits : parseValues mem fuel blocks elems [] = .error .partialValue := by
      cases fuel with
      | zero => rfl
      | succ fuel =>
          rw [parseValues, if_neg (by simp)]
          cases fuel <;> rfl
    rw [empty, waits]
    exact ⟨fun _ _ _ _ _ done => (by cases done),
      fun status _ _ _ failed isError _ => absurd (Except.error.inj failed).symm isError⟩
  · constructor
    · intro value rest fuel' more enough done
      obtain ⟨longer, ends, shorter⟩ := values.item more enough done
      rw [eatWhite_append empty]
      exact ⟨longer, lex ▸ ends, by omega⟩
    · intro status fuel' more enough failed isError whole
      rw [eatWhite_append empty]
      rw [← lex] at whole
      exact values.fail more enough failed isError whole

/-- A value is stable where the elements behind its bracket are. -/
theorem jsonStable_succ {fuel : Nat} (values : ∀ json, ValuesStable mem fuel json)
    (json : Bytes) : JsonStable mem (fuel + 1) json := by
  cases start : eatWhite json with
  | nil =>
      have waits : parseJson mem (fuel + 1) json = .error .partialValue := by
        rw [parseJson, start]
      constructor
      · intro value rest fuel' more _ done
        rw [waits] at done
        cases done
      · intro status fuel' more _ failed isError
        rw [waits] at failed
        exact absurd (Except.error.inj failed).symm isError
  | cons c tail =>
      by_cases array : c = openBracket
      · subst array
        have plain : JsonLex.plain.run (openBracket :: tail) = JsonLex.plain.run tail := rfl
        obtain ⟨item, fail⟩ := values_eatWhite (values (eatWhite tail)) ⟨0, 0, 0⟩ []
        apply jsonStable_of_read start
          (fun fuel behind => parseValues mem fuel ⟨0, 0, 0⟩ [] (eatWhite behind))
        · intro fuel text behind starts
          rw [parseJson, starts]
          rfl
        · intro value rest fuel' more enough done
          obtain ⟨longer, ends, shorter⟩ := item value rest fuel' more enough done
          exact ⟨Or.inr longer, plain.trans ends, Nat.lt_succ_of_lt shorter⟩
        · intro status fuel' more enough failed isError whole
          exact fail status fuel' more enough failed isError whole
      · by_cases quoted : c = singleQuote ∨ c = backtick ∨ c = doubleQuote
        · have lex : JsonLex.plain.run (c :: tail) = (JsonLex.string c).run tail := by
            rw [JsonLex.run_cons, JsonLex.step, if_pos quoted]
          apply jsonStable_of_read start (fun _ behind => parseString mem c behind)
          · intro fuel text behind starts
            rw [parseJson, starts]
            simp only
            rw [if_neg array, if_pos quoted]
          · intro value rest fuel' more _ done
            obtain ⟨longer, ends, shorter⟩ := (parseString_append c tail more).1 value rest done
            exact ⟨Or.inr longer, lex.trans ends, Nat.lt_succ_of_lt shorter⟩
          · intro status fuel' more _ failed isError whole
            rw [lex] at whole
            exact (parseString_append c tail more).2 status failed isError whole
        · by_cases number : IsDigit c ∨ c = minus
          · apply jsonStable_of_read start (fun _ behind => .ok (parseNumber (c :: behind)))
            · intro fuel text behind starts
              rw [parseJson, starts]
              simp only
              rw [if_neg array, if_neg quoted, if_pos number]
            · intro value rest fuel' more _ done
              obtain ⟨answer, ends, shorter⟩ := parseNumber_append number tail more
              rw [Except.ok.inj done] at answer ends shorter
              refine ⟨?_, ends, shorter⟩
              rcases answer with ⟨empty, isNumber⟩ | longer
              · exact Or.inl ⟨empty, isNumber, _, rfl⟩
              · exact Or.inr (congrArg Except.ok longer)
            · intro status fuel' more _ failed
              cases failed
          · apply jsonStable_of_read start (fun _ behind => parseWord (c :: behind))
            · intro fuel text behind starts
              rw [parseJson, starts]
              simp only
              rw [if_neg array, if_neg quoted, if_neg number]
            · intro value rest fuel' more _ done
              obtain ⟨longer, ends, shorter⟩ :=
                (parseWord_append (List.cons_ne_nil c tail) more).1 value rest done
              exact ⟨Or.inr longer, ends, shorter⟩
            · intro status fuel' more _ failed _ whole
              exact (parseWord_append (List.cons_ne_nil c tail) more).2 status failed whole

/-- The end of an array is its bracket. -/
theorem finish_append (b : JsonBlocks) (elems : List RedisMsg) (json more : Bytes) :
    (∀ value rest, b.finish mem elems json = .ok (value, rest) →
      b.finish mem elems (json ++ more) = .ok (value, rest ++ more) ∧
        JsonLex.plain.run json = JsonLex.plain.run rest ∧ rest.length < json.length) ∧
    ∀ status, b.finish mem elems json = .error status → status ≠ .partialValue →
      b.finish mem elems (json ++ more) = .error status := by
  cases json with
  | nil => exact ⟨nofun, fun status failed isError => absurd (Except.error.inj failed).symm isError⟩
  | cons c tail =>
      rw [List.cons_append]
      unfold JsonBlocks.finish
      simp only
      by_cases close : c = closeBracket
      · rw [if_neg (not_not.mpr close), if_neg (not_not.mpr close)]
        split
        · exact ⟨nofun, fun status failed _ => failed⟩
        · refine ⟨fun value rest done => ?_, nofun⟩
          obtain ⟨rfl, rfl⟩ := Prod.mk.inj (Except.ok.inj done)
          subst close
          exact ⟨rfl, rfl, Nat.lt_succ_self _⟩
      · rw [if_pos close, if_pos close]
        exact ⟨nofun, fun status failed _ => failed⟩

/-- The elements are stable where each value is. -/
theorem valuesStable_succ {fuel : Nat} (value : ∀ json, JsonStable mem fuel json)
    (values : ∀ json, ValuesStable mem fuel json) (json : Bytes) :
    ValuesStable mem (fuel + 1) json := by
  suffices stable : ∀ blocks elems fuel' more, fuel ≤ fuel' →
      (∀ v rest, parseValues mem (fuel + 1) blocks elems json = .ok (v, rest) →
        parseValues mem (fuel' + 1) blocks elems (json ++ more) = .ok (v, rest ++ more) ∧
          JsonLex.plain.run json = JsonLex.plain.run rest ∧ rest.length < json.length) ∧
      ∀ status, parseValues mem (fuel + 1) blocks elems json = .error status →
        status ≠ .partialValue → ¬(JsonLex.plain.run json).Cut →
          parseValues mem (fuel' + 1) blocks elems (json ++ more) = .error status by
    constructor
    · intro blocks elems v rest fuel' more enough done
      obtain ⟨fuel', rfl⟩ : ∃ less, fuel' = less + 1 := ⟨fuel' - 1, by omega⟩
      exact (stable blocks elems fuel' more (by omega)).1 v rest done
    · intro blocks elems status fuel' more enough failed isError whole
      obtain ⟨fuel', rfl⟩ : ∃ less, fuel' = less + 1 := ⟨fuel' - 1, by omega⟩
      exact (stable blocks elems fuel' more (by omega)).2 status failed isError whole
  intro blocks elems fuel' more enough
  rw [parseValues, parseValues]
  by_cases nonempty : json = []
  · subst nonempty
    have waits : parseJson mem fuel [] = .error .partialValue := by
      cases fuel <;> rfl
    rw [if_neg (by simp), waits]
    exact ⟨fun _ _ done => (by cases done),
      fun status failed isError _ => absurd (Except.error.inj failed).symm isError⟩
  have head : (json ++ more).head? = json.head? := by
    cases json with
    | nil => exact absurd rfl nonempty
    | cons c tail => rfl
  rw [head]
  by_cases close : json.head? = some closeBracket
  · rw [if_pos close, if_pos close]
    obtain ⟨item, fail⟩ := finish_append blocks elems json more
    exact ⟨item, fun status failed isError _ => fail status failed isError⟩
  rw [if_neg close, if_neg close]
  simp only [bind, Except.bind]
  cases parsed : parseJson mem fuel json with
  | error status =>
      refine ⟨fun _ _ done => (by cases done), fun status' failed isError whole => ?_⟩
      obtain rfl := Except.error.inj failed
      rw [(value json).fail more enough parsed isError whole]
  | ok pair =>
      obtain ⟨v, behind⟩ := pair
      obtain ⟨answer, lex, shorter⟩ := (value json).item more enough parsed
      simp only
      cases added : blocks.add mem with
      | error status =>
          have parses : ∃ result, parseJson mem fuel' (json ++ more) = .ok result :=
            answer.elim (fun number => number.2.2) fun same => ⟨_, same⟩
          obtain ⟨result, longer⟩ := parses
          rw [longer]
          exact ⟨fun _ _ done => (by cases done), fun status failed _ _ => failed⟩
      | ok blocks' =>
          simp only
          have size := length_eatWhite behind
          rw [← JsonLex.run_eatWhite behind] at lex
          rw [lex]
          by_cases empty : eatWhite behind = []
          · rw [empty, if_neg (by simp)]
            exact ⟨fun _ _ done => (by cases done), fun status failed isError _ =>
              absurd (Except.error.inj failed).symm isError⟩
          have inside : behind ≠ [] := by
            rintro rfl
            exact empty rfl
          have longer := answer.resolve_left fun number => inside number.1
          rw [longer]
          simp only
          rw [eatWhite_append empty]
          obtain ⟨c, tail, split⟩ := List.exists_cons_of_ne_nil empty
          rw [split] at size ⊢
          rw [List.length_cons] at size
          rw [List.cons_append]
          have heads : ∀ text : Bytes, (c :: text).head? = some c := fun _ => rfl
          by_cases another : c = comma
          · subst another
            rw [if_pos (heads tail), if_pos (heads (tail ++ more)), List.tail_cons, List.tail_cons]
            obtain ⟨item, fail⟩ := values_eatWhite (values (eatWhite tail))
              blocks' (elems ++ [v])
            refine ⟨fun v' rest done => ?_, fun status failed isError whole => ?_⟩
            · obtain ⟨same, ends, less⟩ := item v' rest fuel' more enough done
              exact ⟨same, ends, by omega⟩
            · exact fail status fuel' more enough failed isError whole
          · have other : ∀ text : Bytes, ¬(c :: text).head? = some comma :=
              fun text same => another (Option.some.inj same)
            rw [if_neg (other tail), if_neg (other (tail ++ more))]
            obtain ⟨item, fail⟩ := finish_append blocks' (elems ++ [v]) (c :: tail) more
            refine ⟨fun v' rest done => ?_, fun status failed isError _ => ?_⟩
            · obtain ⟨same, ends, less⟩ := item v' rest done
              rw [List.length_cons] at less
              exact ⟨same, ends, by omega⟩
            · exact fail status failed isError

theorem stable_all (fuel : Nat) :
    (∀ json, JsonStable mem fuel json) ∧ ∀ json, ValuesStable mem fuel json := by
  induction fuel with
  | zero =>
      constructor
      · intro json
        constructor
        · intro value rest fuel' more _ done
          cases done
        · intro status fuel' more _ failed isError
          exact absurd (Except.error.inj failed).symm isError
      · intro json
        constructor
        · intro blocks elems value rest fuel' more _ done
          cases done
        · intro blocks elems status fuel' more _ failed isError
          exact absurd (Except.error.inj failed).symm isError
  | succ fuel ih => exact ⟨jsonStable_succ ih.2, valuesStable_succ ih.1 ih.2⟩

/-- A value that is read from a buffer stays when the buffer grows, unless it is a number that goes
on; an error stays, unless the buffer is cut inside an escape or a word. -/
theorem unpackJson_append (json more : Bytes) :
    (∀ m size, unpackJson mem json = .ok (m, size) → 0 < size ∧ size ≤ json.length ∧
      (size = json.length ∧ IsNumber (eatWhite json) ∨
        unpackJson mem (json ++ more) = .ok (m, size))) ∧
    ∀ status, unpackJson mem json = .error status → status ≠ .partialValue →
      ¬(JsonLex.plain.run json).Cut → unpackJson mem (json ++ more) = .error status := by
  have stable : JsonStable mem (2 * json.length + 1) json := (stable_all _).1 json
  have enough : 2 * json.length + 1 ≤ 2 * (json ++ more).length + 1 := by
    rw [List.length_append]
    omega
  unfold unpackJson
  cases parsed : parseJson mem (2 * json.length + 1) json with
  | error status =>
      refine ⟨nofun, fun status' failed isError whole => ?_⟩
      obtain rfl := Except.error.inj failed
      rw [stable.fail more enough parsed isError whole]
      rfl
  | ok pair =>
      obtain ⟨value, rest⟩ := pair
      obtain ⟨answer, -, shorter⟩ := stable.item more enough parsed
      refine ⟨fun m size done => ?_, nofun⟩
      obtain ⟨rfl, rfl⟩ := Prod.mk.inj (Except.ok.inj done)
      refine ⟨by omega, by omega, ?_⟩
      rcases answer with ⟨rfl, number, -⟩ | longer
      · exact Or.inl ⟨by simp, number⟩
      · rw [longer]
        refine Or.inr (congrArg (fun size => Except.ok (value, size)) ?_)
        show (json ++ more).length - (rest ++ more).length = json.length - rest.length
        simp only [List.length_append]
        omega

end Values

end Raids
