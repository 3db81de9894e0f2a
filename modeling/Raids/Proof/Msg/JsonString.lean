import Raids.Proof.Msg.Json

namespace Raids
open BigEndian JsonString
open Decimal (digit)

variable {mem : JsonMem} {quote : UInt8} {b : JsonString}

/-- What a string of the writer becomes in the reader: it is read token by token to its end, or
the reader stops at a quote in it, or it takes the closing quote for an escaped one. -/
inductive Outcome (quote : UInt8) (rest : Bytes) (str before v rest' : Bytes) : Prop where
  | whole {out : Bytes} (tokens : Tokens quote str out) (value : v = before ++ out)
      (all : rest' = rest)
  | early {p out tail : Bytes} (tokens : Tokens quote p out) (split : str = p ++ quote :: tail)
      (value : v = before ++ out)
  | escaped {p out tail : Bytes} (tokens : Tokens quote p out)
      (split : str = p ++ backslash :: quote :: tail) (value : v = before ++ out ++ [backslash])
  | late {p out : Bytes} (tokens : Tokens quote p out) (split : str = p ++ [backslash])
      (value : before ++ out ++ [quote] <+: v)

namespace Outcome

variable {rest str before v rest' consumed out : Bytes}

theorem cons (token : Token quote consumed out)
    (later : Outcome quote rest str (before ++ out) v rest') :
    Outcome quote rest (consumed ++ str) before v rest' := by
  cases later with
  | whole tokens value all => exact .whole (.cons token tokens) (by simp [value]) all
  | early tokens split value =>
      exact .early (.cons token tokens) (by rw [split, List.append_assoc]) (by simp [value])
  | escaped tokens split value =>
      exact .escaped (.cons token tokens) (by rw [split, List.append_assoc]) (by simp [value])
  | late tokens split value =>
      exact .late (.cons token tokens) (by simp [split]) (by simpa using value)

/-- Only a string without misreads is read as itself, and then to its end. -/
theorem readsBack (isQuote : IsQuote quote) (outcome : Outcome quote rest str [] str rest') :
    ReadsBack quote str ∧ rest' = rest := by
  have marked : mark quote = 1 ∧ mark backslash = 2 :=
    ⟨isQuote.facts.2.2.2.2.2.2.2, weight_marks.2.2.2.1⟩
  have other := isQuote.facts.1.symm
  cases outcome with
  | whole tokens value all =>
      rw [List.nil_append] at value
      exact ⟨tokens.readsBack (by rw [← value]), all⟩
  | early tokens split value =>
      have marks := tokens.mark_le
      rw [List.nil_append] at value
      rw [← value, split, total_append, total_cons, marked.1] at marks
      omega
  | escaped tokens split value =>
      have marks := tokens.mark_le
      have length := congrArg (total mark) (split.symm.trans value)
      simp only [total_append, total_cons, total_nil, List.nil_append, marked.1,
        marked.2] at length
      omega
  | late tokens split value =>
      have quotes := tokens.count_le
      have inside := value.sublist.count_le quote
      rw [split] at inside
      simp only [List.nil_append, List.count_append, List.count_singleton_self,
        List.count_singleton, beq_iff_eq, other, if_false] at inside
      omega

end Outcome

/-- A computation that succeeds has succeeded before. -/
theorem bind_eq_ok {ε α β : Type} {x : Except ε α} {f : α → Except ε β} {c : β} :
    (x >>= f) = .ok c ↔ ∃ a, x = .ok a ∧ f a = .ok c := by
  cases x with
  | error e =>
      refine ⟨fun bound => ?_, fun ⟨a, same, _⟩ => ?_⟩
      · cases bound
      · cases same
  | ok a => exact ⟨fun bound => ⟨a, rfl, bound⟩, fun ⟨_, same, bound⟩ => by cases same; exact bound⟩

theorem reserve_extends {full : Bool} {b b' : JsonString} (reserved : b.reserve mem full = .ok b') :
    b.str <+: b'.str := by
  unfold reserve extend at reserved
  split at reserved
  · split at reserved
    · cases reserved
      exact List.prefix_append _ _
    · cases reserved
  · cases reserved
    exact List.prefix_rfl

theorem putUchar_extends {n : Nat} {b b' : JsonString} (written : b.putUchar mem n = .ok b') :
    b.str <+: b'.str := by
  unfold putUchar at written
  split at written
  · cases written
    exact List.prefix_append _ _
  · split at written
    · obtain ⟨c, reserved, put⟩ := bind_eq_ok.mp written
      cases put
      exact (reserve_extends reserved).trans (List.prefix_append _ _)
    · obtain ⟨c, reserved, put⟩ := bind_eq_ok.mp written
      cases put
      exact (reserve_extends reserved).trans (List.prefix_append _ _)

/-- What was read stays in front of the result. -/
theorem parseChars_extends {text : Bytes} {v rest' : Bytes}
    (result : parseChars mem quote text b = .ok (v, rest')) : b.str <+: v := by
  induction size : text.length using Nat.strong_induction_on generalizing text b with
  | _ n ih =>
      cases text with
      | nil => cases result
      | cons c rest =>
          unfold parseChars at result
          obtain ⟨b', reserved, next⟩ := bind_eq_ok.mp result
          clear result
          have before := reserve_extends reserved
          have put : ∀ (bytes more : Bytes), more.length < n →
              parseChars mem quote more (b'.put bytes) = .ok (v, rest') → b.str <+: v := by
            intro bytes more shorter result
            exact (before.trans (List.prefix_append _ _)).trans (ih _ shorter result rfl)
          rw [List.length_cons] at size
          split at next
          · cases next
            exact before
          split at next
          · exact put [c] rest (by omega) next
          cases rest with
          | nil => cases next
          | cons e rest =>
              rw [List.length_cons] at size
              dsimp only at next
              split at next
              · split at next
                · rename_i h₁ h₂ more
                  simp only [List.length_cons] at size
                  split at next
                  · exact put _ more (by omega) next
                  · cases next
                · cases next
              split at next
              · split at next
                · rename_i h₁ h₂ h₃ h₄ more
                  simp only [List.length_cons] at size
                  split at next
                  · obtain ⟨b'', written, last⟩ := bind_eq_ok.mp next
                    exact (before.trans (putUchar_extends written)).trans
                      (ih more.length (by omega) last rfl)
                  · cases next
                · cases next
              · exact put _ rest (by omega) next

section Read

variable {c : UInt8}

theorem letter_facts (isQuote : IsQuote quote) {letter : UInt8}
    (found : escapeLetter c = some letter) : unescape letter = c ∧ letter ≠ 120 ∧
      letter ≠ 117 ∧ letter ≠ quote ∧ letter ≠ backslash := by
  have all : ∀ c, (escapeLetter c).all fun letter => unescape letter = c ∧ letter ≠ 120 ∧
      letter ≠ 117 ∧ letter ≠ backslash := by
    apply forall_byte
    decide +kernel
  have facts := all c
  rw [found, Option.all_some, decide_eq_true_eq] at facts
  obtain ⟨same, notHex, notUchar, plain⟩ := facts
  exact ⟨same, notHex, notUchar, ne_quote isQuote (.inr (weight_letter found).2.2.2), plain⟩

/-- The digits of a code are read one by one when its backslash is lost. -/
theorem digit_facts (isQuote : IsQuote quote) {d : Nat} (small : d < 10) :
    digit d ≠ quote ∧ digit d ≠ backslash := by
  have isDigit := Decimal.isDigit_digit small
  constructor
  · intro same
    rw [same] at isDigit
    simp only [IsQuote, List.mem_cons, List.not_mem_nil, or_false] at isQuote
    rcases isQuote with rfl | rfl | rfl <;> exact absurd isDigit (by decide)
  · intro same
    rw [same] at isDigit
    exact absurd isDigit (by decide)

theorem jsonEscape_letter {letter : UInt8} (coded : ¬(32 ≤ c ∧ c ≤ 126))
    (found : escapeLetter c = some letter) : jsonEscape c = [backslash, letter] := by
  rw [jsonEscape, if_neg coded, found]

theorem jsonEscape_quote (isQuote : c = singleQuote ∨ c = doubleQuote) :
    jsonEscape c = [backslash, c] := by
  rcases isQuote with rfl | rfl <;> rfl

theorem jsonEscape_plain (printable : 32 ≤ c ∧ c ≤ 126)
    (notQuote : ¬(c = singleQuote ∨ c = doubleQuote)) : jsonEscape c = [c] := by
  rw [jsonEscape, if_pos printable, if_neg notQuote]

/-- A code is read as the encoding of its digits in hexadecimal. -/
theorem reads_coded (all : Granted mem) (fits : b.Fits) (isQuote : IsQuote quote)
    (coded : IsCoded c) (rest : Bytes) :
    ∃ gap, Reads mem quote (jsonEscape c) rest b (gap.map mem.fill ++ utf8 (decimalAsHex c)) ∧
      (decimalAsHex c ≤ 0x7f → gap = []) := by
  rw [jsonEscape_coded coded]
  exact reads_uchar all fits isQuote.facts.1 (by decide)
    (hexValue_digit (Nat.mod_lt _ (by decide))) (hexValue_digit (Nat.mod_lt _ (by decide)))
    (hexValue_digit (Nat.mod_lt _ (by decide))) rest

/-- A plain byte is read as itself. -/
theorem reads_byte (all : Granted mem) (fits : b.Fits) (isQuote : IsQuote quote)
    (byte : PlainByte quote c) (rest : Bytes) : Reads mem quote (jsonEscape c) rest b [c] := by
  by_cases printable : 32 ≤ c ∧ c ≤ 126
  · by_cases marked : c = singleQuote ∨ c = doubleQuote
    · have facts : unescape c = c ∧ c ≠ 120 ∧ c ≠ 117 := by
        rcases marked with rfl | rfl <;> decide
      rw [jsonEscape_quote marked]
      have reads := reads_escape all fits isQuote.facts.1 facts.2.1 facts.2.2 rest
      rwa [facts.1] at reads
    · rw [jsonEscape_plain printable marked]
      apply reads_plain all fits _ byte.2.1
      rintro rfl
      simp only [IsQuote, List.mem_cons, List.not_mem_nil, or_false] at isQuote
      rcases isQuote with same | same | same
      · exact marked (.inr same)
      · exact marked (.inl same)
      · exact byte.2.2 same same
  · cases found : escapeLetter c with
    | some letter =>
        obtain ⟨same, notHex, notUchar, _⟩ := letter_facts isQuote found
        rw [jsonEscape_letter printable found]
        have reads := reads_escape all fits isQuote.facts.1 notHex notUchar rest
        rwa [same] at reads
    | none =>
        have code : decimalAsHex c ≤ 0x7f ∧ utf8 (decimalAsHex c) = [c] := by
          have check : ∀ c, (c ≤ 10 ∨ c = 12 ∨ c = 13) → IsCoded c →
              decimalAsHex c ≤ 0x7f ∧ utf8 (decimalAsHex c) = [c] := by
            apply forall_byte
            decide +kernel
          apply check c _ ⟨printable, found⟩
          rcases byte.1 with low | low | low | letter
          · exact .inl low
          · exact .inr (.inl low)
          · exact .inr (.inr low)
          · exact absurd letter printable
        obtain ⟨gap, reads, small⟩ := reads_coded all fits isQuote ⟨printable, found⟩ rest
        rwa [small code.1, code.2] at reads

/-- A string without misreads is read as itself. -/
theorem reads_string (all : Granted mem) (isQuote : IsQuote quote) {str : Bytes}
    (good : ReadsBack quote str) (fits : b.Fits) (rest : Bytes) :
    Reads mem quote (jsonEscapeString str) rest b str := by
  induction good generalizing b with
  | nil => exact ⟨b.sz, by simp [jsonEscapeString], by simpa [Fits] using fits⟩
  | @plain c str byte later ih =>
      show Reads mem quote (jsonEscape c ++ jsonEscapeString str) rest b ([c] ++ str)
      exact (reads_byte all fits isQuote byte _).append fun sz fits => ih fits
  | @quote e str isMark other later ih =>
      have text : jsonEscapeString (backslash :: e :: str) =
          [backslash, backslash] ++ ([e] ++ jsonEscapeString str) := by
        show jsonEscape backslash ++ (jsonEscape e ++ jsonEscapeString str) = _
        rw [jsonEscape_quote isMark]
        rfl
      have notEscape : e ≠ backslash := by rcases isMark with rfl | rfl <;> decide
      rw [text]
      show Reads mem quote _ rest b ([backslash] ++ ([e] ++ str))
      apply (reads_escape all fits isQuote.facts.1 (by decide) (by decide) _).append
      intro sz fits
      apply (reads_plain (b := ⟨b.str ++ [unescape backslash], sz⟩) all fits other notEscape
        _).append
      intro sz fits
      exact ih fits

/-- The reader returns a string without misreads, and the text behind it. -/
theorem parseChars_string (all : Granted mem) (isQuote : IsQuote quote) {str : Bytes}
    (good : ReadsBack quote str) (fits : b.Fits) (rest : Bytes) :
    parseChars mem quote (jsonEscapeString str ++ quote :: rest) b = .ok (b.str ++ str, rest) := by
  obtain ⟨sz, same, inside⟩ := reads_string all isQuote good fits (quote :: rest)
  rw [same]
  exact reads_end (b := ⟨b.str ++ str, sz⟩) all inside rest

/-- Characters without a meaning are read one by one. -/
theorem reads_plains (all : Granted mem) {text : Bytes} {b : JsonString} (fits : b.Fits)
    (plain : ∀ c ∈ text, c ≠ quote ∧ c ≠ backslash) (rest : Bytes) :
    Reads mem quote text rest b text := by
  induction text generalizing b with
  | nil => exact ⟨b.sz, by simp, by simpa [Fits] using fits⟩
  | cons c text ih =>
      obtain ⟨notQuote, notEscape⟩ := plain c List.mem_cons_self
      show Reads mem quote ([c] ++ text) rest b ([c] ++ text)
      apply (reads_plain all fits notQuote notEscape _).append
      intro sz fits
      exact ih fits fun d member => plain d (List.mem_cons_of_mem _ member)

theorem reads_backslash (all : Granted mem) (fits : b.Fits) (isQuote : IsQuote quote)
    (rest : Bytes) : Reads mem quote [backslash, backslash] rest b [backslash] :=
  reads_escape all fits isQuote.facts.1 (by decide) (by decide) rest

/-- A text that is read is a token of the outcome. -/
theorem Outcome.step {text consumed out str rest v rest' : Bytes}
    (reads : Reads mem quote text (jsonEscapeString str ++ quote :: rest) b out)
    (token : Token quote consumed out)
    (ih : ∀ b : JsonString, b.Fits →
      parseChars mem quote (jsonEscapeString str ++ quote :: rest) b = .ok (v, rest') →
      Outcome quote rest str b.str v rest')
    (result : parseChars mem quote (text ++ (jsonEscapeString str ++ quote :: rest)) b =
      .ok (v, rest')) : Outcome quote rest (consumed ++ str) b.str v rest' := by
  obtain ⟨sz, same, fits⟩ := reads
  rw [same] at result
  exact .cons token (ih ⟨b.str ++ out, sz⟩ fits result)

theorem jsonEscapeString_cons (c : UInt8) (str : Bytes) :
    jsonEscapeString (c :: str) = jsonEscape c ++ jsonEscapeString str := rfl

/-- A hexadecimal digit of the text is one of the string. -/
theorem hexValue_head (isQuote : IsQuote quote) {str rest more : Bytes} {h : UInt8} {v : Nat}
    (split : jsonEscapeString str ++ quote :: rest = h :: more) (digit : hexValue h = some v) :
    ∃ str', str = h :: str' ∧ more = jsonEscapeString str' ++ quote :: rest := by
  cases str with
  | nil =>
      cases split
      rw [isQuote.facts.2.2.2.1] at digit
      cases digit
  | cons c str =>
      rw [jsonEscapeString_cons] at split
      have notEscape : h ≠ backslash := by
        rintro rfl
        cases digit
      by_cases printable : 32 ≤ c ∧ c ≤ 126
      · by_cases marked : c = singleQuote ∨ c = doubleQuote
        · rw [jsonEscape_quote marked] at split
          cases split
          exact absurd rfl notEscape
        · rw [jsonEscape_plain printable marked] at split
          cases split
          exact ⟨str, rfl, rfl⟩
      · cases found : escapeLetter c with
        | some letter =>
            rw [jsonEscape_letter printable found] at split
            cases split
            exact absurd rfl notEscape
        | none =>
            rw [jsonEscape_coded ⟨printable, found⟩] at split
            cases split
            exact absurd rfl notEscape

/-- A code of two or four digits that the reader accepts consists of bytes of the string. -/
theorem parseChars_hex (all : Granted mem) (fits : b.Fits) (isQuote : IsQuote quote)
    {text v rest' : Bytes}
    (result : parseChars mem quote (backslash :: 120 :: text) b = .ok (v, rest')) :
    ∃ h₁ h₂ v₁ v₂ more, text = h₁ :: h₂ :: more ∧ hexValue h₁ = some v₁ ∧
      hexValue h₂ = some v₂ := by
  obtain ⟨sz, reserved, _⟩ := reserve_full all fits
  unfold parseChars at result
  rw [reserved] at result
  obtain ⟨b', same, next⟩ := bind_eq_ok.mp result
  clear result
  rw [if_neg isQuote.facts.1.symm, if_neg (by simp)] at next
  dsimp only at next
  rw [if_pos rfl] at next
  split at next
  · rename_i h₁ h₂ more
    split at next
    · rename_i v₁ v₂ first second
      exact ⟨h₁, h₂, v₁, v₂, more, rfl, first, second⟩
    · cases next
  · cases next

theorem parseChars_uchar (all : Granted mem) (fits : b.Fits) (isQuote : IsQuote quote)
    {text v rest' : Bytes}
    (result : parseChars mem quote (backslash :: 117 :: text) b = .ok (v, rest')) :
    ∃ h₁ h₂ h₃ h₄ v₁ v₂ v₃ v₄ more, text = h₁ :: h₂ :: h₃ :: h₄ :: more ∧
      hexValue h₁ = some v₁ ∧ hexValue h₂ = some v₂ ∧ hexValue h₃ = some v₃ ∧
      hexValue h₄ = some v₄ := by
  obtain ⟨sz, reserved, _⟩ := reserve_full all fits
  unfold parseChars at result
  rw [reserved] at result
  obtain ⟨b', same, next⟩ := bind_eq_ok.mp result
  clear result
  rw [if_neg isQuote.facts.1.symm, if_neg (by simp)] at next
  dsimp only at next
  rw [if_neg (by decide), if_pos rfl] at next
  split at next
  · rename_i h₁ h₂ h₃ h₄ more
    split at next
    · rename_i v₁ v₂ v₃ v₄ first second third fourth
      exact ⟨h₁, h₂, h₃, h₄, v₁, v₂, v₃, v₄, more, rfl, first, second, third, fourth⟩
    · cases next
  · cases next

/-- What new blocks hold when it is the digit zero. -/
def Zeroed (mem : JsonMem) : Prop := ∀ n, mem.fill n = 48

theorem Lossy.filled {consumed out : Bytes} (zero : Zeroed mem)
    (lossy : Lossy quote consumed out) (gap : List Nat) :
    Lossy quote consumed (gap.map mem.fill ++ out) := by
  have same : gap.map mem.fill = List.replicate gap.length 48 := by
    rw [List.eq_replicate_iff]
    refine ⟨List.length_map _, ?_⟩
    intro c member
    obtain ⟨n, _, rfl⟩ := List.mem_map.mp member
    exact zero n
  rw [same]
  exact lossy.gap gap.length

/-- The outcomes of a backslash that the writer left alone. -/
theorem outcome_backslash (all : Granted mem) (zero : Zeroed mem) (isQuote : IsQuote quote)
    {str rest v rest' : Bytes}
    (ih : ∀ str', str'.length ≤ str.length → ∀ b : JsonString, b.Fits →
      parseChars mem quote (jsonEscapeString str' ++ quote :: rest) b = .ok (v, rest') →
      Outcome quote rest str' b.str v rest')
    (fits : b.Fits)
    (result : parseChars mem quote (backslash :: (jsonEscapeString str ++ quote :: rest)) b =
      .ok (v, rest')) : Outcome quote rest (backslash :: str) b.str v rest' := by
  obtain ⟨notEscape, notHex, notUchar, _, same, _⟩ := isQuote.facts
  cases str with
  | nil =>
      obtain ⟨sz, next, _⟩ := reads_escape all fits notEscape notHex notUchar rest
      have before := parseChars_extends (next.symm.trans result)
      rw [same] at before
      exact .late .nil rfl (by simpa using before)
  | cons e str =>
      rw [jsonEscapeString_cons, List.append_assoc] at result
      have later := fun str' short => ih str' (Nat.le_succ_of_le short)
      by_cases escape : e = backslash
      · subst escape
        have reads := reads_backslash all fits isQuote (jsonEscapeString str ++ quote :: rest)
        exact .step reads (.lossy (lossy_escape isQuote backslash))
          (later str le_rfl) result
      by_cases printable : 32 ≤ e ∧ e ≤ 126
      · by_cases marked : e = singleQuote ∨ e = doubleQuote
        · rw [jsonEscape_quote marked] at result
          obtain ⟨sz, next, inside⟩ := reads_backslash all fits isQuote
            (e :: (jsonEscapeString str ++ quote :: rest))
          by_cases own : e = quote
          · subst own
            have ended := @reads_end mem e ⟨b.str ++ [backslash], sz⟩ all inside
              (jsonEscapeString str ++ e :: rest)
            have value := (next.trans ended).symm.trans result
            cases value
            exact .escaped .nil rfl (by simp)
          · have both : Reads mem quote ([backslash, backslash] ++ [e])
                (jsonEscapeString str ++ quote :: rest) b ([backslash] ++ [e]) := by
              apply Reads.append ⟨sz, next, inside⟩
              intro sz fits
              exact reads_plain (b := ⟨b.str ++ [backslash], sz⟩) all fits own escape _
            exact .step both (.quote marked own) (later str le_rfl) result
        · rw [jsonEscape_plain printable marked, List.singleton_append] at result
          by_cases hex : e = 120
          · subst hex
            obtain ⟨h₁, h₂, v₁, v₂, more, text, first, second⟩ :=
              parseChars_hex all fits isQuote result
            obtain ⟨str, rfl, rest₁⟩ := hexValue_head isQuote text first
            obtain ⟨str, rfl, rest₂⟩ := hexValue_head isQuote rest₁.symm second
            have reads := reads_hex all fits notEscape first second
              (jsonEscapeString str ++ quote :: rest)
            rw [text, rest₂] at result
            exact .step reads (.lossy (lossy_hex isQuote first second))
              (later str (by simp only [List.length_cons]; omega)) result
          by_cases code : e = 117
          · subst code
            obtain ⟨h₁, h₂, h₃, h₄, v₁, v₂, v₃, v₄, more, text, first, second, third, fourth⟩ :=
              parseChars_uchar all fits isQuote result
            obtain ⟨str, rfl, rest₁⟩ := hexValue_head isQuote text first
            obtain ⟨str, rfl, rest₂⟩ := hexValue_head isQuote rest₁.symm second
            obtain ⟨str, rfl, rest₃⟩ := hexValue_head isQuote rest₂.symm third
            obtain ⟨str, rfl, rest₄⟩ := hexValue_head isQuote rest₃.symm fourth
            obtain ⟨gap, reads, _⟩ := reads_uchar all fits notEscape first second third fourth
              (jsonEscapeString str ++ quote :: rest)
            rw [text, rest₄] at result
            exact .step reads
              (.lossy ((lossy_uchar isQuote first second third fourth).filled zero gap))
              (later str (by simp only [List.length_cons]; omega)) result
          · have reads := reads_escape all fits notEscape hex code
              (jsonEscapeString str ++ quote :: rest)
            exact .step reads (.lossy (lossy_escape isQuote e))
              (later str le_rfl) result
      · cases found : escapeLetter e with
        | some letter =>
            obtain ⟨_, _, _, other, plain⟩ := letter_facts isQuote found
            rw [jsonEscape_letter printable found] at result
            have both : Reads mem quote ([backslash, backslash] ++ [letter])
                (jsonEscapeString str ++ quote :: rest) b ([backslash] ++ [letter]) := by
              apply (reads_backslash all fits isQuote _).append
              intro sz fits
              exact reads_plain (b := ⟨b.str ++ [backslash], sz⟩) all fits other plain _
            exact .step both (.lossy (lossy_letter isQuote found)) (later str le_rfl) result
        | none =>
            have coded : IsCoded e := ⟨printable, found⟩
            rw [jsonEscape_coded coded] at result
            have letters : ∀ c ∈ [117, 48, digit (e.toNat / 100 % 10), digit (e.toNat / 10 % 10),
                digit (e.toNat % 10)], c ≠ quote ∧ c ≠ backslash := by
              intro c member
              simp only [List.mem_cons, List.not_mem_nil, or_false] at member
              rcases member with rfl | rfl | rfl | rfl | rfl
              · exact ⟨notUchar.symm, by decide⟩
              · exact digit_facts isQuote (d := 0) (by decide)
              · exact digit_facts isQuote (Nat.mod_lt _ (by decide))
              · exact digit_facts isQuote (Nat.mod_lt _ (by decide))
              · exact digit_facts isQuote (Nat.mod_lt _ (by decide))
            have both : Reads mem quote ([backslash, backslash] ++
                  [117, 48, digit (e.toNat / 100 % 10), digit (e.toNat / 10 % 10),
                    digit (e.toNat % 10)])
                (jsonEscapeString str ++ quote :: rest) b ([backslash] ++
                  [117, 48, digit (e.toNat / 100 % 10), digit (e.toNat / 10 % 10),
                    digit (e.toNat % 10)]) := by
              apply (reads_backslash all fits isQuote _).append
              intro sz fits
              exact reads_plains (b := ⟨b.str ++ [backslash], sz⟩) all fits letters _
            exact .step both (.lossy (lossy_code isQuote coded)) (later str le_rfl) result

/-- Each string that the reader returns is the outcome of one of the writer's. -/
theorem outcome (all : Granted mem) (zero : Zeroed mem) (isQuote : IsQuote quote)
    {str rest v rest' : Bytes} (fits : b.Fits)
    (result : parseChars mem quote (jsonEscapeString str ++ quote :: rest) b = .ok (v, rest')) :
    Outcome quote rest str b.str v rest' := by
  induction size : str.length using Nat.strong_induction_on generalizing str b with
  | _ n ih =>
      cases str with
      | nil =>
          rw [jsonEscapeString, List.flatMap_nil, List.nil_append, reads_end all fits] at result
          cases result
          exact .whole .nil (by simp) rfl
      | cons c str =>
          rw [List.length_cons] at size
          have later : ∀ str', str'.length ≤ str.length → ∀ b : JsonString, b.Fits →
              parseChars mem quote (jsonEscapeString str' ++ quote :: rest) b = .ok (v, rest') →
              Outcome quote rest str' b.str v rest' :=
            fun str' short b fits result => ih str'.length (by omega) fits result rfl
          rw [jsonEscapeString_cons, List.append_assoc] at result
          by_cases byte : PlainByte quote c
          · exact .step (reads_byte all fits isQuote byte _) (.plain byte) (later str le_rfl) result
          by_cases escape : c = backslash
          · subst escape
            exact outcome_backslash all zero isQuote later fits result
          by_cases printable : 32 ≤ c ∧ c ≤ 126
          · have tick : c = backtick ∧ quote = backtick := by
              by_contra other
              exact byte ⟨.inr (.inr (.inr printable)), escape,
                fun first second => other ⟨first, second⟩⟩
            obtain ⟨rfl, rfl⟩ := tick
            have ended := @reads_end mem backtick b all fits
              (jsonEscapeString str ++ backtick :: rest)
            have value := ended.symm.trans result
            cases value
            exact .early .nil rfl (by simp)
          · have coded : IsCoded c := by
              refine ⟨printable, ?_⟩
              cases found : escapeLetter c with
              | none => rfl
              | some letter =>
                  have low : ∀ c, (escapeLetter c).isSome → c ≤ 10 ∨ c = 12 ∨ c = 13 := by
                    apply forall_byte
                    decide +kernel
                  have tick : c ≠ backtick := by
                    rintro rfl
                    exact printable (by decide)
                  refine absurd ⟨?_, escape, fun same => absurd same tick⟩ byte
                  rcases low c (by simp [found]) with small | small | small
                  · exact .inl small
                  · exact .inr (.inl small)
                  · exact .inr (.inr (.inl small))
            obtain ⟨gap, reads, small⟩ := reads_coded all fits isQuote coded
              (jsonEscapeString str ++ quote :: rest)
            by_cases low : c < 127
            · obtain ⟨ascii, plain | lossy⟩ := coded_low isQuote coded low
              · refine absurd ⟨.inl plain.1, escape, fun tick => ?_⟩ byte
                exact absurd (tick ▸ plain.1 : backtick ≤ 10) (by decide)
              · exact .step reads (.lossy (lossy.filled zero gap)) (later str le_rfl) result
            · exact .step reads
                (.lossy ((coded_high isQuote (UInt8.not_lt.mp low)).filled zero gap))
                (later str le_rfl) result

end Read

end Raids
