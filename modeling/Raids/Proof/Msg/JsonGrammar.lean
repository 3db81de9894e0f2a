import Raids.Proof.Msg.JsonBlocks
import Raids.Proof.Msg.JsonChunk
import Raids.Proof.Msg.JsonDecode
import Mathlib.Data.List.DropRight

namespace Raids
open Decimal

/-- The words of the grammar and what they stand for. -/
def jsonWordValues : List (Bytes × RedisMsg) :=
  [(jsonTrue, .integer 1), (jsonFalse, .integer 0), (jsonNull, .array (-1) []),
    (jsonNil, .string .bulkString (-1) [])]

/-- A sign, where there is one. -/
def sign (isneg : Bool) : Bytes := if isneg then [minus] else []

/-- The number of a sign and digits. -/
def signedValue (isneg : Bool) (digits : Bytes) : Int :=
  if isneg then -(value digits : Int) else value digits

mutual

/-- A value of the grammar behind white space, its message and the text behind it. A loose value may
have a sign alone, a number of any size or a comma before a bracket; a fitting one has strings that
fit in their blocks and their lengths. -/
inductive JsonValue (loose fits : Prop) : Bytes → RedisMsg → Bytes → Prop where
  | string {json rest : Bytes} {quote : UInt8} {parts : List StringPart} (isQuote : IsQuote quote)
      (valid : ∀ part ∈ parts, part.Valid quote)
      (text : eatWhite json = quote :: (parts.flatMap StringPart.text ++ quote :: rest))
      (exact : fits → PartsFit 0 parts ∧ (meaning parts).length < 2 ^ 31) :
      JsonValue loose fits json
        (.string (quoteType quote) (meaning parts).length (meaning parts)) rest
  | number {json digits rest : Bytes} {isneg : Bool}
      (text : eatWhite json = sign isneg ++ (digits ++ rest)) (all : ∀ c ∈ digits, IsDigit c)
      (ends : NoDigit rest) (some : digits ≠ [])
      (range : -2 ^ 63 ≤ signedValue isneg digits ∧ signedValue isneg digits < 2 ^ 63) :
      JsonValue loose fits json (.integer (signedValue isneg digits)) rest
  | looseNumber {json digits rest : Bytes} {isneg : Bool} (isLoose : loose)
      (text : eatWhite json = sign isneg ++ (digits ++ rest)) (all : ∀ c ∈ digits, IsDigit c)
      (ends : NoDigit rest) (some : isneg = true ∨ digits ≠ []) :
      JsonValue loose fits json (.integer (toInt64 (signedValue isneg digits))) rest
  | word {json word rest : Bytes} {m : RedisMsg} (known : (word, m) ∈ jsonWordValues)
      (text : eatWhite json = word ++ rest) : JsonValue loose fits json m rest
  | empty {json inner rest : Bytes} (text : eatWhite json = openBracket :: inner)
      (close : eatWhite inner = closeBracket :: rest) : JsonValue loose fits json (.array 0 []) rest
  | array {json inner rest : Bytes} {ms : List RedisMsg}
      (text : eatWhite json = openBracket :: inner) (elems : JsonElements loose fits inner ms rest) :
      JsonValue loose fits json (.array ms.length ms) rest

/-- Values with commas between them, up to the closing bracket. -/
inductive JsonElements (loose fits : Prop) : Bytes → List RedisMsg → Bytes → Prop where
  | last {json behind rest : Bytes} {m : RedisMsg} (first : JsonValue loose fits json m behind)
      (close : eatWhite behind = closeBracket :: rest) : JsonElements loose fits json [m] rest
  | looseComma {json behind inner rest : Bytes} {m : RedisMsg} (isLoose : loose)
      (first : JsonValue loose fits json m behind) (another : eatWhite behind = comma :: inner)
      (close : eatWhite inner = closeBracket :: rest) : JsonElements loose fits json [m] rest
  | more {json behind inner rest : Bytes} {m : RedisMsg} {ms : List RedisMsg}
      (first : JsonValue loose fits json m behind) (another : eatWhite behind = comma :: inner)
      (later : JsonElements loose fits inner ms rest) : JsonElements loose fits json (m :: ms) rest

end

/-- Each array of a message has at most as many elements as the blocks of the reader. -/
inductive RedisMsg.Short : RedisMsg → Prop where
  | string (type : StringType) (len : Int) (strval : Bytes) : Short (.string type len strval)
  | integer (ival : Int) : Short (.integer ival)
  | array (len : Int) {elems : List RedisMsg} (few : elems.length ≤ jsonCapacity)
      (each : ∀ m ∈ elems, Short m) : Short (.array len elems)

section Texts

variable {loose fits : Prop} {json rest : Bytes} {m : RedisMsg} {ms : List RedisMsg}

theorem eatWhite_eatWhite (json : Bytes) : eatWhite (eatWhite json) = eatWhite json :=
  List.dropWhile_idempotent _ _

theorem length_of_eatWhite {behind : Bytes} {c : UInt8} (text : eatWhite json = c :: behind) :
    behind.length < json.length := by
  have shorter := length_eatWhite json
  rw [text, List.length_cons] at shorter
  omega

/-- A sign and digits start with a byte of a number. -/
theorem head_number {isneg : Bool} {digits : Bytes} (all : ∀ c ∈ digits, IsDigit c)
    (some : isneg = true ∨ digits ≠ []) :
    ∃ c text, sign isneg ++ (digits ++ rest) = c :: text ∧ (IsDigit c ∨ c = minus) ∧
      rest.length ≤ text.length := by
  cases isneg with
  | true => exact ⟨minus, digits ++ rest, rfl, Or.inr rfl, by simp⟩
  | false =>
      cases digits with
      | nil => simp at some
      | cons c digits =>
          exact ⟨c, digits ++ rest, rfl, Or.inl (all c List.mem_cons_self), by simp⟩

theorem mod_bmod (v n : Nat) : Int.bmod (v % n : Nat) n = Int.bmod v n := by
  rw [Int.natCast_mod, Int.emod_bmod]

theorem neg_bmod_bmod (x : Int) (n : Nat) : Int.bmod (-Int.bmod x n) n = Int.bmod (-x) n := by
  rw [← Int.zero_sub, Int.sub_bmod_bmod, Int.zero_sub]

/-- A sign and digits are read as their number, of which the low bits are kept. -/
theorem parseNumber_signed {isneg : Bool} {digits : Bytes} (all : ∀ c ∈ digits, IsDigit c)
    (ends : NoDigit rest) (some : isneg = true ∨ digits ≠ []) :
    parseNumber (sign isneg ++ (digits ++ rest)) =
      (.integer (toInt64 (signedValue isneg digits)), rest) := by
  obtain ⟨taken, dropped⟩ := takeWhile_digits all ends
  have sum := foldl_digits digits 0
  rw [Nat.zero_mod, Nat.zero_mul, Nat.zero_add] at sum
  unfold parseNumber
  cases isneg with
  | true =>
      have head : ((sign true ++ (digits ++ rest)).head? == Option.some minus) = true := rfl
      have tail : (sign true ++ (digits ++ rest)).tail = digits ++ rest := rfl
      simp only [head, if_true, tail, taken, dropped, sum]
      rw [signedValue, if_pos rfl, toInt64, toInt64, toInt64, mod_bmod, neg_bmod_bmod]
  | false =>
      have head : ((digits ++ rest).head? == Option.some minus) = false := by
        cases digits with
        | nil => simp at some
        | cons c digits =>
            have isDigit := all c List.mem_cons_self
            apply beq_false_of_ne
            intro same
            cases same
            exact minus_not_digit isDigit
      have unsigned : sign false ++ (digits ++ rest) = digits ++ rest := rfl
      simp only [unsigned, head, Bool.false_eq_true, if_false, taken, dropped, sum]
      rw [signedValue, if_neg Bool.false_ne_true, toInt64, toInt64, mod_bmod]

theorem signedValue_wraps {isneg : Bool} {digits : Bytes}
    (range : -2 ^ 63 ≤ signedValue isneg digits ∧ signedValue isneg digits < 2 ^ 63) :
    toInt64 (signedValue isneg digits) = signedValue isneg digits := by
  rw [toInt64]
  exact Int.bmod_eq_of_le (by omega) (by omega)

/-- A text that starts with a word is read as it. -/
theorem parseWord_known {word : Bytes} (known : (word, m) ∈ jsonWordValues) (rest : Bytes) :
    parseWord (word ++ rest) = .ok (m, rest) := by
  simp only [jsonWordValues, List.mem_cons, List.not_mem_nil, or_false, Prod.mk.injEq] at known
  rcases known with ⟨rfl, rfl⟩ | ⟨rfl, rfl⟩ | ⟨rfl, rfl⟩ | ⟨rfl, rfl⟩ <;> rfl

/-- Only the words are read. -/
theorem word_of_parseWord (read : parseWord json = .ok (m, rest)) :
    ∃ word, (word, m) ∈ jsonWordValues ∧ json = word ++ rest := by
  have split : ∀ word : Bytes, word.isPrefixOf json = true →
      json = word ++ json.drop word.length := by
    intro word isPrefix
    exact (List.prefix_iff_eq_append.mp (List.isPrefixOf_iff_prefix.mp isPrefix)).symm
  unfold parseWord at read
  split at read
  · rename_i found
    cases read
    exact ⟨jsonTrue, by simp [jsonWordValues], split _ found⟩
  split at read
  · rename_i found
    cases read
    exact ⟨jsonFalse, by simp [jsonWordValues], split _ found⟩
  split at read
  · rename_i found
    cases read
    exact ⟨jsonNull, by simp [jsonWordValues], split _ found⟩
  split at read
  · rename_i found
    cases read
    exact ⟨jsonNil, by simp [jsonWordValues], split _ found⟩
  · cases read

/-- The first byte of a word has no other meaning. -/
theorem head_word {word : Bytes} (known : (word, m) ∈ jsonWordValues) :
    ∃ c text, word = c :: text ∧ ¬JsonSpace c ∧ c ≠ openBracket ∧ c ≠ closeBracket ∧
      ¬(c = singleQuote ∨ c = backtick ∨ c = doubleQuote) ∧ ¬(IsDigit c ∨ c = minus) := by
  simp only [jsonWordValues, List.mem_cons, List.not_mem_nil, or_false, Prod.mk.injEq] at known
  rcases known with ⟨rfl, -⟩ | ⟨rfl, -⟩ | ⟨rfl, -⟩ | ⟨rfl, -⟩
  · exact ⟨116, _, rfl, by decide⟩
  · exact ⟨102, _, rfl, by decide⟩
  · exact ⟨110, _, rfl, by decide⟩
  · exact ⟨110, _, rfl, by decide⟩

/-- The first byte of a number has no other meaning. -/
theorem head_number_facts {c : UInt8} (number : IsDigit c ∨ c = minus) :
    c ≠ openBracket ∧ c ≠ closeBracket ∧
      ¬(c = singleQuote ∨ c = backtick ∨ c = doubleQuote) := by
  have all : ∀ c, IsDigit c ∨ c = minus → c ≠ openBracket ∧ c ≠ closeBracket ∧
      ¬(c = singleQuote ∨ c = backtick ∨ c = doubleQuote) := by
    apply BigEndian.forall_byte
    decide +kernel
  exact all c number

/-- The first byte of a string has no other meaning. -/
theorem head_quote_facts {quote : UInt8} (isQuote : IsQuote quote) :
    quote ≠ openBracket ∧ quote ≠ closeBracket ∧
      (quote = singleQuote ∨ quote = backtick ∨ quote = doubleQuote) := by
  simp only [IsQuote, List.mem_cons, List.not_mem_nil, or_false] at isQuote
  rcases isQuote with rfl | rfl | rfl <;> decide

/-- A value does not start with the bracket that closes an array. -/
theorem JsonValue.head (isValue : JsonValue loose fits json m rest) :
    (eatWhite json).head? ≠ some closeBracket := by
  intro closes
  cases isValue with
  | string isQuote _ text _ =>
      rw [text] at closes
      cases closes
      exact (head_quote_facts isQuote).2.1 rfl
  | number text all _ nonempty _ =>
      obtain ⟨c, tail, split, number, -⟩ := head_number all (Or.inr nonempty)
      rw [text, split] at closes
      cases closes
      exact (head_number_facts number).2.1 rfl
  | looseNumber _ text all _ nonempty =>
      obtain ⟨c, tail, split, number, -⟩ := head_number all nonempty
      rw [text, split] at closes
      cases closes
      exact (head_number_facts number).2.1 rfl
  | word known text =>
      obtain ⟨c, tail, rfl, -, -, other, -⟩ := head_word known
      rw [text] at closes
      cases closes
      exact other rfl
  | empty text _ =>
      rw [text, List.head?_cons, Option.some.injEq] at closes
      exact absurd closes (by decide)
  | array text _ =>
      rw [text, List.head?_cons, Option.some.injEq] at closes
      exact absurd closes (by decide)

mutual

/-- A value takes at least one byte. -/
theorem JsonValue.shorter {json rest : Bytes} {m : RedisMsg} :
    JsonValue loose fits json m rest → rest.length < json.length
  | .string _ _ text _ => by
      have behind := length_of_eatWhite text
      rw [List.length_append, List.length_cons] at behind
      omega
  | .number text all _ nonempty _ => by
      obtain ⟨c, tail, split, -, shorter⟩ := head_number all (Or.inr nonempty)
      have behind := length_of_eatWhite (text.trans split)
      omega
  | .looseNumber _ text all _ nonempty => by
      obtain ⟨c, tail, split, -, shorter⟩ := head_number all nonempty
      have behind := length_of_eatWhite (text.trans split)
      omega
  | .word known text => by
      obtain ⟨c, tail, rfl, -⟩ := head_word known
      have behind := length_of_eatWhite (text.trans List.cons_append)
      rw [List.length_append] at behind
      omega
  | .empty text close => by
      have behind := length_of_eatWhite text
      have inner := length_of_eatWhite close
      omega
  | .array text elems => by
      have behind := length_of_eatWhite text
      have inner := elems.shorter
      omega

/-- The elements of an array take at least one byte. -/
theorem JsonElements.shorter {json rest : Bytes} {ms : List RedisMsg} :
    JsonElements loose fits json ms rest → rest.length < json.length
  | .last first close => by
      have value := first.shorter
      have inner := length_of_eatWhite close
      omega
  | .looseComma _ first another close => by
      have value := first.shorter
      have inner := length_of_eatWhite another
      have last := length_of_eatWhite close
      omega
  | .more first another later => by
      have value := first.shorter
      have inner := length_of_eatWhite another
      have last := later.shorter
      omega

end

end Texts

section Fits

variable {loose fits : Prop}

mutual

/-- A value that fits is a value. -/
theorem JsonValue.grammar {json rest : Bytes} {m : RedisMsg} :
    JsonValue loose fits json m rest → JsonValue loose False json m rest
  | .string isQuote valid text _ => .string isQuote valid text False.elim
  | .number text all ends nonempty range => .number text all ends nonempty range
  | .looseNumber isLoose text all ends nonempty => .looseNumber isLoose text all ends nonempty
  | .word known text => .word known text
  | .empty text close => .empty text close
  | .array text elems => .array text elems.grammar

/-- Elements that fit are elements. -/
theorem JsonElements.grammar {json rest : Bytes} {ms : List RedisMsg} :
    JsonElements loose fits json ms rest → JsonElements loose False json ms rest
  | .last first close => .last first.grammar close
  | .looseComma isLoose first another close => .looseComma isLoose first.grammar another close
  | .more first another later => .more first.grammar another later.grammar

end

end Fits

section Reads

variable {mem : JsonMem} {loose fits : Prop} {json rest : Bytes} {m : RedisMsg}
  {ms : List RedisMsg} {fuel : Nat}

/-- White space in front of a value is skipped. -/
theorem parseJson_eatWhite (fuel : Nat) (json : Bytes) :
    parseJson mem fuel (eatWhite json) = parseJson mem fuel json := by
  cases fuel with
  | zero => rfl
  | succ fuel => rw [parseJson, parseJson, eatWhite_eatWhite]

theorem parseJson_word {word : Bytes} (known : (word, m) ∈ jsonWordValues) (fuel : Nat)
    (rest : Bytes) : parseJson mem (fuel + 1) (word ++ rest) = .ok (m, rest) := by
  have read := parseWord_known known rest
  obtain ⟨c, tail, rfl, notSpace, notArray, -, notQuote, notNumber⟩ := head_word known
  rw [List.cons_append] at read ⊢
  rw [parseJson, eatWhite_cons notSpace]
  dsimp only
  rw [if_neg notArray, if_neg notQuote, if_neg notNumber, read]

/-- The granted memory accepts every token. -/
theorem parseChars_accepts (all : Granted mem) {quote : UInt8} (isQuote : quote ≠ backslash)
    {parts : List StringPart} (valid : ∀ part ∈ parts, part.Valid quote) {b : JsonString}
    (inside : b.Fits) (rest : Bytes) :
    ∃ v, parseChars mem quote (parts.flatMap StringPart.text ++ quote :: rest) b =
      .ok (v, rest) := by
  induction parts generalizing b with
  | nil => exact ⟨b.str, reads_end all inside rest⟩
  | cons part parts ih =>
      have later := fun {b : JsonString} => @ih
        (fun part member => valid part (List.mem_cons_of_mem _ member)) b
      have first : ∃ out, Reads mem quote part.text
          (parts.flatMap StringPart.text ++ quote :: rest) b out := by
        have good := valid part List.mem_cons_self
        cases part with
        | plain c => exact ⟨_, reads_plain all inside good.1 good.2 _⟩
        | escape e => exact ⟨_, reads_escape all inside isQuote good.1 good.2 _⟩
        | hex h₁ h₂ =>
            exact ⟨_, reads_hex all inside isQuote (hexValue_eq good.1) (hexValue_eq good.2) _⟩
        | uchar h₁ h₂ h₃ h₄ =>
            obtain ⟨gap, reads, -⟩ := reads_uchar all inside isQuote (hexValue_eq good.1)
              (hexValue_eq good.2.1) (hexValue_eq good.2.2.1) (hexValue_eq good.2.2.2)
              (parts.flatMap StringPart.text ++ quote :: rest)
            exact ⟨_, reads⟩
      obtain ⟨out, sz, same, room⟩ := first
      rw [List.flatMap_cons, List.append_assoc, same]
      exact later room

/-- A token is read as its meaning exactly where it fits. -/
theorem parseString_accepts (all : Granted mem) {quote : UInt8} (isQuote : IsQuote quote)
    {parts : List StringPart} (valid : ∀ part ∈ parts, part.Valid quote) (rest : Bytes) :
    ∃ m, parseString mem quote (parts.flatMap StringPart.text ++ quote :: rest) = .ok (m, rest) ∧
      (m = .string (quoteType quote) (meaning parts).length (meaning parts) ↔
        PartsFit 0 parts ∧ (meaning parts).length < 2 ^ 31) := by
  obtain ⟨v, accepted⟩ := @parseChars_accepts mem all quote isQuote.facts.1 parts valid ⟨[], 8⟩
    (Nat.zero_le 8) rest
  have read : parseString mem quote (parts.flatMap StringPart.text ++ quote :: rest) =
      .ok (.string (quoteType quote) (toInt32 v.length) v, rest) := by
    rw [parseString, if_pos (all.granted 8), accepted]
    rfl
  obtain ⟨-, out, value, -, exact⟩ :=
    parseChars_parts isQuote.facts.1 valid sized_start accepted
  rw [List.nil_append] at value
  subst value
  have fits : v = meaning parts ↔ PartsFit 0 parts := exact
  exact ⟨_, read, by rw [string_eq_iff, fits]⟩

/-- A text is read up to the end of its value where the arrays are short, as the value where it
fits; it is an error where an array is too long. -/
def ReadsValue (mem : JsonMem) (loose fits : Prop) (fuel : Nat) (json : Bytes) (m : RedisMsg)
    (rest : Bytes) : Prop :=
  (m.Short → ∃ m', parseJson mem fuel json = .ok (m', rest) ∧ (fits → m' = m) ∧
    (m' = m → JsonValue loose True json m rest)) ∧
  (¬m.Short → ∃ status, parseJson mem fuel json = .error status)

/-- The elements of an array are read behind others where the blocks have room for them. -/
def ReadsElements (mem : JsonMem) (loose fits : Prop) (fuel : Nat) (json : Bytes)
    (ms : List RedisMsg) (rest : Bytes) : Prop :=
  ∀ (blocks : JsonBlocks) (elems : List RedisMsg), blocks.Valid →
    ((ms.length ≤ blocks.room ∧ ∀ m ∈ ms, m.Short) → ∃ ms',
      parseValues mem fuel blocks elems (eatWhite json) =
        .ok (.array (toInt32 (elems ++ ms').length) (elems ++ ms'), rest) ∧
      ms'.length = ms.length ∧ (fits → ms' = ms) ∧
      (ms' = ms → JsonElements loose True json ms rest)) ∧
    (¬(ms.length ≤ blocks.room ∧ ∀ m ∈ ms, m.Short) →
      ∃ status, parseValues mem fuel blocks elems (eatWhite json) = .error status)

theorem readsValue_string (all : Granted mem) {quote : UInt8} {parts : List StringPart}
    (isQuote : IsQuote quote) (valid : ∀ part ∈ parts, part.Valid quote)
    (text : eatWhite json = quote :: (parts.flatMap StringPart.text ++ quote :: rest))
    (exact : fits → PartsFit 0 parts ∧ (meaning parts).length < 2 ^ 31) :
    ReadsValue mem loose fits (fuel + 1) json
      (.string (quoteType quote) (meaning parts).length (meaning parts)) rest := by
  obtain ⟨m', read, same⟩ := parseString_accepts all isQuote valid rest
  have reads : parseJson mem (fuel + 1) json = .ok (m', rest) := by
    rw [← parseJson_eatWhite, text, parseJson_quote isQuote, read]
  apply And.intro
  · intro _
    refine ⟨m', reads, fun isFit => same.mpr (exact isFit), ?_⟩
    intro equal
    exact .string isQuote valid text fun _ => same.mp equal
  · intro long
    exact absurd (.string _ _ _) long

/-- A value without strings is read as it is. -/
theorem readsValue_exact (short : m.Short) (reads : parseJson mem fuel json = .ok (m, rest))
    (isValue : JsonValue loose True json m rest) : ReadsValue mem loose fits fuel json m rest := by
  apply And.intro
  · intro _
    exact ⟨m, reads, fun _ => rfl, fun _ => isValue⟩
  · intro long
    exact absurd short long

theorem parseJson_signed {isneg : Bool} {digits : Bytes}
    (text : eatWhite json = sign isneg ++ (digits ++ rest)) (all : ∀ c ∈ digits, IsDigit c)
    (ends : NoDigit rest) (some : isneg = true ∨ digits ≠ []) :
    parseJson mem (fuel + 1) json = .ok (.integer (toInt64 (signedValue isneg digits)), rest) := by
  have number := parseNumber_signed all ends some
  obtain ⟨c, tail, split, first, -⟩ := @head_number rest isneg digits all some
  rw [split] at number
  rw [← parseJson_eatWhite, text, split, parseJson_number first, number]

/-- One round of the loop reads the first value and adds it. -/
theorem parseValues_first (isValue : JsonValue loose fits json m rest) (fuel : Nat)
    (blocks : JsonBlocks) (elems : List RedisMsg) :
    parseValues mem (fuel + 1) blocks elems (eatWhite json) =
      (parseJson mem fuel json >>= fun p => blocks.add mem >>= fun b =>
        if (eatWhite p.2).head? = some comma then
          parseValues mem fuel b (elems ++ [p.1]) (eatWhite (eatWhite p.2).tail)
        else b.finish mem (elems ++ [p.1]) (eatWhite p.2)) := by
  rw [parseValues, if_neg isValue.head, parseJson_eatWhite]

theorem add_error {blocks : JsonBlocks} (valid : blocks.Valid) (full : ¬0 < blocks.room) :
    ∃ status, blocks.add mem = .error status := by
  cases added : blocks.add mem with
  | error status => exact ⟨status, rfl⟩
  | ok blocks' => exact absurd (JsonBlocks.add_ok valid added) full

/-- An array is read where its elements are. -/
theorem readsValue_array {inner : Bytes} (text : eatWhite json = openBracket :: inner)
    (elems : ReadsElements mem loose fits fuel inner ms rest) :
    ReadsValue mem loose fits (fuel + 1) json (.array ms.length ms) rest := by
  have start : parseJson mem (fuel + 1) json =
      parseValues mem fuel ⟨0, 0, 0⟩ [] (eatWhite inner) := by
    rw [← parseJson_eatWhite, text, parseJson_array]
  obtain ⟨short, long⟩ := elems ⟨0, 0, 0⟩ [] start_room.1
  rw [start_room.2] at short long
  apply And.intro
  · rintro (_ | _ | ⟨_, few, each⟩)
    obtain ⟨ms', read, length, same, exact⟩ := short ⟨few, each⟩
    have size : toInt32 (([] : List RedisMsg) ++ ms').length = ms.length := by
      rw [List.nil_append, length]
      rw [jsonCapacity_eq] at few
      exact toInt32_of_bounds (by omega) (by omega)
    rw [size, List.nil_append] at read
    refine ⟨_, start.trans read, fun isFit => by rw [same isFit], ?_⟩
    intro equal
    rw [RedisMsg.array.injEq] at equal
    exact .array text (exact equal.2)
  · intro notShort
    rw [start]
    apply long
    rintro ⟨few, each⟩
    exact notShort (.array _ few each)

/-- Elements are read where the first value and the rest of them are. -/
theorem readsElements_cons (all : Granted mem) {behind : Bytes}
    (isValue : JsonValue loose fits json m behind)
    (first : ReadsValue mem loose fits fuel json m behind)
    (later : ∀ (blocks : JsonBlocks) (elems : List RedisMsg), blocks.Valid →
      ((ms.length ≤ blocks.room ∧ ∀ m ∈ ms, m.Short) → ∃ ms',
        (if (eatWhite behind).head? = some comma then
            parseValues mem fuel blocks elems (eatWhite (eatWhite behind).tail)
          else blocks.finish mem elems (eatWhite behind)) =
            .ok (.array (toInt32 (elems ++ ms').length) (elems ++ ms'), rest) ∧
          ms'.length = ms.length ∧ (fits → ms' = ms) ∧
          (ms' = ms → JsonValue loose True json m behind →
            JsonElements loose True json (m :: ms) rest)) ∧
      (¬(ms.length ≤ blocks.room ∧ ∀ m ∈ ms, m.Short) → ∃ status,
        (if (eatWhite behind).head? = some comma then
            parseValues mem fuel blocks elems (eatWhite (eatWhite behind).tail)
          else blocks.finish mem elems (eatWhite behind)) = .error status)) :
    ReadsElements mem loose fits (fuel + 1) json (m :: ms) rest := by
  intro blocks elems valid
  rw [parseValues_first isValue]
  by_cases short : m.Short
  · obtain ⟨m', read, same, exact⟩ := first.1 short
    rw [read]
    show (_ → ∃ ms', (blocks.add mem >>= _) = _ ∧ _) ∧ (_ → ∃ status, (blocks.add mem >>= _) = _)
    by_cases room : 0 < blocks.room
    · obtain ⟨blocks', added, valid', left⟩ := blocks.add_room all valid room
      rw [added]
      obtain ⟨good, bad⟩ := later blocks' (elems ++ [m']) valid'
      apply And.intro
      · rintro ⟨few, each⟩
        rw [List.length_cons] at few
        obtain ⟨ms', reads, length, sames, exacts⟩ :=
          good ⟨by omega, fun m member => each m (List.mem_cons_of_mem _ member)⟩
        refine ⟨m' :: ms', ?_, by rw [List.length_cons, List.length_cons, length], ?_, ?_⟩
        · show (if (eatWhite behind).head? = some comma then _ else _) = _
          rw [reads, List.append_assoc, List.singleton_append]
        · intro isFit
          rw [same isFit, sames isFit]
        · intro equal
          obtain ⟨head, tail⟩ := List.cons.inj equal
          exact exacts tail (exact head)
      · intro many
        apply bad
        rintro ⟨few, each⟩
        apply many
        refine ⟨by rw [List.length_cons]; omega, ?_⟩
        intro other member
        rcases List.mem_cons.mp member with rfl | member
        · exact short
        · exact each other member
    · obtain ⟨status, failed⟩ := add_error valid room
      rw [failed]
      apply And.intro
      · rintro ⟨few, -⟩
        rw [List.length_cons] at few
        omega
      · intro _
        exact ⟨status, rfl⟩
  · obtain ⟨status, failed⟩ := first.2 short
    rw [failed]
    apply And.intro
    · rintro ⟨-, each⟩
      exact absurd (each m List.mem_cons_self) short
    · intro _
      exact ⟨status, rfl⟩

mutual

/-- Each value of a text is read with enough fuel. -/
theorem JsonValue.reads (all : Granted mem) {json rest : Bytes} {m : RedisMsg} :
    JsonValue loose fits json m rest → ∀ fuel, 2 * json.length + 1 ≤ fuel →
      ReadsValue mem loose fits fuel json m rest
  | .string isQuote valid text exact => by
      intro fuel enough
      obtain ⟨fuel, rfl⟩ : ∃ less, fuel = less + 1 := ⟨fuel - 1, by omega⟩
      exact readsValue_string all isQuote valid text exact
  | .number text digits ends nonempty range => by
      intro fuel enough
      obtain ⟨fuel, rfl⟩ : ∃ less, fuel = less + 1 := ⟨fuel - 1, by omega⟩
      have reads := @parseJson_signed mem json rest fuel _ _ text digits ends (Or.inr nonempty)
      rw [signedValue_wraps range] at reads
      exact readsValue_exact (.integer _) reads (.number text digits ends nonempty range)
  | .looseNumber isLoose text digits ends nonempty => by
      intro fuel enough
      obtain ⟨fuel, rfl⟩ : ∃ less, fuel = less + 1 := ⟨fuel - 1, by omega⟩
      exact readsValue_exact (.integer _) (parseJson_signed text digits ends nonempty)
        (.looseNumber isLoose text digits ends nonempty)
  | .word known text => by
      intro fuel enough
      obtain ⟨fuel, rfl⟩ : ∃ less, fuel = less + 1 := ⟨fuel - 1, by omega⟩
      have short : m.Short := by
        simp only [jsonWordValues, List.mem_cons, List.not_mem_nil, or_false,
          Prod.mk.injEq] at known
        rcases known with ⟨-, rfl⟩ | ⟨-, rfl⟩ | ⟨-, rfl⟩ | ⟨-, rfl⟩
        · exact .integer _
        · exact .integer _
        · exact .array _ (Nat.zero_le _) (by simp)
        · exact .string _ _ _
      apply readsValue_exact short
      · rw [← parseJson_eatWhite, text, parseJson_word known]
      · exact .word known text
  | .empty text close => by
      intro fuel enough
      obtain ⟨fuel, rfl⟩ : ∃ less, fuel = less + 2 :=
        ⟨fuel - 2, by have := length_of_eatWhite text; omega⟩
      apply readsValue_exact (.array _ (Nat.zero_le _) (by simp))
      · rw [← parseJson_eatWhite, text, parseJson_array, close, parseValues,
          if_pos List.head?_cons, finish_close all]
        rfl
      · exact .empty text close
  | .array text elems => by
      intro fuel enough
      obtain ⟨fuel, rfl⟩ : ∃ less, fuel = less + 1 := ⟨fuel - 1, by omega⟩
      have inside := length_of_eatWhite text
      exact readsValue_array text (elems.reads all fuel (by omega))

/-- The elements of each array are read with enough fuel. -/
theorem JsonElements.reads (all : Granted mem) {json rest : Bytes} {ms : List RedisMsg} :
    JsonElements loose fits json ms rest → ∀ fuel, 2 * json.length + 2 ≤ fuel →
      ReadsElements mem loose fits fuel json ms rest
  | .last first close => by
      intro fuel enough
      obtain ⟨fuel, rfl⟩ : ∃ less, fuel = less + 1 := ⟨fuel - 1, by omega⟩
      apply readsElements_cons all first (first.reads all fuel (by omega))
      intro blocks elems valid
      rw [close, List.head?_cons, if_neg (by decide), finish_close all]
      apply And.intro
      · intro _
        refine ⟨[], by rw [List.append_nil], rfl, fun _ => rfl, ?_⟩
        intro _ exact
        exact .last exact close
      · intro many
        exact absurd ⟨Nat.zero_le _, by simp⟩ many
  | .looseComma isLoose first another close => by
      intro fuel enough
      obtain ⟨fuel, rfl⟩ : ∃ less, fuel = less + 2 := ⟨fuel - 2, by omega⟩
      apply readsElements_cons all first (first.reads all (fuel + 1) (by omega))
      intro blocks elems valid
      rw [another, List.head?_cons, if_pos rfl, List.tail_cons, close, parseValues,
        if_pos List.head?_cons, finish_close all]
      apply And.intro
      · intro _
        refine ⟨[], by rw [List.append_nil], rfl, fun _ => rfl, ?_⟩
        intro _ exact
        exact .looseComma isLoose exact another close
      · intro many
        exact absurd ⟨Nat.zero_le _, by simp⟩ many
  | .more first another later => by
      intro fuel enough
      obtain ⟨fuel, rfl⟩ : ∃ less, fuel = less + 1 := ⟨fuel - 1, by omega⟩
      have behind := first.shorter
      have inside := length_of_eatWhite another
      have rest := later.reads all fuel (by omega)
      apply readsElements_cons all first (first.reads all fuel (by omega))
      intro blocks elems valid
      rw [another, List.head?_cons, if_pos rfl, List.tail_cons]
      obtain ⟨good, bad⟩ := rest blocks elems valid
      apply And.intro
      · intro fit
        obtain ⟨ms', read, length, same, exact⟩ := good fit
        refine ⟨ms', read, length, same, ?_⟩
        intro equal isValue
        exact .more isValue another (exact equal)
      · exact bad

end

/-- A number that is read is a sign and digits. -/
theorem loose_number {c : UInt8} {behind : Bytes} (text : eatWhite json = c :: behind)
    (number : IsDigit c ∨ c = minus) (read : .ok (parseNumber (c :: behind)) =
      (.ok (m, rest) : Except RedisMsgStatus (RedisMsg × Bytes))) :
    ∃ m', JsonValue True False json m' rest := by
  have cut : ∀ digits : Bytes,
      digits = digits.takeWhile (IsDigit ·) ++ digits.dropWhile (IsDigit ·) ∧
      (∀ d ∈ digits.takeWhile (IsDigit ·), IsDigit d) ∧
      NoDigit (digits.dropWhile (IsDigit ·)) := by
    intro digits
    refine ⟨(List.takeWhile_append_dropWhile).symm, ?_, ?_⟩
    · intro d member
      have holds := List.mem_takeWhile_imp member
      exact of_decide_eq_true holds
    · intro d head
      have stops := List.head?_dropWhile_not (fun x => decide (IsDigit x)) digits
      rw [Option.mem_def.mp head] at stops
      simpa using stops
  by_cases negative : c = minus
  · subst negative
    obtain ⟨split, all, ends⟩ := cut behind
    have read' := @parseNumber_signed _ true _ all ends (Or.inl rfl)
    have whole : sign true ++ (behind.takeWhile (IsDigit ·) ++ behind.dropWhile (IsDigit ·)) =
        minus :: behind := by
      rw [← split]
      rfl
    rw [whole] at read'
    rw [read'] at read
    cases read
    exact ⟨_, .looseNumber trivial (text.trans whole.symm) all ends (Or.inl rfl)⟩
  · obtain ⟨split, all, ends⟩ := cut (c :: behind)
    have isDigit := number.resolve_right negative
    have some : (c :: behind).takeWhile (IsDigit ·) ≠ [] := by
      rw [List.takeWhile_cons_of_pos (by simpa using isDigit)]
      exact List.cons_ne_nil _ _
    have read' := @parseNumber_signed _ false _ all ends (Or.inr some)
    have whole : sign false ++ ((c :: behind).takeWhile (IsDigit ·) ++
        (c :: behind).dropWhile (IsDigit ·)) = c :: behind := split.symm
    rw [whole] at read'
    rw [read'] at read
    cases read
    exact ⟨_, .looseNumber trivial (text.trans whole.symm) all ends (Or.inr some)⟩

/-- The end of an array is its bracket. -/
theorem finish_ok {b : JsonBlocks} {elems : List RedisMsg}
    (done : b.finish mem elems json = .ok (m, rest)) : json = closeBracket :: rest := by
  unfold JsonBlocks.finish at done
  cases json with
  | nil => cases done
  | cons c behind =>
      dsimp only at done
      split at done
      · cases done
      rename_i closes
      split at done
      · cases done
      · cases done
        rw [not_not.mp closes]

/-- Whatever is read is a loose value. -/
theorem loose_of_parse (fuel : Nat) :
    (∀ json m rest, parseJson mem fuel json = .ok (m, rest) →
      ∃ m', JsonValue True False json m' rest) ∧
    ∀ blocks elems json m rest, parseValues mem fuel blocks elems (eatWhite json) = .ok (m, rest) →
      eatWhite json = closeBracket :: rest ∨ ∃ ms, JsonElements True False json ms rest := by
  induction fuel with
  | zero =>
      apply And.intro
      · intro json m rest read
        cases read
      · intro blocks elems json m rest read
        cases read
  | succ fuel ih =>
      obtain ⟨item, values⟩ := ih
      apply And.intro
      · intro json m rest read
        rw [parseJson] at read
        cases text : eatWhite json with
        | nil =>
            rw [text] at read
            cases read
        | cons c behind =>
            rw [text] at read
            dsimp only at read
            split at read
            · rename_i array
              subst array
              rcases values _ _ _ _ _ read with close | ⟨ms, elems⟩
              · exact ⟨_, .empty text close⟩
              · exact ⟨_, .array text elems⟩
            split at read
            · rename_i quoted
              have isQuote : IsQuote c := by
                simp only [IsQuote, List.mem_cons, List.not_mem_nil, or_false]
                tauto
              obtain ⟨parts, valid, rfl⟩ := (parseString_exact isQuote read).1
              exact ⟨_, .string isQuote valid text False.elim⟩
            split at read
            · rename_i number
              exact loose_number text number read
            · obtain ⟨word, known, split⟩ := word_of_parseWord read
              exact ⟨m, .word known (text.trans split)⟩
      · intro blocks elems json m rest read
        rw [parseValues] at read
        split at read
        · exact Or.inl (finish_ok read)
        · obtain ⟨⟨value, behind⟩, first, next⟩ := bind_eq_ok.mp read
          obtain ⟨blocks', -, last⟩ := bind_eq_ok.mp next
          rw [parseJson_eatWhite] at first
          obtain ⟨m', isValue⟩ := item _ _ _ first
          dsimp only at last
          split at last
          · rename_i another
            obtain ⟨inner, split⟩ : ∃ inner, eatWhite behind = comma :: inner := by
              cases text : eatWhite behind with
              | nil =>
                  rw [text] at another
                  cases another
              | cons c inner =>
                  rw [text] at another
                  cases another
                  exact ⟨inner, rfl⟩
            rw [split, List.tail_cons] at last
            rcases values _ _ _ _ _ last with close | ⟨ms, later⟩
            · exact Or.inr ⟨_, .looseComma trivial isValue split close⟩
            · exact Or.inr ⟨_, .more isValue split later⟩
          · exact Or.inr ⟨_, .last isValue (finish_ok last)⟩

/-- With fuel for the length of the text there is always enough. -/
theorem parse_enough (fuel : Nat) :
    (∀ (json : Bytes) fuel', 2 * json.length + 1 ≤ fuel → 2 * json.length + 1 ≤ fuel' →
      parseJson mem fuel json = parseJson mem fuel' json) ∧
    ∀ (json : Bytes) fuel' blocks elems, 2 * json.length + 2 ≤ fuel →
      2 * json.length + 2 ≤ fuel' →
      parseValues mem fuel blocks elems json = parseValues mem fuel' blocks elems json := by
  induction fuel with
  | zero =>
      apply And.intro
      · intro json fuel' enough
        omega
      · intro json fuel' blocks elems enough
        omega
  | succ fuel ih =>
      obtain ⟨item, values⟩ := ih
      apply And.intro
      · intro json fuel' enough also
        obtain ⟨fuel', rfl⟩ : ∃ less, fuel' = less + 1 := ⟨fuel' - 1, by omega⟩
        rw [parseJson, parseJson]
        cases text : eatWhite json with
        | nil => rfl
        | cons c behind =>
            have shorter := length_of_eatWhite text
            have inside := length_eatWhite behind
            dsimp only
            rw [values (eatWhite behind) fuel' _ _ (by omega) (by omega)]
      · intro json fuel' blocks elems enough also
        obtain ⟨fuel', rfl⟩ : ∃ less, fuel' = less + 1 := ⟨fuel' - 1, by omega⟩
        rw [parseValues, parseValues, item json fuel' (by omega) (by omega)]
        cases read : parseJson mem fuel' json with
        | error status => rfl
        | ok pair =>
            obtain ⟨value, behind⟩ := pair
            obtain ⟨m, isValue⟩ := (loose_of_parse fuel').1 _ _ _ read
            have shorter := isValue.shorter
            have inside := length_eatWhite behind
            have tail := length_eatWhite (eatWhite behind).tail
            rw [List.length_tail] at tail
            congr 1
            show (blocks.add mem >>= _) = (blocks.add mem >>= _)
            apply bind_congr
            intro blocks'
            dsimp only
            by_cases another : (eatWhite behind).head? = some comma
            · have nonempty : 0 < (eatWhite behind).length := by
                cases text : eatWhite behind with
                | nil =>
                    rw [text] at another
                    cases another
                | cons c inner => exact Nat.succ_pos _
              rw [if_pos another, if_pos another,
                values _ fuel' blocks' _ (by omega) (by omega)]
            · rw [if_neg another, if_neg another]

/-- A text that starts with a value of the grammar is read as the value up to its end, and no other
text is read. -/
def AcceptsGrammar (mem : JsonMem) (unwritten : Nat → RedisMsg) (json : Bytes) : Prop :=
  (∀ m consumed, unpackJsonBlocks mem unwritten json = .ok (m, consumed) →
    ∃ rest, JsonValue False False json m rest ∧ consumed = json.length - rest.length) ∧
  ((∃ m rest, JsonValue False False json m rest) →
    ∃ r, unpackJsonBlocks mem unwritten json = .ok r)

theorem unpackJsonBlocks_ok {unwritten : Nat → RedisMsg} (m : RedisMsg) (consumed : Nat) :
    unpackJsonBlocks mem unwritten json = .ok (m, consumed) ↔
      ∃ rest, parseJson mem (2 * json.length + 1) json = .ok (m, rest) ∧
        consumed = json.length - rest.length := by
  rw [unpackJsonBlocks_eq, unpackJson]
  cases parseJson mem (2 * json.length + 1) json with
  | error status =>
      apply iff_of_false
      · intro impossible
        cases impossible
      · rintro ⟨rest, impossible, -⟩
        cases impossible
  | ok pair =>
      obtain ⟨m', rest'⟩ := pair
      apply Iff.intro
      · intro same
        cases same
        exact ⟨rest', rfl, rfl⟩
      · rintro ⟨rest, same, rfl⟩
        cases same
        rfl

/-- A text of the grammar is read as it says where it fits and its arrays are short, and another
text is refused where all that a loose reading finds has arrays that are too long. -/
theorem acceptsGrammar_iff (all : Granted mem) (unwritten : Nat → RedisMsg) (json : Bytes) :
    AcceptsGrammar mem unwritten json ↔
      (∃ m rest, JsonValue False True json m rest ∧ m.Short) ∨
        (¬∃ m rest, JsonValue False False json m rest) ∧
          ∀ m rest, JsonValue True False json m rest → ¬m.Short := by
  apply Iff.intro
  · rintro ⟨sound, complete⟩
    by_cases isText : ∃ m rest, JsonValue False False json m rest
    · obtain ⟨⟨m', consumed⟩, read⟩ := complete isText
      obtain ⟨rest', first, -⟩ := (unpackJsonBlocks_ok m' consumed).mp read
      obtain ⟨rest, isValue, -⟩ := sound m' consumed read
      obtain ⟨short, long⟩ := isValue.reads all _ le_rfl
      by_cases isShort : m'.Short
      · obtain ⟨m'', second, -, exact⟩ := short isShort
        rw [first] at second
        cases second
        exact Or.inl ⟨m', _, exact rfl, isShort⟩
      · obtain ⟨status, failed⟩ := long isShort
        rw [first] at failed
        cases failed
    · apply Or.inr
      apply And.intro isText
      intro m rest isLoose isShort
      obtain ⟨m', read, -⟩ := (isLoose.reads all _ le_rfl).1 isShort
      obtain ⟨rest', isValue, -⟩ := sound m' _ ((unpackJsonBlocks_ok m' _).mpr ⟨rest, read, rfl⟩)
      exact isText ⟨m', rest', isValue⟩
  · rintro (⟨m, rest, isValue, isShort⟩ | ⟨noText, long⟩)
    · obtain ⟨m', read, same, -⟩ := (isValue.reads all _ le_rfl).1 isShort
      obtain rfl := same trivial
      apply And.intro
      · intro m'' consumed again
        obtain ⟨rest'', second, length⟩ := (unpackJsonBlocks_ok m'' consumed).mp again
        rw [read] at second
        cases second
        exact ⟨rest, isValue.grammar, length⟩
      · intro _
        exact ⟨_, (unpackJsonBlocks_ok m' _).mpr ⟨rest, read, rfl⟩⟩
    · apply And.intro
      · intro m consumed read
        obtain ⟨rest, first, -⟩ := (unpackJsonBlocks_ok m consumed).mp read
        obtain ⟨m', isLoose⟩ := (loose_of_parse _).1 _ _ _ first
        obtain ⟨status, failed⟩ := (isLoose.reads all _ le_rfl).2 (long m' rest isLoose)
        rw [first] at failed
        cases failed
      · intro isText
        exact absurd isText noText

/-- A proper front of a value is not read, unless it is a number of fewer digits. -/
theorem front_of_value (all : Granted mem) (unwritten : Nat → RedisMsg) {json more : Bytes}
    (cut : more ≠ []) (isValue : JsonValue False False (json ++ more) m []) {m' : RedisMsg}
    {consumed : Nat} (read : unpackJsonBlocks mem unwritten json = .ok (m', consumed)) :
    ∃ ival, m' = .integer ival := by
  obtain ⟨rest, parsed, -⟩ := (unpackJsonBlocks_ok m' consumed).mp read
  rw [unpackJsonBlocks_eq] at read
  obtain ⟨-, inside, answer⟩ := (unpackJson_append json more).1 m' consumed read
  rcases answer with ⟨-, c, digits, text, number, -⟩ | whole
  · rw [← parseJson_eatWhite, text, parseJson_number number] at parsed
    obtain ⟨same, -⟩ := Prod.mk.inj (Except.ok.inj parsed)
    exact ⟨_, same.symm⟩
  · rw [← @unpackJsonBlocks_eq mem unwritten] at whole
    obtain ⟨rest', again, length⟩ := (unpackJsonBlocks_ok m' consumed).mp whole
    obtain ⟨short, long⟩ := isValue.reads all _ le_rfl
    by_cases isShort : m.Short
    · obtain ⟨m'', ends, -⟩ := short isShort
      rw [again] at ends
      cases ends
      have positive := List.length_pos_iff.mpr cut
      rw [List.length_append, List.length_nil] at length
      omega
    · obtain ⟨status, failed⟩ := long isShort
      rw [again] at failed
      cases failed

/-- The reader accepts its grammar exactly where the value fits and its arrays are short, a front of
a value is never read as an array or a string, and more fuel changes nothing. -/
theorem jsonGrammar_exact (all : Granted mem) (unwritten : Nat → RedisMsg) (json : Bytes) :
    (AcceptsGrammar mem unwritten json ↔
      (∃ m rest, JsonValue False True json m rest ∧ m.Short) ∨
        (¬∃ m rest, JsonValue False False json m rest) ∧
          ∀ m rest, JsonValue True False json m rest → ¬m.Short) ∧
      (∀ more m, more ≠ [] → JsonValue False False (json ++ more) m [] → ∀ m' consumed,
        unpackJsonBlocks mem unwritten json = .ok (m', consumed) → ∃ ival, m' = .integer ival) ∧
      ∀ fuel, 2 * json.length + 1 ≤ fuel →
        parseJsonBlocks mem unwritten fuel json =
          parseJsonBlocks mem unwritten (2 * json.length + 1) json := by
  refine ⟨acceptsGrammar_iff all unwritten json, ?_, ?_⟩
  · intro more m cut isValue m' consumed read
    exact front_of_value all unwritten cut isValue read
  · intro fuel enough
    rw [(parseJsonBlocks_eq _).1, (parseJsonBlocks_eq _).1]
    exact (parse_enough fuel).1 json _ enough le_rfl

/-- A digit is read as the grammar says. -/
theorem jsonGrammar_exact_digit :
    AcceptsGrammar ⟨fun _ => true, fun _ => 0⟩ (fun _ => .integer 0) [55] := by
  apply (@jsonGrammar_exact ⟨fun _ => true, fun _ => 0⟩ ⟨fun _ => rfl⟩ (fun _ => .integer 0)
    [55]).1.mpr
  refine Or.inl ⟨.integer 7, [], ?_, .integer 7⟩
  exact @JsonValue.number False True [55] [55] [] false rfl (by simp [IsDigit])
    (by simp [NoDigit]) (List.cons_ne_nil _ _) (by decide)

/-- A sign alone is no value of the grammar. -/
theorem not_value_minus (m : RedisMsg) (rest : Bytes) : ¬JsonValue False False [minus] m rest := by
  intro isValue
  have start : eatWhite [minus] = [minus] := rfl
  cases isValue with
  | string isQuote _ text _ =>
      rw [start] at text
      rw [← (List.cons.inj text).1] at isQuote
      exact absurd isQuote (by decide)
  | number text all ends nonempty range =>
      rename_i digits isneg
      rw [start] at text
      cases isneg with
      | true =>
          have nothing : [] = digits ++ rest := (List.cons.inj text).2
          exact nonempty (List.append_eq_nil_iff.mp nothing.symm).1
      | false =>
          cases digits with
          | nil => exact nonempty rfl
          | cons c digits =>
              have isDigit := all c List.mem_cons_self
              rw [← (List.cons.inj text).1] at isDigit
              exact minus_not_digit isDigit
  | looseNumber isLoose => exact isLoose
  | word known text =>
      obtain ⟨c, tail, rfl, -, -, -, -, other⟩ := head_word known
      rw [start] at text
      exact other (Or.inr (List.cons.inj text).1.symm)
  | empty text _ =>
      rw [start] at text
      exact absurd (List.cons.inj text).1 (by decide)
  | array text _ =>
      rw [start] at text
      exact absurd (List.cons.inj text).1 (by decide)

/-- A sign alone is read as zero. -/
theorem not_jsonGrammar_exact :
    ¬AcceptsGrammar ⟨fun _ => true, fun _ => 0⟩ (fun _ => .integer 0) [minus] := by
  rintro ⟨sound, -⟩
  have read : unpackJsonBlocks ⟨fun _ => true, fun _ => 0⟩ (fun _ => .integer 0) [minus] =
      .ok (.integer 0, 1) := by
    refine (unpackJsonBlocks_ok _ _).mpr ⟨[], ?_, rfl⟩
    exact @parseJson_signed _ [minus] [] 2 true [] rfl (by simp) (by simp [NoDigit]) (Or.inl rfl)
  obtain ⟨rest, isValue, -⟩ := sound _ _ read
  exact not_value_minus _ _ isValue

end Reads

end Raids
