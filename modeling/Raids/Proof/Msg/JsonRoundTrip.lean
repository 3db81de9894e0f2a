import Raids.Proof.Msg.JsonString
import Raids.Proof.Msg.Number

namespace Raids
open Decimal

/-- A message in memory: each length counts its payload and fits in an int32, and an integer
fits in an int64. -/
inductive RedisMsg.Sized : RedisMsg → Prop where
  | string (type : StringType) (strval : Bytes) (fits : strval.length < 2 ^ 31) :
      Sized (.string type strval.length strval)
  | nil (type : StringType) : Sized (.string type (-1) [])
  | integer (ival : Int) (lower : -2 ^ 63 ≤ ival) (upper : ival < 2 ^ 63) : Sized (.integer ival)
  | null : Sized (.array (-1) [])
  | array (elements : List RedisMsg) (fits : elements.length < 2 ^ 31)
      (sized : ∀ m ∈ elements, Sized m) : Sized (.array elements.length elements)

/-- The message as far as the chosen quoting can express it: normal quoting has bulk strings only,
in front of which it puts the marker of the type, and one null. -/
def RedisMsg.jsonImage (beWeird : Bool) : RedisMsg → RedisMsg
  | .string type len strval =>
      if 0 ≤ len then
        if beWeird then .string type len strval
        else .string .bulkString (type.marker ++ strval).length (type.marker ++ strval)
      else if beWeird then .string .bulkString (-1) []
      else .array (-1) []
  | .integer ival => .integer ival
  | .array len elems => .array len (images elems)
where
  images : List RedisMsg → List RedisMsg
    | [] => []
    | m :: ms => m.jsonImage beWeird :: images ms

/-- The sizes of the blocks of the reader. -/
def blockSize : Nat → Nat
  | 0 => 0
  | j + 1 => (blockSize j + 2) * 3 / 2

/-- The elements that fit in the first blocks. -/
def blocksSize : Nat → Nat
  | 0 => 0
  | j + 1 => blocksSize j + blockSize (j + 1)

/-- The elements that an array can have: what the 39 blocks hold. -/
def jsonCapacity : Nat := blocksSize 39

theorem jsonCapacity_eq : jsonCapacity = 121081166 := by decide +kernel

/-- The messages that come back: no string has a misread, and no array is longer than the
capacity. -/
inductive Expressible (beWeird : Bool) : RedisMsg → Prop where
  | weird (type : StringType) (strval : Bytes) (isWeird : beWeird = true)
      (good : ReadsBack type.quote strval) : Expressible beWeird (.string type strval.length strval)
  | normal (type : StringType) (strval : Bytes) (notWeird : beWeird = false)
      (good : ReadsBack doubleQuote strval) (fits : (type.marker ++ strval).length < 2 ^ 31) :
      Expressible beWeird (.string type strval.length strval)
  | nil (type : StringType) : Expressible beWeird (.string type (-1) [])
  | integer (ival : Int) : Expressible beWeird (.integer ival)
  | null : Expressible beWeird (.array (-1) [])
  | array (elements : List RedisMsg) (fits : elements.length ≤ jsonCapacity)
      (each : ∀ m ∈ elements, Expressible beWeird m) :
      Expressible beWeird (.array elements.length elements)

/-- The text of a message is unpacked as its image, whatever the granted memory holds. -/
def JsonRoundTrip (beWeird : Bool) (m : RedisMsg) : Prop :=
  ∀ mem, Granted mem → ∃ consumed,
    unpackJson mem (m.toAlmostJson beWeird) = .ok (m.jsonImage beWeird, consumed)

section Blocks

variable {mem : JsonMem} {b b' : JsonBlocks}

/-- The blocks that the reader can have. -/
structure JsonBlocks.Valid (b : JsonBlocks) : Prop where
  size : b.sz = blockSize b.tos
  inside : b.i ≤ b.sz
  few : b.tos ≤ 39

/-- The elements that still fit. -/
def JsonBlocks.room (b : JsonBlocks) : Nat := jsonCapacity - blocksSize b.tos + (b.sz - b.i)

theorem blocksSize_mono {j k : Nat} (le : j ≤ k) : blocksSize j ≤ blocksSize k := by
  induction k, le using Nat.le_induction with
  | base => exact le_rfl
  | succ k _ ih => exact ih.trans (Nat.le_add_right _ _)

/-- With room an element is added, and takes one place. -/
theorem JsonBlocks.add_room (all : Granted mem) (valid : b.Valid) (room : 0 < b.room) :
    ∃ b', b.add mem = .ok b' ∧ b'.Valid ∧ b'.room + 1 = b.room := by
  obtain ⟨size, inside, few⟩ := valid
  unfold JsonBlocks.room at room ⊢
  unfold JsonBlocks.add
  by_cases full : b.tos = 0 ∨ b.i = b.sz
  · have spent : b.sz - b.i = 0 := by
      rcases full with none' | full
      · rw [size, none']
        exact Nat.zero_sub _
      · omega
    have more : b.tos ≠ 39 := by
      intro last
      rw [last, spent, jsonCapacity] at room
      omega
    have next : (b.sz + 2) * 3 / 2 = blockSize (b.tos + 1) := by rw [blockSize, size]
    have below := blocksSize_mono (show b.tos + 1 ≤ 39 by omega)
    have step : blocksSize (b.tos + 1) = blocksSize b.tos + blockSize (b.tos + 1) := rfl
    have positive : 0 < blockSize (b.tos + 1) := by
      rw [blockSize]
      omega
    rw [if_pos full]
    dsimp only
    rw [if_neg (by simp only [JsonBlocks.maxBlocks]; omega), if_pos (all.granted _), next]
    refine ⟨_, rfl, ⟨rfl, positive, by dsimp only; omega⟩, ?_⟩
    dsimp only
    rw [← jsonCapacity] at below
    omega
  · rw [not_or] at full
    rw [if_neg (by tauto)]
    refine ⟨_, rfl, ⟨size, by dsimp only; omega, few⟩, ?_⟩
    dsimp only
    omega

/-- An added element has taken a place. -/
theorem JsonBlocks.add_ok (valid : b.Valid) (added : b.add mem = .ok b') : 0 < b.room := by
  obtain ⟨size, inside, few⟩ := valid
  unfold JsonBlocks.add at added
  unfold JsonBlocks.room
  split at added
  · dsimp only at added
    split at added
    · cases added
    · rename_i more
      have below := blocksSize_mono (show b.tos + 1 ≤ 39 by
        simp only [JsonBlocks.maxBlocks] at more
        omega)
      have step : blocksSize (b.tos + 1) = blocksSize b.tos + blockSize (b.tos + 1) := rfl
      have positive : 0 < blockSize (b.tos + 1) := by
        rw [blockSize]
        omega
      rw [← jsonCapacity] at below
      omega
  · rename_i room
    rw [not_or] at room
    omega

end Blocks

section Number

/-- The reader's sum is the value of the digits, modulo the word size. -/
theorem foldl_digits (digits : Bytes) (n : Nat) :
    digits.foldl (fun n c => (n * 10 + digitValue c) % 2 ^ 64) (n % 2 ^ 64) =
      (n * 10 ^ digits.length + value digits) % 2 ^ 64 := by
  induction digits generalizing n with
  | nil => simp
  | cons c digits ih =>
      have step : (n % 2 ^ 64 * 10 + digitValue c) % 2 ^ 64 = (n * 10 + digitValue c) % 2 ^ 64 := by
        omega
      rw [List.foldl_cons, step, ih, value_cons, List.length_cons, pow_succ]
      congr 1
      ring

/-- No digit follows. -/
def NoDigit (rest : Bytes) : Prop := ∀ c ∈ rest.head?, ¬IsDigit c

theorem takeWhile_digits {digits rest : Bytes} (all : ∀ c ∈ digits, IsDigit c)
    (ends : NoDigit rest) : (digits ++ rest).takeWhile (IsDigit ·) = digits ∧
      (digits ++ rest).dropWhile (IsDigit ·) = rest := by
  induction digits with
  | nil =>
      cases rest with
      | nil => exact ⟨rfl, rfl⟩
      | cons c rest =>
          have stops := ends c rfl
          simp [stops]
  | cons c digits ih =>
      obtain ⟨taken, dropped⟩ := ih fun d member => all d (List.mem_cons_of_mem _ member)
      have first := all c List.mem_cons_self
      simp [first, taken, dropped]

/-- The text of an int64 is read as the number. -/
theorem parseNumber_int64ToString {v : Int} (lower : -2 ^ 63 ≤ v) (upper : v < 2 ^ 63)
    {rest : Bytes} (ends : NoDigit rest) :
    parseNumber (int64ToString v ++ rest) = (.integer v, rest) := by
  have digits := isDigit_of_mem_decimal v.natAbs
  obtain ⟨taken, dropped⟩ := takeWhile_digits digits ends
  have sum := foldl_digits (decimal v.natAbs) 0
  rw [Nat.zero_mod, Nat.zero_mul, Nat.zero_add, value_decimal] at sum
  unfold parseNumber int64ToString uint64ToString
  by_cases negative : v < 0
  · rw [if_pos negative]
    dsimp only [List.cons_append, List.head?_cons, List.tail_cons]
    rw [if_pos (by simp), if_pos (by simp), taken, dropped, sum]
    have same : toInt64 (-toInt64 (v.natAbs % 2 ^ 64 : Nat)) = v := by
      unfold toInt64
      rw [Nat.mod_eq_of_lt (by omega)]
      by_cases least : v = -2 ^ 63
      · subst least
        decide
      · rw [Int.bmod_eq_of_le (n := (v.natAbs : Int)) (by omega) (by omega),
          Int.bmod_eq_of_le (by omega) (by omega)]
        omega
    rw [same]
  · have head : ¬((decimal v.natAbs ++ rest).head? == some minus) = true := by
      cases text : decimal v.natAbs with
      | nil => exact absurd text (decimal_ne_nil _)
      | cons c more =>
          rw [text] at digits
          have digit := digits c List.mem_cons_self
          simp only [List.cons_append, List.head?_cons, beq_iff_eq, Option.some.injEq]
          rintro rfl
          exact minus_not_digit digit
    rw [if_neg negative]
    dsimp only
    rw [if_neg head, if_neg head, taken, dropped, sum]
    have same : toInt64 (v.natAbs % 2 ^ 64 : Nat) = v := by
      unfold toInt64
      rw [Nat.mod_eq_of_lt (by omega), Int.bmod_eq_of_le (by omega) (by omega)]
      omega
    rw [same]

end Number

section Text

variable {mem : JsonMem} {beWeird : Bool} {m : RedisMsg} {ms : List RedisMsg} {rest : Bytes}

open RedisMsg.toAlmostJson RedisMsg.jsonImage

/-- The text of a string. -/
theorem text_string (type : StringType) (strval : Bytes) :
    (RedisMsg.string type strval.length strval).toAlmostJson beWeird =
      if beWeird then type.quote :: jsonEscapeString strval ++ [type.quote]
      else doubleQuote :: (type.marker ++ jsonEscapeString strval) ++ [doubleQuote] := by
  rw [RedisMsg.toAlmostJson, if_pos (Int.natCast_nonneg _)]
  simp

theorem text_array (elements : List RedisMsg) :
    (RedisMsg.array elements.length elements).toAlmostJson beWeird =
      openBracket :: writeArray beWeird elements.length elements true ++ [closeBracket] := by
  rw [RedisMsg.toAlmostJson, if_pos (Int.natCast_nonneg _), Int.toNat_natCast]

theorem isQuote_quote (type : StringType) : IsQuote type.quote := by
  cases type <;> decide

/-- A text starts with a character that is neither white space nor the end of an array. -/
theorem text_head (beWeird : Bool) (sized : m.Sized) :
    ∃ c text, m.toAlmostJson beWeird = c :: text ∧ ¬JsonSpace c ∧ c ≠ closeBracket := by
  cases sized with
  | string type strval _ =>
      rw [text_string]
      cases beWeird with
      | true =>
          refine ⟨type.quote, jsonEscapeString strval ++ [type.quote], rfl, ?_⟩
          cases type <;> exact ⟨by decide, by decide⟩
      | false => exact ⟨doubleQuote, _, rfl, by decide, by decide⟩
  | nil type =>
      cases beWeird
      · exact ⟨110, _, rfl, by decide, by decide⟩
      · exact ⟨110, _, rfl, by decide, by decide⟩
  | integer ival _ _ =>
      rw [RedisMsg.toAlmostJson, int64ToString, uint64ToString]
      split
      · exact ⟨minus, _, rfl, by decide, by decide⟩
      · have digits := isDigit_of_mem_decimal ival.natAbs
        cases text : decimal ival.natAbs with
        | nil => exact absurd text (decimal_ne_nil _)
        | cons c more =>
            rw [text] at digits
            have digit := digits c List.mem_cons_self
            have facts : ∀ c, IsDigit c → ¬JsonSpace c ∧ c ≠ closeBracket := by
              apply BigEndian.forall_byte
              decide +kernel
            exact ⟨c, more, rfl, facts c digit⟩
  | null => exact ⟨110, _, rfl, by decide, by decide⟩
  | array elements _ _ =>
      rw [text_array]
      exact ⟨openBracket, _, rfl, by decide, by decide⟩

theorem eatWhite_cons {c : UInt8} (notSpace : ¬JsonSpace c) (text : Bytes) :
    eatWhite (c :: text) = c :: text := by
  rw [eatWhite, List.dropWhile_cons_of_neg (by simpa using notSpace)]

theorem eatWhite_text (sized : m.Sized) (more : Bytes) :
    eatWhite (m.toAlmostJson beWeird ++ more) = m.toAlmostJson beWeird ++ more := by
  obtain ⟨c, text, start, notSpace, _⟩ := text_head beWeird sized
  rw [start]
  exact eatWhite_cons notSpace _

theorem parseJson_array (fuel : Nat) (text : Bytes) :
    parseJson mem (fuel + 1) (openBracket :: text) =
      parseValues mem fuel ⟨0, 0, 0⟩ [] (eatWhite text) := by
  rw [parseJson, eatWhite_cons (by decide)]
  rfl

theorem parseJson_quote {quote : UInt8} (isQuote : IsQuote quote) (fuel : Nat) (text : Bytes) :
    parseJson mem (fuel + 1) (quote :: text) = parseString mem quote text := by
  have facts : ∀ q ∈ [doubleQuote, singleQuote, backtick], ¬JsonSpace q ∧ q ≠ openBracket ∧
      (q = singleQuote ∨ q = backtick ∨ q = doubleQuote) := by
    intro q member
    simp only [List.mem_cons, List.not_mem_nil, or_false] at member
    rcases member with rfl | rfl | rfl <;> decide
  obtain ⟨notSpace, notArray, marked⟩ := facts quote isQuote
  rw [parseJson, eatWhite_cons notSpace]
  dsimp only
  rw [if_neg notArray, if_pos marked]

theorem parseJson_number {c : UInt8} (number : IsDigit c ∨ c = minus) (fuel : Nat)
    (text : Bytes) : parseJson mem (fuel + 1) (c :: text) = .ok (parseNumber (c :: text)) := by
  have facts : ∀ c, IsDigit c ∨ c = minus → ¬JsonSpace c ∧ c ≠ openBracket ∧
      ¬(c = singleQuote ∨ c = backtick ∨ c = doubleQuote) := by
    apply BigEndian.forall_byte
    decide +kernel
  obtain ⟨notSpace, notArray, unmarked⟩ := facts c number
  rw [parseJson, eatWhite_cons notSpace]
  dsimp only
  rw [if_neg notArray, if_neg unmarked, if_pos number]

theorem parseJson_null (mem : JsonMem) (fuel : Nat) (rest : Bytes) :
    parseJson mem (fuel + 1) (jsonNull ++ rest) = .ok (.array (-1) [], rest) := by
  rw [jsonNull, List.cons_append, parseJson, eatWhite_cons (by decide)]
  rfl

theorem parseJson_nil (mem : JsonMem) (fuel : Nat) (rest : Bytes) :
    parseJson mem (fuel + 1) (jsonNil ++ rest) = .ok (.string .bulkString (-1) [], rest) := by
  rw [jsonNil, List.cons_append, parseJson, eatWhite_cons (by decide)]
  rfl

/-- The text of an integer is read as the integer. -/
theorem parseJson_integer {ival : Int} (lower : -2 ^ 63 ≤ ival) (upper : ival < 2 ^ 63)
    (fuel : Nat) (ends : NoDigit rest) :
    parseJson mem (fuel + 1) (int64ToString ival ++ rest) = .ok (.integer ival, rest) := by
  have same := parseNumber_int64ToString lower upper ends
  obtain ⟨c, text, start, number⟩ :
      ∃ c text, int64ToString ival = c :: text ∧ (IsDigit c ∨ c = minus) := by
    rw [int64ToString, uint64ToString]
    split
    · exact ⟨minus, _, rfl, .inr rfl⟩
    · have digits := isDigit_of_mem_decimal ival.natAbs
      cases text : decimal ival.natAbs with
      | nil => exact absurd text (decimal_ne_nil _)
      | cons c more =>
          rw [text] at digits
          exact ⟨c, more, rfl, .inl (digits c List.mem_cons_self)⟩
  rw [start] at same ⊢
  rw [List.cons_append, parseJson_number number, ← List.cons_append, same]

/-- A string is read when it has no misread and its length fits. -/
theorem parseString_good (all : Granted mem) {quote : UInt8} (isQuote : IsQuote quote)
    {str : Bytes} (good : ReadsBack quote str) (fits : str.length < 2 ^ 31) (rest : Bytes) :
    parseString mem quote (jsonEscapeString str ++ quote :: rest) =
      .ok (.string (quoteType quote) str.length str, rest) := by
  have read := parseChars_string (b := ⟨[], 8⟩) all isQuote good (Nat.zero_le 8) rest
  rw [parseString, if_pos (all.granted 8), read]
  simp [Except.map, toInt32_of_bounds (i := str.length) (by omega) (by omega)]

/-- A string that is read as itself has no misread. -/
theorem parseString_reads (all : Granted mem) (zero : Zeroed mem) {quote : UInt8}
    (isQuote : IsQuote quote) {str rest' : Bytes} {type : StringType} {len : Int}
    (result : parseString mem quote (jsonEscapeString str ++ quote :: rest) =
      .ok (.string type len str, rest')) :
    ReadsBack quote str ∧ rest' = rest ∧ len = toInt32 str.length := by
  rw [parseString, if_pos (all.granted 8)] at result
  cases read : parseChars mem quote (jsonEscapeString str ++ quote :: rest) ⟨[], 8⟩ with
  | error status =>
      rw [read] at result
      cases result
  | ok value =>
      rw [read] at result
      cases result
      have back := (outcome (b := ⟨[], 8⟩) all zero isQuote (Nat.zero_le 8) read).readsBack isQuote
      exact ⟨back.1, back.2, rfl⟩

/-- The marker of a type is plain. -/
theorem readsBack_marker (type : StringType) {str : Bytes} :
    ReadsBack doubleQuote (type.marker ++ str) ↔ ReadsBack doubleQuote str := by
  have plain : ∀ c ∈ [StringType.char .simpleString, StringType.char .errorString],
      PlainByte doubleQuote c ∧ c ≠ backslash := by
    intro c member
    simp only [List.mem_cons, List.not_mem_nil, or_false] at member
    rcases member with rfl | rfl <;> decide
  have one : ∀ c ∈ [StringType.char .simpleString, StringType.char .errorString],
      ReadsBack doubleQuote ([c] ++ str) ↔ ReadsBack doubleQuote str := by
    intro c member
    refine ⟨fun good => ?_, fun good => .plain (plain c member).1 good⟩
    cases good with
    | plain _ later => exact later
    | quote _ _ _ => exact absurd rfl (plain _ member).2
  cases type with
  | bulkString => exact Iff.rfl
  | simpleString => exact one _ (by simp)
  | errorString => exact one _ (by simp)

theorem escape_marker (type : StringType) (str : Bytes) :
    type.marker ++ jsonEscapeString str = jsonEscapeString (type.marker ++ str) := by
  cases type <;> rfl

/-- The writer and the image, element by element. -/
theorem writeArray_cons (m : RedisMsg) (ms : List RedisMsg) :
    writeArray beWeird (m :: ms).length (m :: ms) true =
      m.toAlmostJson beWeird ++ writeArray beWeird ms.length ms false := by
  rw [List.length_cons, writeArray, if_pos rfl, List.nil_append]

theorem writeArray_nil : writeArray beWeird ([] : List RedisMsg).length [] false = [] := by
  rw [writeArray]
  intro _ _ _ more
  cases more

theorem writeArray_comma (m : RedisMsg) (ms : List RedisMsg) :
    writeArray beWeird (m :: ms).length (m :: ms) false =
      comma :: (m.toAlmostJson beWeird ++ writeArray beWeird ms.length ms false) := by
  rw [List.length_cons, writeArray, if_neg Bool.false_ne_true]
  rfl

theorem length_images (ms : List RedisMsg) : (images beWeird ms).length = ms.length := by
  induction ms with
  | nil => rfl
  | cons m ms ih => rw [images, List.length_cons, List.length_cons, ih]

theorem finish_close (all : Granted mem) (b : JsonBlocks) (elems : List RedisMsg) :
    b.finish mem elems (closeBracket :: rest) =
      .ok (.array (toInt32 elems.length) elems, rest) := by
  unfold JsonBlocks.finish
  dsimp only
  rw [if_neg fun other => other rfl, if_neg fun refused => refused.2 (all.granted _)]

/-- One round of the loop of an array. -/
theorem parseValues_round (sized : m.Sized) (fuel : Nat) (b : JsonBlocks)
    (elems : List RedisMsg) (more : Bytes) :
    parseValues mem (fuel + 1) b elems (m.toAlmostJson beWeird ++ more) =
      (parseJson mem fuel (m.toAlmostJson beWeird ++ more) >>= fun p => b.add mem >>= fun b =>
        if (eatWhite p.2).head? = some comma then
          parseValues mem fuel b (elems ++ [p.1]) (eatWhite (eatWhite p.2).tail)
        else b.finish mem (elems ++ [p.1]) (eatWhite p.2)) := by
  obtain ⟨c, text, start, _, open'⟩ := text_head beWeird sized
  rw [parseValues, if_neg (by rw [start]; simpa using open')]

/-- What follows a value in an array is no white space and no digit. -/
theorem follow_facts (beWeird : Bool) (rest : Bytes) (ms : List RedisMsg) :
    NoDigit (writeArray beWeird ms.length ms false ++ closeBracket :: rest) ∧
      eatWhite (writeArray beWeird ms.length ms false ++ closeBracket :: rest) =
        writeArray beWeird ms.length ms false ++ closeBracket :: rest := by
  cases ms with
  | nil =>
      refine ⟨?_, eatWhite_cons (by decide) _⟩
      intro c head
      cases head
      decide
  | cons m ms =>
      rw [writeArray_comma]
      refine ⟨?_, eatWhite_cons (by decide) _⟩
      intro c head
      cases head
      decide

/-- The values of an array are read when each is and there is room. -/
theorem parseValues_good (ms : List RedisMsg) (rest : Bytes) (fuel : Nat) (all : Granted mem)
    (each : ∀ x ∈ m :: ms, x.Sized ∧ ∀ rest fuel, NoDigit rest →
      (x.toAlmostJson beWeird).length < fuel →
      parseJson mem fuel (x.toAlmostJson beWeird ++ rest) = .ok (x.jsonImage beWeird, rest))
    {b : JsonBlocks} (valid : b.Valid) (room : (m :: ms).length ≤ b.room)
    (enough : (m.toAlmostJson beWeird).length +
      (writeArray beWeird ms.length ms false).length + 1 < fuel) (elems : List RedisMsg) :
    parseValues mem fuel b elems (m.toAlmostJson beWeird ++
        (writeArray beWeird ms.length ms false ++ closeBracket :: rest)) =
      .ok (.array (toInt32 (elems ++ images beWeird (m :: ms)).length)
        (elems ++ images beWeird (m :: ms)), rest) := by
  induction ms generalizing m b fuel elems with
  | nil =>
      obtain ⟨fuel, rfl⟩ : ∃ less, fuel = less + 1 := ⟨fuel - 1, by omega⟩
      obtain ⟨sized, read⟩ := each m List.mem_cons_self
      obtain ⟨ends, white⟩ := follow_facts beWeird rest []
      obtain ⟨b', added, _, _⟩ := b.add_room all valid (by simp at room; omega)
      rw [parseValues_round sized, read _ _ ends (by omega)]
      dsimp only [bind, Except.bind]
      rw [added]
      dsimp only
      rw [white, writeArray_nil, List.nil_append, List.head?_cons, if_neg (by decide),
        finish_close all]
      rfl
  | cons m' ms ih =>
      obtain ⟨fuel, rfl⟩ : ∃ less, fuel = less + 1 := ⟨fuel - 1, by omega⟩
      obtain ⟨sized, read⟩ := each m List.mem_cons_self
      obtain ⟨ends, white⟩ := follow_facts beWeird rest (m' :: ms)
      obtain ⟨b', added, valid', left⟩ := b.add_room all valid (by
        simp only [List.length_cons] at room
        omega)
      have sized' := (each m' (by simp)).1
      have later := ih (m := m') fuel
        (fun x member => each x (List.mem_cons_of_mem _ member)) valid' (by
          simp only [List.length_cons] at room ⊢
          omega) (by
          rw [writeArray_comma] at enough
          simp only [List.length_cons, List.length_append] at enough
          omega) (elems ++ [m.jsonImage beWeird])
      rw [parseValues_round sized, read _ _ ends (by omega)]
      dsimp only [bind, Except.bind]
      rw [added]
      dsimp only
      rw [white, writeArray_comma, List.cons_append, List.head?_cons, if_pos rfl, List.tail_cons,
        List.append_assoc, eatWhite_text sized', later, List.append_assoc]
      rfl

/-- The end of an array keeps the elements. -/
theorem finish_eq {b : JsonBlocks} {elems elems' : List RedisMsg} {text rest' : Bytes} {len : Int}
    (done : b.finish mem elems text = .ok (.array len elems', rest')) : elems = elems' := by
  unfold JsonBlocks.finish at done
  split at done
  · cases done
  · split at done
    · cases done
    · split at done
      · cases done
      · injection done with pair
        injection pair with array
        injection array

/-- The elements of an array start with those that were read before. -/
theorem parseValues_extends {fuel : Nat} {b : JsonBlocks} {elems elems' : List RedisMsg}
    {text rest' : Bytes} {len : Int}
    (result : parseValues mem fuel b elems text = .ok (.array len elems', rest')) :
    elems <+: elems' := by
  induction fuel generalizing b elems text with
  | zero => cases result
  | succ fuel ih =>
      rw [parseValues] at result
      split at result
      · rw [finish_eq result]
      · obtain ⟨⟨value, json⟩, _, next⟩ := bind_eq_ok.mp result
        obtain ⟨b', _, last⟩ := bind_eq_ok.mp next
        have extended : elems ++ [value] <+: elems' := by
          dsimp only at last
          split at last
          · exact ih last
          · rw [finish_eq last]
        exact (List.prefix_append _ _).trans extended

/-- A round that is followed by the image of its message has read this image. -/
theorem round_value {fuel : Nat} {b : JsonBlocks} {value : RedisMsg} {elems : List RedisMsg}
    {json rest' : Bytes} {len : Int}
    (last : (if (eatWhite json).head? = some comma then
        parseValues mem fuel b (elems ++ [value]) (eatWhite (eatWhite json).tail)
      else b.finish mem (elems ++ [value]) (eatWhite json)) =
        .ok (.array len (elems ++ images beWeird (m :: ms)), rest')) :
    value = m.jsonImage beWeird := by
  have extended : elems ++ [value] <+: elems ++ images beWeird (m :: ms) := by
    split at last
    · exact parseValues_extends last
    · rw [finish_eq last]
  rw [List.prefix_append_right_inj, images] at extended
  exact (List.cons_prefix_cons.mp extended).1

/-- When the values of an array are read as themselves, each is, and there was room. -/
theorem parseValues_reads (elems : List RedisMsg) (all : Granted mem)
    (each : ∀ x ∈ m :: ms, x.Sized ∧ ∀ rest rest' fuel, NoDigit rest →
      parseJson mem fuel (x.toAlmostJson beWeird ++ rest) = .ok (x.jsonImage beWeird, rest') →
      Expressible beWeird x ∧ rest' = rest)
    {b : JsonBlocks} (valid : b.Valid) {fuel : Nat} {len : Int} {rest' : Bytes}
    (result : parseValues mem fuel b elems (m.toAlmostJson beWeird ++
        (writeArray beWeird ms.length ms false ++ closeBracket :: rest)) =
      .ok (.array len (elems ++ images beWeird (m :: ms)), rest')) :
    (∀ x ∈ m :: ms, Expressible beWeird x) ∧ (m :: ms).length ≤ b.room ∧ rest' = rest := by
  induction ms generalizing m b fuel elems with
  | nil =>
      cases fuel with
      | zero => cases result
      | succ fuel =>
          obtain ⟨sized, reads⟩ := each m List.mem_cons_self
          obtain ⟨ends, white⟩ := follow_facts beWeird rest []
          rw [parseValues_round sized] at result
          obtain ⟨⟨value, json⟩, first, next⟩ := bind_eq_ok.mp result
          obtain ⟨b', added, last⟩ := bind_eq_ok.mp next
          have same := round_value last
          subst same
          obtain ⟨good, rfl⟩ := reads _ _ _ ends first
          refine ⟨by simpa using good, ?_, ?_⟩
          · exact JsonBlocks.add_ok valid added
          · dsimp only at last
            rw [white, writeArray_nil, List.nil_append, List.head?_cons, if_neg (by decide),
              finish_close all] at last
            injection last with pair
            injection pair with _ tail
            exact tail.symm
  | cons m' ms ih =>
      cases fuel with
      | zero => cases result
      | succ fuel =>
          obtain ⟨sized, reads⟩ := each m List.mem_cons_self
          obtain ⟨ends, white⟩ := follow_facts beWeird rest (m' :: ms)
          rw [parseValues_round sized] at result
          obtain ⟨⟨value, json⟩, first, next⟩ := bind_eq_ok.mp result
          obtain ⟨b', added, last⟩ := bind_eq_ok.mp next
          have same := round_value last
          subst same
          obtain ⟨good, rfl⟩ := reads _ _ _ ends first
          obtain ⟨b'', added', valid', left⟩ := b.add_room all valid (JsonBlocks.add_ok valid added)
          obtain rfl : b' = b'' := by
            rw [added] at added'
            cases added'
            rfl
          have shift : elems ++ images beWeird (m :: m' :: ms) =
              elems ++ [m.jsonImage beWeird] ++ images beWeird (m' :: ms) := by
            rw [images, List.append_cons]
          dsimp only at last
          rw [white, writeArray_comma, List.cons_append, List.head?_cons, if_pos rfl,
            List.tail_cons, List.append_assoc, eatWhite_text (each m' (by simp)).1, shift] at last
          obtain ⟨later, room, rfl⟩ := ih _ (fun x member => each x (List.mem_cons_of_mem _ member))
            valid' last
          refine ⟨?_, ?_, rfl⟩
          · intro x member
            rcases List.mem_cons.mp member with rfl | member
            · exact good
            · exact later x member
          · rw [List.length_cons]
            omega

/-- At the start there is room for the capacity. -/
theorem start_room : (⟨0, 0, 0⟩ : JsonBlocks).Valid ∧
    (⟨0, 0, 0⟩ : JsonBlocks).room = jsonCapacity :=
  ⟨⟨rfl, le_rfl, by decide⟩, rfl⟩

/-- A string comes back without misreads between its quotes. -/
theorem Expressible.string {type : StringType} {strval : Bytes}
    (good : Expressible beWeird (.string type strval.length strval)) :
    if beWeird then ReadsBack type.quote strval
    else ReadsBack doubleQuote strval ∧ (type.marker ++ strval).length < 2 ^ 31 := by
  generalize same : RedisMsg.string type strval.length strval = m at good
  cases good with
  | weird type' strval' isWeird good =>
      injection same with types _ strings
      rw [if_pos isWeird, types, strings]
      exact good
  | normal type' strval' notWeird good fits =>
      injection same with types _ strings
      rw [if_neg (by simp [notWeird]), types, strings]
      exact ⟨good, fits⟩
  | nil type' =>
      injection same with _ lengths
      omega
  | integer => cases same
  | null => cases same
  | array => cases same

theorem Expressible.elements {elements : List RedisMsg}
    (good : Expressible beWeird (.array elements.length elements)) :
    elements.length ≤ jsonCapacity ∧ ∀ m ∈ elements, Expressible beWeird m := by
  generalize same : RedisMsg.array elements.length elements = m at good
  cases good with
  | array elements' fits each =>
      injection same with _ equal
      rw [equal]
      exact ⟨fits, each⟩
  | null =>
      injection same with lengths
      omega
  | weird => cases same
  | normal => cases same
  | nil => cases same
  | integer => cases same

theorem quoteType_quote (type : StringType) : quoteType type.quote = type := by
  cases type <;> rfl

/-- The text of a message without misreads is read as its image. -/
theorem parseJson_good (all : Granted mem) (sized : m.Sized) (good : Expressible beWeird m)
    (rest : Bytes) (fuel : Nat) (ends : NoDigit rest)
    (enough : (m.toAlmostJson beWeird).length < fuel) :
    parseJson mem fuel (m.toAlmostJson beWeird ++ rest) = .ok (m.jsonImage beWeird, rest) := by
  obtain ⟨fuel, rfl⟩ : ∃ less, fuel = less + 1 := ⟨fuel - 1, by omega⟩
  induction sized generalizing rest fuel with
  | string type strval fits =>
      have back := good.string
      rw [text_string, RedisMsg.jsonImage, if_pos (Int.natCast_nonneg _)]
      cases beWeird with
      | true =>
          have read := parseString_good all (isQuote_quote type) back fits rest
          rw [quoteType_quote] at read
          rw [if_pos rfl, List.cons_append, List.cons_append, List.append_assoc,
            parseJson_quote (isQuote_quote type)]
          exact read
      | false =>
          have read := parseString_good all (show IsQuote doubleQuote by decide)
            ((readsBack_marker type).mpr back.1) back.2 rest
          rw [if_neg Bool.false_ne_true, List.cons_append, List.cons_append, List.append_assoc,
            escape_marker, parseJson_quote (show IsQuote doubleQuote by decide)]
          exact read
  | nil type =>
      cases beWeird with
      | true => exact parseJson_nil mem fuel rest
      | false => exact parseJson_null mem fuel rest
  | integer ival lower upper =>
      rw [RedisMsg.toAlmostJson]
      exact parseJson_integer lower upper fuel ends
  | null => exact parseJson_null mem fuel rest
  | array elements fits sized ih =>
      obtain ⟨few, each⟩ := good.elements
      rw [text_array] at enough ⊢
      rw [RedisMsg.jsonImage, List.cons_append, List.cons_append, List.append_assoc,
        parseJson_array]
      cases elements with
      | nil =>
          cases fuel with
          | zero =>
              simp only [List.length_cons, List.length_append] at enough
              omega
          | succ fuel => rfl
      | cons m ms =>
          rw [writeArray_cons] at enough ⊢
          simp only [List.length_cons, List.length_append, List.length_nil] at enough
          have read := parseValues_good (m := m) ms rest fuel all
            (fun x member => ⟨sized x member, fun rest fuel ends enough => by
              obtain ⟨fuel, rfl⟩ : ∃ less, fuel = less + 1 := ⟨fuel - 1, by omega⟩
              exact ih x member (each x member) rest ends fuel enough⟩)
            start_room.1 few (by omega) []
          rw [List.append_assoc, eatWhite_text (sized m List.mem_cons_self)]
          rw [List.nil_append, length_images, toInt32_of_bounds (by omega) (by omega)] at read
          exact read

/-- A message whose text is read as its image has no misread. -/
theorem parseJson_reads (all : Granted mem) (zero : Zeroed mem) (sized : m.Sized)
    (rest rest' : Bytes) (fuel : Nat) (ends : NoDigit rest)
    (result : parseJson mem fuel (m.toAlmostJson beWeird ++ rest) =
      .ok (m.jsonImage beWeird, rest')) : Expressible beWeird m ∧ rest' = rest := by
  cases fuel with
  | zero => cases result
  | succ fuel =>
  induction sized generalizing rest rest' fuel with
  | string type strval fits =>
      rw [text_string, RedisMsg.jsonImage, if_pos (Int.natCast_nonneg _)] at result
      cases weird : beWeird with
      | true =>
          rw [weird, if_pos rfl, if_pos rfl, List.cons_append, List.cons_append,
            List.append_assoc, parseJson_quote (isQuote_quote type)] at result
          obtain ⟨back, tail, _⟩ := parseString_reads all zero (isQuote_quote type) result
          exact ⟨.weird type strval rfl back, tail⟩
      | false =>
          rw [weird, if_neg Bool.false_ne_true, if_neg Bool.false_ne_true, List.cons_append,
            List.cons_append, List.append_assoc, escape_marker,
            parseJson_quote (show IsQuote doubleQuote by decide)] at result
          obtain ⟨back, tail, length⟩ :=
            parseString_reads all zero (show IsQuote doubleQuote by decide) result
          have bound := Int.bmod_lt (x := ((type.marker ++ strval).length : Int)) (m := 2 ^ 32)
            (by decide)
          rw [toInt32] at length
          exact ⟨.normal type strval rfl ((readsBack_marker type).mp back) (by omega), tail⟩
  | nil type =>
      refine ⟨.nil type, ?_⟩
      cases weird : beWeird with
      | true =>
          rw [weird] at result
          have read := (parseJson_nil mem fuel rest).symm.trans result
          injection read with pair
          injection pair with _ tail
          exact tail.symm
      | false =>
          rw [weird] at result
          have read := (parseJson_null mem fuel rest).symm.trans result
          injection read with pair
          injection pair with _ tail
          exact tail.symm
  | integer ival lower upper =>
      refine ⟨.integer ival, ?_⟩
      have read := (parseJson_integer lower upper fuel ends).symm.trans result
      injection read with pair
      injection pair with _ tail
      exact tail.symm
  | null =>
      refine ⟨.null, ?_⟩
      have read := (parseJson_null mem fuel rest).symm.trans result
      injection read with pair
      injection pair with _ tail
      exact tail.symm
  | array elements fits sized ih =>
      rw [text_array, RedisMsg.jsonImage, List.cons_append, List.cons_append, List.append_assoc,
        parseJson_array] at result
      cases elements with
      | nil =>
          cases fuel with
          | zero => cases result
          | succ fuel =>
              refine ⟨.array [] (Nat.zero_le _) (fun x member => by cases member), ?_⟩
              have read : parseValues mem (fuel + 1) ⟨0, 0, 0⟩ []
                  (eatWhite (writeArray beWeird 0 [] true ++ ([closeBracket] ++ rest))) =
                .ok (.array 0 [], rest) := rfl
              have same := read.symm.trans result
              injection same with pair
              injection pair with _ tail
              exact tail.symm
      | cons m ms =>
          rw [writeArray_cons, List.append_assoc,
            eatWhite_text (sized m List.mem_cons_self)] at result
          obtain ⟨each, room, tail⟩ := parseValues_reads [] all
            (fun x member => ⟨sized x member, fun rest rest' fuel ends result => by
              cases fuel with
              | zero => cases result
              | succ fuel => exact ih x member rest rest' ends fuel result⟩)
            start_room.1 result
          exact ⟨.array (m :: ms) room each, tail⟩

/-- Exactly the messages without misreads come back from their text. -/
theorem jsonRoundTrip_iff (beWeird : Bool) (m : RedisMsg) (sized : m.Sized) :
    JsonRoundTrip beWeird m ↔ Expressible beWeird m := by
  have ends : NoDigit [] := by
    intro c head
    cases head
  constructor
  · intro trip
    obtain ⟨consumed, same⟩ := trip ⟨fun _ => true, fun _ => 48⟩ ⟨fun _ => rfl⟩
    unfold unpackJson at same
    cases read : parseJson ⟨fun _ => true, fun _ => 48⟩
        (2 * (m.toAlmostJson beWeird).length + 1) (m.toAlmostJson beWeird) with
    | error status =>
        rw [read] at same
        cases same
    | ok result =>
        obtain ⟨value, rest⟩ := result
        rw [read] at same
        injection same with pair
        injection pair with equal _
        subst equal
        rw [← List.append_nil (m.toAlmostJson beWeird)] at read
        exact (parseJson_reads ⟨fun _ => rfl⟩ (fun _ => rfl) sized [] rest _ ends read).1
  · intro good mem all
    have read := parseJson_good all sized good [] (2 * (m.toAlmostJson beWeird).length + 1) ends
      (by omega)
    rw [List.append_nil] at read
    refine ⟨(m.toAlmostJson beWeird).length, ?_⟩
    rw [unpackJson, read]
    rfl

/-- An array with an escaped quote, a control character and a nil comes back. -/
theorem jsonRoundTrip_nested :
    JsonRoundTrip true (.array 3 [.string .errorString 2 [34, 10], .integer (-7),
      .string .bulkString (-1) []]) := by
  apply (jsonRoundTrip_iff true _ _).mpr
  · apply Expressible.array [.string .errorString 2 [34, 10], .integer (-7),
      .string .bulkString (-1) []] (by rw [jsonCapacity_eq]; decide)
    intro m member
    rcases List.mem_cons.mp member with rfl | member
    · exact .weird .errorString [34, 10] rfl (.plain (by decide) (.plain (by decide) .nil))
    rcases List.mem_cons.mp member with rfl | member
    · exact .integer _
    · rw [List.mem_singleton.mp member]
      exact .nil _
  · apply RedisMsg.Sized.array [.string .errorString 2 [34, 10], .integer (-7),
      .string .bulkString (-1) []] (by decide)
    intro m member
    rcases List.mem_cons.mp member with rfl | member
    · exact .string .errorString [34, 10] (by decide)
    rcases List.mem_cons.mp member with rfl | member
    · exact .integer _ (by decide) (by decide)
    · rw [List.mem_singleton.mp member]
      exact .nil _

/-- A backslash is written as it is and read as an escape. -/
theorem not_jsonRoundTrip_backslash :
    ¬∀ (beWeird : Bool) (m : RedisMsg), m.Sized → JsonRoundTrip beWeird m := by
  intro all
  obtain ⟨consumed, same⟩ := all true (.string .bulkString 2 [92, 110])
    (.string .bulkString [92, 110] (by decide)) ⟨fun _ => true, fun _ => 48⟩ ⟨fun _ => rfl⟩
  have read : unpackJson ⟨fun _ => true, fun _ => 48⟩
      ((RedisMsg.string .bulkString 2 [92, 110]).toAlmostJson true) =
    .ok (.string .bulkString 1 [10], 4) := by decide +kernel
  rw [read] at same
  injection same with pair
  injection pair with equal _
  exact absurd equal (by decide)

end Text

end Raids
