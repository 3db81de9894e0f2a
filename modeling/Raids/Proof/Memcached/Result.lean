import Raids.Construction.Memcached.Result
import Raids.Proof.Memcached.Framing
import Raids.Proof.Msg.Numeral

namespace Raids.Memcached
open Decimal

section Words

/-- A word runs up to the next blank. -/
theorem wordsFrom_open (start : Nat) (read : Bytes) {word : Bytes} (noBlank : space ∉ word)
    (pos : Nat) (line : Bytes) :
    wordsFrom (some ⟨start, read⟩) pos (word ++ space :: line) =
      ⟨start, read ++ word⟩ :: wordsFrom none (pos + word.length + 1) line := by
  induction word generalizing read pos with
  | nil => simp [wordsFrom]
  | cons c word ih =>
      simp only [List.mem_cons, not_or] at noBlank
      rw [List.cons_append, wordsFrom, if_neg (Ne.symm noBlank.1), ih _ noBlank.2,
        List.append_assoc, List.length_cons]
      congr 2
      omega

/-- The last word runs up to the end of the line. -/
theorem wordsFrom_last (start : Nat) (read : Bytes) {word : Bytes} (noBlank : space ∉ word)
    (pos : Nat) : wordsFrom (some ⟨start, read⟩) pos word = [⟨start, read ++ word⟩] := by
  induction word generalizing read pos with
  | nil => simp [wordsFrom]
  | cons c word ih =>
      simp only [List.mem_cons, not_or] at noBlank
      rw [wordsFrom, if_neg (Ne.symm noBlank.1), ih _ noBlank.2, List.append_assoc]
      rfl

/-- The words of a line with one blank between two words. -/
def wordsAt : Nat → List Bytes → List MemcachedArgs
  | _, [] => []
  | pos, word :: words => ⟨pos, word⟩ :: wordsAt (pos + word.length + 1) words

theorem length_wordsAt (pos : Nat) (words : List Bytes) :
    (wordsAt pos words).length = words.length := by
  induction words generalizing pos with
  | nil => rfl
  | cons word words ih => rw [wordsAt, List.length_cons, ih, List.length_cons]

/-- The words of a line are read back. -/
theorem wordsFrom_intercalate {words : List Bytes}
    (plain : ∀ word ∈ words, word ≠ [] ∧ space ∉ word) (pos : Nat) :
    wordsFrom none pos (List.intercalate [space] words) = wordsAt pos words := by
  induction words generalizing pos with
  | nil => rfl
  | cons word words ih =>
      obtain ⟨nonempty, noBlank⟩ := plain word List.mem_cons_self
      obtain ⟨c, rest, rfl⟩ := List.exists_cons_of_ne_nil nonempty
      simp only [List.mem_cons, not_or] at noBlank
      cases words with
      | nil =>
          rw [List.intercalate_singleton, wordsFrom, if_neg (Ne.symm noBlank.1)]
          exact wordsFrom_last pos [c] noBlank.2 (pos + 1)
      | cons next words =>
          have later := ih (fun word member => plain word (List.mem_cons_of_mem _ member))
            (pos + (c :: rest).length + 1)
          rw [List.intercalate_cons_cons, List.cons_append, List.cons_append, wordsFrom,
            if_neg (Ne.symm noBlank.1), List.append_assoc, List.singleton_append, wordsFrom_open _ _ noBlank.2, wordsAt,
            ← later, List.length_cons, Nat.add_assoc pos 1, Nat.add_comm 1]
          rfl

end Words

/-- A printed word of 64 bits is read back. -/
theorem getU64_uint64ToString {v : Nat} (fits : v < 2 ^ 64) :
    getU64 (uint64ToString v) = .ok v := by
  have short : (decimal v).length ≤ 20 := by
    rw [length_decimal_le_iff (by decide)]
    omega
  have read := stringToUint_digits false (isDigit_of_mem_decimal v) (decimal_ne_nil v) short
  rw [value_decimal, uintOfDigits, if_pos ⟨fits, by simp⟩] at read
  rw [getU64, uint64ToString, show decimal v = signBytes false ++ decimal v from rfl, read]
  rfl

/-- A printed word of 32 bits is read back. -/
theorem getU32_uint64ToString {v : Nat} (fits : v < 2 ^ 32) :
    getU32 (uint64ToString v) = .ok v := by
  rw [getU32, getU64_uint64ToString (by omega)]
  dsimp only
  rw [if_neg (by omega)]

section Value

variable {key data : Bytes} {flags cas : Nat}

/-- The words behind the first one of the line of a value. -/
def valueWords (key : Bytes) (flags : Nat) (data : Bytes) (cas : Nat) : List Bytes :=
  [key, uint64ToString flags, uint64ToString data.length] ++
    if cas ≠ 0 then [uint64ToString cas] else []

/-- The line of a value. -/
def valueLine (key : Bytes) (flags : Nat) (data : Bytes) (cas : Nat) : Bytes :=
  text "VALUE " ++ List.intercalate [space] (valueWords key flags data cas)

/-- A block is a line and its data. -/
theorem formatValue_eq (isEnd : Bool) :
    formatValue key flags data cas isEnd =
      valueLine key flags data cas ++ cr :: lf :: (data ++ cr :: lf ::
        (if isEnd then text "END" ++ [cr, lf] else [])) := by
  have blank : text " " = [space] := rfl
  rw [formatValue, valueLine, valueWords, blank]
  cases isEnd <;> rcases Decidable.em (cas = 0) with none | serial
  all_goals simp [*, List.intercalate]

/-- A number has no blank and no byte of a line end. -/
theorem not_mem_uint64ToString {v : Nat} {c : UInt8} (low : c ≤ 32) : c ∉ uint64ToString v := by
  intro member
  have digit := isDigit_iff.mp (isDigit_of_mem_decimal v c member)
  rw [UInt8.le_iff_toNat_le] at low
  have bound : (32 : UInt8).toNat = 32 := rfl
  omega

/-- The words of a value have no blank and no byte of a line end. -/
theorem not_mem_valueWords (printable : ∀ c ∈ key, 32 < c) {c : UInt8} (low : c ≤ 32) :
    ∀ word ∈ valueWords key flags data cas, c ∉ word := by
  have noKey : c ∉ key := fun member => absurd low (UInt8.not_le.mpr (printable c member))
  intro word member
  rw [valueWords] at member
  rcases Decidable.em (cas = 0) with none | serial
  · simp only [none, ne_eq, not_true, if_false, List.append_nil, List.mem_cons,
      List.not_mem_nil, or_false] at member
    rcases member with rfl | rfl | rfl
    · exact noKey
    · exact not_mem_uint64ToString low
    · exact not_mem_uint64ToString low
  · simp only [ne_eq, serial, not_false_eq_true, if_true, List.mem_append, List.mem_cons,
      List.not_mem_nil, or_false] at member
    rcases member with (rfl | rfl | rfl) | rfl
    · exact noKey
    · exact not_mem_uint64ToString low
    · exact not_mem_uint64ToString low
    · exact not_mem_uint64ToString low

/-- No word of a value is empty. -/
theorem ne_nil_of_mem_valueWords (nonempty : key ≠ []) {word : Bytes}
    (member : word ∈ valueWords key flags data cas) : word ≠ [] := by
  rw [valueWords, List.mem_append] at member
  rcases member with first | last
  · simp only [List.mem_cons, List.not_mem_nil, or_false] at first
    rcases first with rfl | rfl | rfl
    · exact nonempty
    · exact decimal_ne_nil _
    · exact decimal_ne_nil _
  · split at last
    · rw [List.mem_singleton.mp last]
      exact decimal_ne_nil _
    · cases last

/-- The bytes of a line are those of its words and the blanks between them. -/
theorem mem_intercalate {c : UInt8} {words : List Bytes}
    (member : c ∈ List.intercalate [space] words) : c = space ∨ ∃ word ∈ words, c ∈ word := by
  induction words with
  | nil => cases member
  | cons word words ih =>
      cases words with
      | nil =>
          rw [List.intercalate_singleton] at member
          exact .inr ⟨word, List.mem_singleton_self word, member⟩
      | cons next words =>
          rw [List.intercalate_cons_cons, List.mem_append, List.mem_append] at member
          rcases member with (here | blank) | later
          · exact .inr ⟨word, List.mem_cons_self, here⟩
          · exact .inl (List.mem_singleton.mp blank)
          · rcases ih later with blank | ⟨word', there, member⟩
            · exact .inl blank
            · exact .inr ⟨word', List.mem_cons_of_mem _ there, member⟩

/-- The line of a value has no byte of a line end. -/
theorem not_mem_valueLine (printable : ∀ c ∈ key, 32 < c) {c : UInt8} (low : c < 32) :
    c ∉ valueLine key flags data cas := by
  intro member
  rw [valueLine, List.mem_append] at member
  rcases member with word | args
  · have high : ∀ d ∈ text "VALUE ", ¬d < 32 := by simp [text]
    exact high c word low
  · rcases mem_intercalate args with blank | ⟨word, there, member⟩
    · rw [blank] at low
      exact absurd low (by decide)
    · exact not_mem_valueWords printable (UInt8.le_of_lt low) word there member

/-- The parser finds the line of a value. -/
theorem commandLine_value (printable : ∀ c ∈ key, 32 < c) (rest : Bytes) :
    eol (valueLine key flags data cas ++ cr :: lf :: rest) =
        (valueLine key flags data cas).length + 1 ∧
      commandLine (valueLine key flags data cas ++ cr :: lf :: rest) =
        valueLine key flags data cas := by
  have noLf : lf ∉ valueLine key flags data cas ++ [cr] := by
    rw [List.mem_append, not_or]
    exact ⟨not_mem_valueLine printable (by decide), by decide⟩
  have whole : valueLine key flags data cas ++ cr :: lf :: rest =
      (valueLine key flags data cas ++ [cr]) ++ lf :: rest := by simp
  rw [whole]
  apply And.intro
  · rw [eol_append noLf, List.length_append]
    rfl
  · rw [commandLine_append noLf, dropCr]
    simp

/-- The words of a value are the arguments of its response. -/
theorem parseValueResult_value (short : key.length < 2 ^ 16) (word : flags < 2 ^ 32)
    (serial : cas < 2 ^ 64) (size : data.length < 2 ^ 64) {m : MemcachedRes} (fresh : m.cas = 0)
    (args : m.args = wordsAt 6 (valueWords key flags data cas)) :
    m.parseValueResult =
      (.ok, { m with key := some ⟨6, key⟩, flags := flags, msglen := data.length, cas := cas }) := by
  have keyBytes : key.take (key.length % 2 ^ 16) = key := by
    rw [Nat.mod_eq_of_lt short, List.take_length]
  rcases Decidable.em (cas = 0) with none | some'
  · have words : m.args = wordsAt 6
        [key, uint64ToString flags, uint64ToString data.length] := by
      rw [args, valueWords, none]
      rfl
    rw [MemcachedRes.parseValueResult, if_neg (by rw [words, length_wordsAt]; simp)]
    simp only [MemcachedRes.keyOf, MemcachedRes.arg, words, wordsAt, List.map_cons,
      List.getD_cons_succ, List.getD_cons_zero, getU32_uint64ToString word,
      getU64_uint64ToString size, List.head?_cons, Option.map_some, keyBytes, List.length_cons,
      List.length_nil]
    rw [if_neg (by decide), none, ← fresh]
  · have words : m.args = wordsAt 6
        [key, uint64ToString flags, uint64ToString data.length, uint64ToString cas] := by
      rw [args, valueWords, if_pos some']
      rfl
    rw [MemcachedRes.parseValueResult, if_neg (by rw [words, length_wordsAt]; simp)]
    simp only [MemcachedRes.keyOf, MemcachedRes.arg, words, wordsAt, List.map_cons,
      List.getD_cons_succ, List.getD_cons_zero, getU32_uint64ToString word,
      getU64_uint64ToString size, getU64_uint64ToString serial, List.head?_cons, Option.map_some,
      keyBytes, List.length_cons, List.length_nil]
    rw [if_pos (by decide)]

/-- The line of a value is a value for the parser. -/
theorem strToResult_value (rest : Bytes) :
    strToResult (valueLine key flags data cas ++ rest) (valueLine key flags data cas).length =
      .mrValue := by
  have letters : text "VALUE " = [86, 65, 76, 85, 69, 32] := by rfl
  generalize tail : List.intercalate [space] (valueWords key flags data cas) = args
  rw [valueLine, tail, letters]
  have notInt : startsInt ([86, 65, 76, 85, 69, 32] ++ args ++ rest)
      ([86, 65, 76, 85, 69, 32] ++ args).length = false := by
    simp [startsInt]
  have keyword : c4Kw ([86, 65, 76, 85, 69, 32] ++ args ++ rest) = [86, 65, 76, 85] := by
    simp only [c4Kw, List.range_succ, List.range_zero, List.nil_append, List.cons_append,
      List.map_cons, List.map_nil, List.getD_cons_zero, List.getD_cons_succ]
    decide
  rw [strToResult, notInt, if_neg (by simp), if_neg (by simp), keyword, if_neg (by decide)]
  rfl

/-- The arguments of a value start behind its first word. -/
theorem argsFrom_value : argsFrom (valueLine key flags data cas) = 6 ∧
    (valueLine key flags data cas).drop 6 =
      List.intercalate [space] (valueWords key flags data cas) := by
  have letters : text "VALUE " = [86, 65, 76, 85, 69, 32] := by rfl
  rw [valueLine, letters]
  exact ⟨rfl, rfl⟩

/-- The arguments of the line of a value are its words. -/
theorem parseMcargs_value {room : Nat → Bool} (memory : ∀ n, room n = true) (nonempty : key ≠ [])
    (printable : ∀ c ∈ key, 32 < c) :
    parseMcargs room (argsFrom (valueLine key flags data cas))
        ((valueLine key flags data cas).drop (argsFrom (valueLine key flags data cas))) =
      wordsAt 6 (valueWords key flags data cas) := by
  have plain : ∀ word ∈ valueWords key flags data cas, word ≠ [] ∧ space ∉ word := by
    intro word member
    apply And.intro (ne_nil_of_mem_valueWords nonempty member)
    exact not_mem_valueWords printable (by decide) word member
  obtain ⟨start, args⟩ := @argsFrom_value key data flags cas
  rw [start, args, parseMcargs, wordsFrom_intercalate plain]
  exact if_pos (.inr (memory _))

/-- A block of a value is its line and what the value reader takes behind it. -/
theorem unpackRes_line {room : Nat → Bool} (memory : ∀ n, room n = true) (nonempty : key ≠ [])
    (printable : ∀ c ∈ key, 32 < c) (rest : Bytes) :
    unpackRes room (valueLine key flags data cas ++ cr :: lf :: rest) =
      unpackValue (valueLine key flags data cas ++ cr :: lf :: rest)
        ((valueLine key flags data cas).length + 2)
        { args := wordsAt 6 (valueWords key flags data cas), res := .mrValue } := by
  obtain ⟨ends, line⟩ := @commandLine_value key data flags cas printable rest
  rw [unpackRes, if_neg (by rw [ends]; simp), ends, line]
  simp only [strToResult_value, parseMcargs_value memory nonempty printable]

/-- The end line of the last block stands behind it. -/
theorem formatValue_end (isEnd : Bool) :
    formatValue key flags data cas isEnd = formatValue key flags data cas false ++
      (if isEnd then text "END" ++ [cr, lf] else []) := by
  rw [formatValue_eq, formatValue_eq]
  simp

/-- The parser gives back what the formatter wrote, whatever stands behind the block. -/
theorem unpackRes_formatValue {room : Nat → Bool} (memory : ∀ n, room n = true)
    (nonempty : key ≠ []) (printable : ∀ c ∈ key, 32 < c) (short : key.length < 2 ^ 16)
    (word : flags < 2 ^ 32) (serial : cas < 2 ^ 64)
    (size : (formatValue key flags data cas false).length < 2 ^ 64) (isEnd : Bool)
    (rest : Bytes) :
    ∃ res, unpackRes room (formatValue key flags data cas isEnd ++ rest) =
        ⟨.ok, (formatValue key flags data cas false).length, res⟩ ∧
      res.res = .mrValue ∧ res.key.map (·.str) = some key ∧ res.flags = flags ∧
      res.msglen = data.length ∧ res.cas = cas ∧
      res.msg = some ⟨(valueLine key flags data cas).length + 2, data⟩ := by
  have block : formatValue key flags data cas false =
      valueLine key flags data cas ++ cr :: lf :: (data ++ [cr, lf]) := formatValue_eq false
  obtain ⟨behindBlock, tail⟩ : ∃ behindBlock, behindBlock =
      (if isEnd then text "END" ++ [cr, lf] else []) ++ rest := ⟨_, rfl⟩
  have whole : formatValue key flags data cas isEnd ++ rest =
      valueLine key flags data cas ++ cr :: lf :: (data ++ ([cr, lf] ++ behindBlock)) := by
    rw [formatValue_end, block, tail]
    simp
  have length : (formatValue key flags data cas false).length =
      (valueLine key flags data cas).length + 2 + data.length + 2 := by
    rw [block]
    simp
    omega
  rw [length] at size
  let fresh : MemcachedRes :=
    { args := wordsAt 6 (valueWords key flags data cas), res := .mrValue }
  have value := parseValueResult_value (m := fresh) short word serial (by omega) rfl rfl
  have behind : (valueLine key flags data cas ++ cr :: lf :: (data ++ ([cr, lf] ++ behindBlock))).drop
      ((valueLine key flags data cas).length + 2) = data ++ ([cr, lf] ++ behindBlock) := by
    rw [List.drop_append, List.drop_of_length_le (by omega), Nat.add_sub_cancel_left]
    rfl
  refine ⟨{ fresh with
    key := Option.some ⟨6, key⟩, flags, msglen := data.length, cas,
    msg := Option.some ⟨(valueLine key flags data cas).length + 2, data⟩ },
    ?_, rfl, rfl, rfl, rfl, rfl, rfl⟩
  rw [whole, unpackRes_line memory nonempty printable, unpackValue, value]
  dsimp only
  rw [behind, Nat.mod_eq_of_lt size, if_neg (by simp; omega), length, List.take_left']
  rfl

/-- A value with an end line in it is read back in front of another block. -/
theorem unpackRes_endInside :
    ∃ res, unpackRes (fun _ => true)
        (formatValue (text "k") 5 [cr, lf, 69, 78, 68, cr, lf] 7 false ++
          formatValue (text "l") 0 [] 0 true) =
        ⟨.ok, (formatValue (text "k") 5 [cr, lf, 69, 78, 68, cr, lf] 7 false).length, res⟩ ∧
      res.res = .mrValue ∧ res.key.map (·.str) = some (text "k") ∧ res.flags = 5 ∧
      res.msglen = 7 ∧ res.cas = 7 ∧
      res.msg = some ⟨(valueLine (text "k") 5 [cr, lf, 69, 78, 68, cr, lf] 7).length + 2,
        [cr, lf, 69, 78, 68, cr, lf]⟩ :=
  unpackRes_formatValue (fun _ => rfl) (by simp [text]) (by simp [text]) (by simp [text])
    (by decide) (by decide) (by decide) false _

end Value

end Raids.Memcached
