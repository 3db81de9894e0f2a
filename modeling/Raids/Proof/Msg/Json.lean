import Raids.Construction.Msg.Json
import Raids.Library.Endian

namespace Raids
open Decimal BigEndian

/-- The bytes that a string between these quotes gets back one by one. -/
def PlainByte (quote c : UInt8) : Prop :=
  (c ≤ 10 ∨ c = 12 ∨ c = 13 ∨ (32 ≤ c ∧ c ≤ 126)) ∧ c ≠ backslash ∧
    (c = backtick → quote ≠ backtick)

instance (quote c : UInt8) : Decidable (PlainByte quote c) :=
  inferInstanceAs (Decidable (_ ∧ _))

/-- A string that is read back: its bytes are plain, and each backslash stands before the quote
that is not the string's own. -/
inductive ReadsBack (quote : UInt8) : Bytes → Prop where
  | nil : ReadsBack quote []
  | plain {c : UInt8} {str : Bytes} (byte : PlainByte quote c) (later : ReadsBack quote str) :
      ReadsBack quote (c :: str)
  | quote {e : UInt8} {str : Bytes} (isQuote : e = singleQuote ∨ e = doubleQuote)
      (other : e ≠ quote) (later : ReadsBack quote str) : ReadsBack quote (backslash :: e :: str)

/-- The quotes of the writer. -/
def IsQuote (quote : UInt8) : Prop := quote ∈ [doubleQuote, singleQuote, backtick]

instance (quote : UInt8) : Decidable (IsQuote quote) := inferInstanceAs (Decidable (_ ∈ _))

/-- The memory grants every request; what its blocks hold is open. -/
structure Granted (mem : JsonMem) : Prop where
  granted : ∀ size, mem.wrk size = true

namespace JsonString

/-- The string is inside its block. -/
def Fits (b : JsonString) : Prop := b.str.length ≤ b.sz

variable {mem : JsonMem} {b : JsonString}

theorem extend_eq (all : Granted mem) (b : JsonString) :
    b.extend mem = .ok ⟨b.str ++ (List.range' b.str.length (b.sz - b.str.length)).map mem.fill,
      b.sz + 16⟩ := by
  rw [extend, if_pos (all.granted _)]

/-- Room for one more byte changes the block only. -/
theorem reserve_full (all : Granted mem) (fits : b.Fits) :
    ∃ sz, b.reserve mem (b.str.length = b.sz) = .ok ⟨b.str, sz⟩ ∧ b.str.length < sz := by
  unfold Fits at fits
  unfold reserve
  by_cases full : b.str.length = b.sz
  · refine ⟨b.sz + 16, ?_, by omega⟩
    rw [if_pos (by simpa using full), extend_eq all, full, Nat.sub_self]
    simp
  · refine ⟨b.sz, ?_, by omega⟩
    rw [if_neg (by simpa using full)]

end JsonString

/-- The UTF-8 encoding of a character below `0x800`. -/
def utf8 (uchar : Nat) : Bytes :=
  if uchar ≤ 0x7f then [UInt8.ofNat uchar]
  else if uchar ≤ 0x7ff then
    [UInt8.ofNat (0xc0 ||| uchar >>> 6), UInt8.ofNat (0x80 ||| (uchar &&& 0x3f))]
  else
    [UInt8.ofNat (0xe0 ||| uchar >>> 12), UInt8.ofNat (0x80 ||| (uchar &&& 0xfc0) >>> 6),
      UInt8.ofNat (0x80 ||| (uchar &&& 0x3f))]

section Chars

variable {mem : JsonMem} {quote : UInt8} {b : JsonString}

open JsonString

/-- A character is written behind bytes that a new block may leave. -/
theorem putUchar_eq (all : Granted mem) (uchar : Nat) (room : b.str.length < b.sz) :
    ∃ gap sz, b.putUchar mem uchar = .ok ⟨b.str ++ (gap.map mem.fill ++ utf8 uchar), sz⟩ ∧
      (b.str ++ (gap.map mem.fill ++ utf8 uchar)).length ≤ sz ∧ (uchar ≤ 0x7f → gap = []) := by
  unfold putUchar utf8
  by_cases one : uchar ≤ 0x7f
  · refine ⟨[], b.sz, ?_, ?_, fun _ => rfl⟩
    · rw [if_pos one, if_pos one]
      rfl
    · simp [one]
      omega
  by_cases two : uchar ≤ 0x7ff
  · simp only [if_neg one, if_pos two]
    unfold reserve
    by_cases full : b.str.length + 1 = b.sz
    · refine ⟨List.range' b.str.length (b.sz - b.str.length), b.sz + 16, ?_, ?_,
        fun small => absurd small one⟩
      · rw [if_pos (by simpa using full), extend_eq all]
        simp [Except.bind, bind, pure, Except.pure, put, List.append_assoc]
      · simp
        omega
    · refine ⟨[], b.sz, ?_, ?_, fun small => absurd small one⟩
      · rw [if_neg (by simpa using full)]
        simp [Except.bind, bind, pure, Except.pure, put]
      · simp
        omega
  · simp only [if_neg one, if_neg two]
    unfold reserve
    by_cases full : b.sz ≤ b.str.length + 2
    · refine ⟨List.range' b.str.length (b.sz - b.str.length), b.sz + 16, ?_, ?_,
        fun small => absurd small one⟩
      · rw [if_pos (by simpa using full), extend_eq all]
        simp [Except.bind, bind, pure, Except.pure, put, List.append_assoc]
      · simp
        omega
    · refine ⟨[], b.sz, ?_, ?_, fun small => absurd small one⟩
      · rw [if_neg (by simpa using full)]
        simp [Except.bind, bind, pure, Except.pure, put]
      · simp
        omega

/-- The text is read as `out`, and the loop goes on with the rest. -/
def Reads (mem : JsonMem) (quote : UInt8) (text rest : Bytes) (b : JsonString)
    (out : Bytes) : Prop :=
  ∃ sz, parseChars mem quote (text ++ rest) b = parseChars mem quote rest ⟨b.str ++ out, sz⟩ ∧
    (b.str ++ out).length ≤ sz

/-- One text after the other. -/
theorem Reads.append {text text' rest out out' : Bytes}
    (first : Reads mem quote text (text' ++ rest) b out)
    (second : ∀ sz, (b.str ++ out).length ≤ sz →
      Reads mem quote text' rest ⟨b.str ++ out, sz⟩ out') :
    Reads mem quote (text ++ text') rest b (out ++ out') := by
  obtain ⟨sz, same, fits⟩ := first
  obtain ⟨sz', same', fits'⟩ := second sz fits
  refine ⟨sz', ?_, ?_⟩
  · rw [List.append_assoc, same, same', List.append_assoc]
  · rwa [← List.append_assoc]

theorem reads_end (all : Granted mem) (fits : b.Fits) (rest : Bytes) :
    parseChars mem quote (quote :: rest) b = .ok (b.str, rest) := by
  obtain ⟨sz, reserved, _⟩ := reserve_full all fits
  unfold parseChars
  rw [reserved]
  simp [bind, Except.bind]

theorem reads_plain (all : Granted mem) (fits : b.Fits) {c : UInt8} (notQuote : c ≠ quote)
    (notEscape : c ≠ backslash) (rest : Bytes) : Reads mem quote [c] rest b [c] := by
  obtain ⟨sz, reserved, room⟩ := reserve_full all fits
  refine ⟨sz, ?_, by simpa using room⟩
  rw [List.singleton_append, parseChars, reserved]
  simp [bind, Except.bind, notQuote, notEscape, put]

theorem reads_escape (all : Granted mem) (fits : b.Fits) (isQuote : quote ≠ backslash)
    {e : UInt8} (notHex : e ≠ 120) (notUchar : e ≠ 117) (rest : Bytes) :
    Reads mem quote [backslash, e] rest b [unescape e] := by
  obtain ⟨sz, reserved, room⟩ := reserve_full all fits
  refine ⟨sz, ?_, by simpa using room⟩
  show parseChars mem quote (backslash :: e :: rest) b = _
  rw [parseChars, reserved]
  simp [bind, Except.bind, isQuote.symm, notHex, notUchar, put]

theorem reads_hex (all : Granted mem) (fits : b.Fits) (isQuote : quote ≠ backslash)
    {h₁ h₂ : UInt8} {v₁ v₂ : Nat} (first : hexValue h₁ = some v₁) (second : hexValue h₂ = some v₂)
    (rest : Bytes) :
    Reads mem quote [backslash, 120, h₁, h₂] rest b [UInt8.ofNat (v₁ <<< 8 ||| v₂)] := by
  obtain ⟨sz, reserved, room⟩ := reserve_full all fits
  refine ⟨sz, ?_, by simpa using room⟩
  show parseChars mem quote (backslash :: 120 :: h₁ :: h₂ :: rest) b = _
  rw [parseChars, reserved]
  simp [bind, Except.bind, isQuote.symm, first, second, put]

/-- A character code is read as its encoding behind what a new block may leave. -/
theorem reads_uchar (all : Granted mem) (fits : b.Fits) (isQuote : quote ≠ backslash)
    {h₁ h₂ h₃ h₄ : UInt8} {v₁ v₂ v₃ v₄ : Nat} (first : hexValue h₁ = some v₁)
    (second : hexValue h₂ = some v₂) (third : hexValue h₃ = some v₃)
    (fourth : hexValue h₄ = some v₄) (rest : Bytes) :
    ∃ gap, Reads mem quote [backslash, 117, h₁, h₂, h₃, h₄] rest b
        (gap.map mem.fill ++ utf8 (v₁ <<< 12 ||| v₂ <<< 8 ||| v₃ <<< 4 ||| v₄)) ∧
      ((v₁ <<< 12 ||| v₂ <<< 8 ||| v₃ <<< 4 ||| v₄) ≤ 0x7f → gap = []) := by
  obtain ⟨sz, reserved, room⟩ := reserve_full all fits
  obtain ⟨gap, sz', written, inside, small⟩ := putUchar_eq (b := ⟨b.str, sz⟩) all
    (v₁ <<< 12 ||| v₂ <<< 8 ||| v₃ <<< 4 ||| v₄) room
  refine ⟨gap, ⟨sz', ?_, inside⟩, small⟩
  show parseChars mem quote (backslash :: 117 :: h₁ :: h₂ :: h₃ :: h₄ :: rest) b = _
  rw [parseChars, reserved]
  simp [bind, Except.bind, isQuote.symm, first, second, third, fourth, written]

end Chars

section Weights

/-- A weight that each misread of the reader lowers: a backslash weighs most, a byte above the
printable ones less than nothing. -/
def weight (c : UInt8) : Int :=
  if c = backslash then 10
  else if c = 99 ∨ c = 67 then 3
  else if c = 117 then -2
  else if c ≤ 10 ∨ c = 12 ∨ c = 13 then 1
  else if c = 11 then 3
  else if c ≤ 19 then 2
  else if c < 32 then 1
  else if 126 < c then -1
  else 0

/-- A weight that no misread raises, in which the quotes count. -/
def mark (c : UInt8) : Nat :=
  if c = backslash then 2
  else if c < 32 ∨ c = doubleQuote ∨ c = singleQuote ∨ c = backtick then 1
  else 0

/-- The weight of a string. -/
def total {β : Type} [AddCommMonoid β] (f : UInt8 → β) (str : Bytes) : β := (str.map f).sum

@[simp] theorem total_nil {β : Type} [AddCommMonoid β] (f : UInt8 → β) : total f [] = 0 := rfl

@[simp] theorem total_cons {β : Type} [AddCommMonoid β] (f : UInt8 → β) (c : UInt8)
    (str : Bytes) : total f (c :: str) = f c + total f str := by
  simp [total]

theorem total_append {β : Type} [AddCommMonoid β] (f : UInt8 → β) (str str' : Bytes) :
    total f (str ++ str') = total f str + total f str' := by
  simp [total]

/-- What a misread does: the output weighs less than what was consumed, is marked no more, and
has no fewer quotes. -/
structure Lossy (quote : UInt8) (consumed out : Bytes) : Prop where
  lighter : total weight out < total weight consumed
  marks : total mark out ≤ total mark consumed
  quotes : consumed.count quote ≤ out.count quote

/-- The bytes that the reader takes at once, and what it reads. -/
inductive Token (quote : UInt8) : Bytes → Bytes → Prop where
  | plain {c : UInt8} (byte : PlainByte quote c) : Token quote [c] [c]
  | quote {e : UInt8} (isQuote : e = singleQuote ∨ e = doubleQuote) (other : e ≠ quote) :
      Token quote [backslash, e] [backslash, e]
  | lossy {consumed out : Bytes} (lossy : Lossy quote consumed out) : Token quote consumed out

/-- A string is read token by token. -/
inductive Tokens (quote : UInt8) : Bytes → Bytes → Prop where
  | nil : Tokens quote [] []
  | cons {consumed out str str' : Bytes} (token : Token quote consumed out)
      (later : Tokens quote str str') : Tokens quote (consumed ++ str) (out ++ str')

namespace Tokens

variable {quote : UInt8} {str str' : Bytes}

theorem weight_le (tokens : Tokens quote str str') : total weight str' ≤ total weight str := by
  induction tokens with
  | nil => exact le_rfl
  | cons token _ ih =>
      rw [total_append, total_append]
      cases token with
      | plain _ => omega
      | quote _ _ => omega
      | lossy lossy =>
          have lighter := lossy.lighter
          omega

theorem mark_le (tokens : Tokens quote str str') :
    total mark str' ≤ total mark str := by
  induction tokens with
  | nil => exact le_rfl
  | cons token _ ih =>
      rw [total_append, total_append]
      cases token with
      | plain _ => omega
      | quote _ _ => omega
      | lossy lossy =>
          have marks := lossy.marks
          omega

theorem count_le (tokens : Tokens quote str str') : str.count quote ≤ str'.count quote := by
  induction tokens with
  | nil => exact le_rfl
  | cons token _ ih =>
      rw [List.count_append, List.count_append]
      cases token with
      | plain _ => omega
      | quote _ _ => omega
      | lossy lossy =>
          have quotes := lossy.quotes
          omega

/-- A string that keeps its weight has no misread. -/
theorem readsBack (tokens : Tokens quote str str') (same : total weight str' = total weight str) :
    ReadsBack quote str := by
  induction tokens with
  | nil => exact .nil
  | cons token later ih =>
      rw [total_append, total_append] at same
      have below := later.weight_le
      cases token with
      | plain byte => exact .plain byte (ih (by omega))
      | quote isQuote other => exact .quote isQuote other (ih (by omega))
      | lossy lossy =>
          have lighter := lossy.lighter
          omega

end Tokens

/-- The character that the decimal digits of a byte write when they are read in hexadecimal. -/
def decimalAsHex (c : UInt8) : Nat :=
  0 <<< 12 ||| (c.toNat / 100 % 10) <<< 8 ||| (c.toNat / 10 % 10) <<< 4 ||| c.toNat % 10

theorem hexValue_digit {d : Nat} (small : d < 10) : hexValue (digit d) = some d := by
  have all : ∀ d < 10, hexValue (digit d) = some d := by decide
  exact all d small

/-- The bytes that are written as a code. -/
def IsCoded (c : UInt8) : Prop := ¬(32 ≤ c ∧ c ≤ 126) ∧ escapeLetter c = none

instance (c : UInt8) : Decidable (IsCoded c) := inferInstanceAs (Decidable (_ ∧ _))

theorem jsonEscape_coded {c : UInt8} (coded : IsCoded c) :
    jsonEscape c = [backslash, 117, 48, digit (c.toNat / 100 % 10), digit (c.toNat / 10 % 10),
      digit (c.toNat % 10)] := by
  rw [jsonEscape, if_neg coded.1, coded.2]

variable {quote c : UInt8}

/-- A quote is printable and has no other meaning. -/
theorem IsQuote.facts (isQuote : IsQuote quote) : quote ≠ backslash ∧ quote ≠ 120 ∧
    quote ≠ 117 ∧ hexValue quote = none ∧ unescape quote = quote ∧ 32 ≤ quote ∧ quote < 97 ∧
    mark quote = 1 := by
  have all : ∀ q ∈ [doubleQuote, singleQuote, backtick], q ≠ backslash ∧ q ≠ 120 ∧ q ≠ 117 ∧
      hexValue q = none ∧ unescape q = q ∧ 32 ≤ q ∧ q < 97 ∧ mark q = 1 := by decide +kernel
  exact all quote isQuote

/-- The weights of a backslash, of the letters of codes and of digits. -/
theorem weight_marks : weight backslash = 10 ∧ weight 117 = -2 ∧ weight 120 = 0 ∧
    mark backslash = 2 ∧ mark 117 = 0 ∧ mark 120 = 0 ∧
    ∀ d < 10, weight (digit d) = 0 ∧ mark (digit d) = 0 := by
  decide

/-- What each byte weighs, with the byte that it is read as, when it is written with an escape
letter, as an escaped character, as a code or as a hexadecimal digit. -/
theorem byte_weights :
    (∀ c : UInt8, 127 ≤ c → weight c = -1 ∧ mark c = 0) ∧
      (∀ c, (escapeLetter c).all fun letter => weight letter < weight c ∧
        mark letter ≤ mark c ∧ c < 32 ∧ 97 ≤ letter) ∧
      (∀ c, weight (unescape c) < 10 + weight c ∧ mark (unescape c) ≤ 2 + mark c) ∧
      (∀ c, IsCoded c → -2 < weight c ∧ (c < 32 ∨ 127 ≤ c)) ∧
      (∀ c, IsCoded c → c < 127 → decimalAsHex c ≤ 0x7f ∧ (c ≤ 10 ∧
        UInt8.ofNat (decimalAsHex c) = c ∨ weight (UInt8.ofNat (decimalAsHex c)) < weight c ∧
          mark (UInt8.ofNat (decimalAsHex c)) ≤ mark c)) ∧
      (∀ c, ∀ v ∈ hexValue c, v < 16 ∧ weight c = (if v = 12 then 3 else 0) ∧ mark c = 0) ∧
      (∀ c, 127 ≤ c → 0x7f < decimalAsHex c ∧ decimalAsHex c ≤ 0x7ff) := by
  refine ⟨?_, ?_, ?_, ?_, ?_, ?_, ?_⟩
  all_goals apply forall_byte
  all_goals decide +kernel

/-- The weights of a high byte. -/
theorem weight_high (high : 127 ≤ c) : weight c = -1 ∧ mark c = 0 :=
  byte_weights.1 c high

/-- The weights of an escape letter. -/
theorem weight_letter {letter : UInt8} (found : escapeLetter c = some letter) :
    weight letter < weight c ∧ mark letter ≤ mark c ∧ c < 32 ∧ 97 ≤ letter := by
  have facts := byte_weights.2.1 c
  rw [found, Option.all_some, decide_eq_true_eq] at facts
  exact facts

/-- The weights of an escaped character. -/
theorem weight_unescape (c : UInt8) :
    weight (unescape c) < 10 + weight c ∧ mark (unescape c) ≤ 2 + mark c :=
  byte_weights.2.2.1 c

/-- The weights of a byte that is written as a code. -/
theorem weight_coded (coded : IsCoded c) : -2 < weight c ∧ (c < 32 ∨ 127 ≤ c) :=
  byte_weights.2.2.2.1 c coded

/-- No quote is written as a code or with an escape letter. -/
theorem ne_quote (isQuote : IsQuote quote) (outside : c < 32 ∨ 97 ≤ c) : c ≠ quote := by
  obtain ⟨_, _, _, _, _, low, high, _⟩ := isQuote.facts
  rintro rfl
  rcases outside with below | above
  · exact UInt8.not_lt.mpr low below
  · exact UInt8.not_lt.mpr above high

/-- Bytes that are no quotes lose none. -/
theorem count_no_quote {consumed : Bytes} (none' : ∀ c ∈ consumed, c ≠ quote) (out : Bytes) :
    consumed.count quote ≤ out.count quote := by
  rw [List.count_eq_zero_of_not_mem fun member => none' quote member rfl]
  exact Nat.zero_le _

/-- The code of a low byte is read as the byte itself, or as a byte that weighs less. -/
theorem coded_low (isQuote : IsQuote quote) (coded : IsCoded c) (low : c < 127) :
    decimalAsHex c ≤ 0x7f ∧ (c ≤ 10 ∧ utf8 (decimalAsHex c) = [c] ∨
      Lossy quote [c] (utf8 (decimalAsHex c))) := by
  obtain ⟨small, plain | lighter⟩ := byte_weights.2.2.2.2.1 c coded low
  · refine ⟨small, .inl ⟨plain.1, ?_⟩⟩
    rw [utf8, if_pos small, plain.2]
  · refine ⟨small, .inr ?_⟩
    rw [utf8, if_pos small]
    apply Lossy.mk
    · simpa using lighter.1
    · simpa using lighter.2
    · apply count_no_quote
      intro d member
      rw [List.mem_singleton.mp member]
      apply ne_quote isQuote
      rcases (weight_coded coded).2 with below | above
      · exact .inl below
      · exact absurd low (UInt8.not_lt.mpr above)

/-- The encoding of a character above the ASCII characters has high bytes. -/
theorem utf8_high {uchar : Nat} (small : uchar < 65536) (high : ¬uchar ≤ 0x7f) :
    ∀ c ∈ utf8 uchar, 128 ≤ c := by
  have lead : ∀ n < 32, 128 ≤ UInt8.ofNat (0xc0 ||| n) := by decide
  have lead' : ∀ n < 16, 128 ≤ UInt8.ofNat (0xe0 ||| n) := by decide
  have follow : ∀ n < 64, 128 ≤ UInt8.ofNat (0x80 ||| n) := by decide
  have low : uchar &&& 0x3f < 64 := Nat.lt_of_le_of_lt Nat.and_le_right (by decide)
  have middle : (uchar &&& 0xfc0) >>> 6 < 64 := by
    rw [Nat.shiftRight_eq_div_pow]
    have bound : uchar &&& 0xfc0 ≤ 0xfc0 := Nat.and_le_right
    omega
  intro c member
  unfold utf8 at member
  rw [if_neg high] at member
  by_cases two : uchar ≤ 0x7ff
  · have top : uchar >>> 6 < 32 := by
      rw [Nat.shiftRight_eq_div_pow]
      omega
    rw [if_pos two] at member
    rcases List.mem_cons.mp member with rfl | member
    · exact lead _ top
    · rw [List.mem_singleton.mp member]
      exact follow _ low
  · have top : uchar >>> 12 < 16 := by
      rw [Nat.shiftRight_eq_div_pow]
      omega
    rw [if_neg two] at member
    rcases List.mem_cons.mp member with rfl | member
    · exact lead' _ top
    rcases List.mem_cons.mp member with rfl | member
    · exact follow _ middle
    · rw [List.mem_singleton.mp member]
      exact follow _ low

/-- High bytes weigh less than nothing and are not marked. -/
theorem total_high {str : Bytes} (high : ∀ c ∈ str, 128 ≤ c) :
    total weight str = -str.length ∧ total mark str = 0 := by
  induction str with
  | nil => exact ⟨rfl, rfl⟩
  | cons c str ih =>
      have above : 127 ≤ c := UInt8.le_trans (by decide) (high c List.mem_cons_self)
      obtain ⟨light, unmarked⟩ := weight_high above
      obtain ⟨lights, unmarkeds⟩ := ih fun d member => high d (List.mem_cons_of_mem _ member)
      rw [total_cons, total_cons, List.length_cons]
      exact ⟨by omega, by omega⟩

/-- The code of a high byte is read as two bytes. -/
theorem coded_high (isQuote : IsQuote quote) (high : 127 ≤ c) :
    Lossy quote [c] (utf8 (decimalAsHex c)) := by
  have range := byte_weights.2.2.2.2.2.2 c high
  obtain ⟨light, unmarked⟩ := total_high
    (utf8_high (by omega) (by omega : ¬decimalAsHex c ≤ 0x7f))
  have two : (utf8 (decimalAsHex c)).length = 2 := by
    rw [utf8, if_neg (by omega), if_pos range.2]
    rfl
  apply Lossy.mk
  · rw [light, two, total_cons, total_nil, (weight_high high).1]
    decide
  · rw [unmarked]
    exact Nat.zero_le _
  · apply count_no_quote
    intro d member
    rw [List.mem_singleton.mp member]
    exact ne_quote isQuote (.inr (UInt8.le_trans (by decide) high))

/-- A backslash before a character that the writer left alone is lost. -/
theorem lossy_escape (isQuote : IsQuote quote) (c : UInt8) :
    Lossy quote [backslash, c] [unescape c] := by
  obtain ⟨notEscape, _, _, _, same, _⟩ := isQuote.facts
  obtain ⟨lighter, marks⟩ := weight_unescape c
  apply Lossy.mk
  · simpa [weight_marks.1] using lighter
  · simpa [weight_marks.2.2.2.1] using marks
  · by_cases own : c = quote
    · subst own
      simp [same, notEscape.symm]
    · apply count_no_quote
      intro d member
      rcases List.mem_cons.mp member with rfl | member
      · exact notEscape.symm
      · rw [List.mem_singleton.mp member]
        exact own

/-- A backslash takes the backslash of an escape letter. -/
theorem lossy_letter (isQuote : IsQuote quote) {letter : UInt8}
    (found : escapeLetter c = some letter) :
    Lossy quote [backslash, c] [backslash, letter] := by
  obtain ⟨lighter, marks, low, _⟩ := weight_letter found
  apply Lossy.mk
  · simpa using lighter
  · simpa using marks
  · apply count_no_quote
    intro d member
    rcases List.mem_cons.mp member with rfl | member
    · exact isQuote.facts.1.symm
    · rw [List.mem_singleton.mp member]
      exact ne_quote isQuote (.inl low)

/-- A backslash takes the backslash of a code. -/
theorem lossy_code (isQuote : IsQuote quote) (coded : IsCoded c) :
    Lossy quote [backslash, c] [backslash, 117, 48, digit (c.toNat / 100 % 10),
      digit (c.toNat / 10 % 10), digit (c.toNat % 10)] := by
  obtain ⟨_, letter, _, _, letterMark, _, digits⟩ := weight_marks
  have digit' : ∀ n, weight (digit (n % 10)) = 0 ∧ mark (digit (n % 10)) = 0 :=
    fun n => digits (n % 10) (Nat.mod_lt _ (by decide))
  have zero : weight 48 = 0 ∧ mark 48 = 0 := digits 0 (by decide)
  obtain ⟨above, outside⟩ := weight_coded coded
  apply Lossy.mk
  · simp only [total_cons, total_nil, letter, zero.1, (digit' _).1]
    omega
  · simp only [total_cons, total_nil, letterMark, zero.2, (digit' _).2]
    omega
  · apply count_no_quote
    intro d member
    rcases List.mem_cons.mp member with rfl | member
    · exact isQuote.facts.1.symm
    · rw [List.mem_singleton.mp member]
      rcases outside with below | above
      · exact ne_quote isQuote (.inl below)
      · exact ne_quote isQuote (.inr (UInt8.le_trans (by decide) above))

/-- The weights of a hexadecimal digit. -/
theorem hexValue_weight (isQuote : IsQuote quote) {v : Nat} (digit : hexValue c = some v) :
    v < 16 ∧ weight c = (if v = 12 then 3 else 0) ∧ mark c = 0 ∧ c ≠ quote := by
  obtain ⟨small, weighs, unmarked⟩ := byte_weights.2.2.2.2.2.1 c v digit
  refine ⟨small, weighs, unmarked, ?_⟩
  rintro rfl
  rw [isQuote.facts.2.2.2.1] at digit
  cases digit

/-- A byte in hexadecimal is read as a lighter one. -/
theorem lossy_hex (isQuote : IsQuote quote) {h₁ h₂ : UInt8} {v₁ v₂ : Nat}
    (first : hexValue h₁ = some v₁) (second : hexValue h₂ = some v₂) :
    Lossy quote [backslash, 120, h₁, h₂] [UInt8.ofNat (v₁ <<< 8 ||| v₂)] := by
  obtain ⟨small, weight₁, mark₁, _⟩ := hexValue_weight isQuote first
  obtain ⟨small', weight₂, mark₂, _⟩ := hexValue_weight isQuote second
  have byte : ∀ v < 16, weight (UInt8.ofNat v) ≤ 3 ∧ UInt8.ofNat v < 32 := by decide
  have cut : UInt8.ofNat (v₁ <<< 8 ||| v₂) = UInt8.ofNat v₂ := by
    apply UInt8.toNat_inj.mp
    rw [UInt8.toNat_ofNat', UInt8.toNat_ofNat',
      ← Nat.shiftLeft_add_eq_or_of_lt (show v₂ < 2 ^ 8 by omega), Nat.shiftLeft_eq]
    omega
  rw [cut]
  obtain ⟨light, low⟩ := byte v₂ small'
  have marks : mark (UInt8.ofNat v₂) ≤ 1 := by
    unfold mark
    rw [if_neg fun same => by rw [same] at low; exact absurd low (by decide)]
    split <;> omega
  obtain ⟨escape, _, letter, escapeMark, _, letterMark, _⟩ := weight_marks
  obtain ⟨notEscape, notHex, _⟩ := isQuote.facts
  apply Lossy.mk
  · simp only [total_cons, total_nil, weight₁, weight₂, escape, letter]
    split <;> split <;> omega
  · simp only [total_cons, total_nil, escapeMark]
    omega
  · simp only [List.count_cons, List.count_nil, beq_iff_eq, notEscape.symm, notHex.symm,
      (hexValue_weight isQuote first).2.2.2, (hexValue_weight isQuote second).2.2.2, if_false]
    omega

/-- A character code is read as lighter bytes. -/
theorem lossy_uchar (isQuote : IsQuote quote) {h₁ h₂ h₃ h₄ : UInt8} {v₁ v₂ v₃ v₄ : Nat}
    (first : hexValue h₁ = some v₁) (second : hexValue h₂ = some v₂)
    (third : hexValue h₃ = some v₃) (fourth : hexValue h₄ = some v₄) :
    Lossy quote [backslash, 117, h₁, h₂, h₃, h₄]
      (utf8 (v₁ <<< 12 ||| v₂ <<< 8 ||| v₃ <<< 4 ||| v₄)) := by
  obtain ⟨small₁, weight₁, mark₁, other₁⟩ := hexValue_weight isQuote first
  obtain ⟨small₂, weight₂, mark₂, other₂⟩ := hexValue_weight isQuote second
  obtain ⟨small₃, weight₃, mark₃, other₃⟩ := hexValue_weight isQuote third
  obtain ⟨small₄, weight₄, mark₄, other₄⟩ := hexValue_weight isQuote fourth
  obtain ⟨escape, letter, _, escapeMark, letterMark, _⟩ := weight_marks
  obtain ⟨notEscape, _, notUchar, _⟩ := isQuote.facts
  have outs : total weight (utf8 (v₁ <<< 12 ||| v₂ <<< 8 ||| v₃ <<< 4 ||| v₄)) <
        8 + (if v₃ = 12 then 3 else 0) + (if v₄ = 12 then 3 else 0) ∧
      total mark (utf8 (v₁ <<< 12 ||| v₂ <<< 8 ||| v₃ <<< 4 ||| v₄)) ≤ 2 := by
    by_cases low : v₁ <<< 12 ||| v₂ <<< 8 ||| v₃ <<< 4 ||| v₄ ≤ 0x7f
    · have marks : ∀ c, mark c ≤ 2 := by
        intro c
        unfold mark
        split
        · exact le_rfl
        · split <;> omega
      have parts : v₁ <<< 12 ≤ 0x7f ∧ v₂ <<< 8 ≤ 0x7f ∧ v₃ <<< 4 ≤ 0x7f := by
        have step := Nat.left_le_or (n := v₁ <<< 12 ||| v₂ <<< 8 ||| v₃ <<< 4) (m := v₄)
        have step' := Nat.left_le_or (n := v₁ <<< 12 ||| v₂ <<< 8) (m := v₃ <<< 4)
        have step'' := Nat.left_le_or (n := v₁ <<< 12) (m := v₂ <<< 8)
        have last := Nat.right_le_or (n := v₁ <<< 12 ||| v₂ <<< 8) (m := v₃ <<< 4)
        have last' := Nat.right_le_or (n := v₁ <<< 12) (m := v₂ <<< 8)
        omega
      simp only [Nat.shiftLeft_eq] at parts
      obtain rfl : v₁ = 0 := by omega
      obtain rfl : v₂ = 0 := by omega
      have byte : ∀ v₃ < 8, ∀ v₄ < 16, (0 <<< 12 ||| 0 <<< 8 ||| v₃ <<< 4 ||| v₄) ≤ 0x7f ∧
          weight (UInt8.ofNat (0 <<< 12 ||| 0 <<< 8 ||| v₃ <<< 4 ||| v₄)) <
            8 + (if v₃ = 12 then 3 else 0) + (if v₄ = 12 then 3 else 0) := by decide
      rw [utf8, if_pos low, total_cons, total_cons, total_nil, total_nil]
      exact ⟨by simpa using (byte v₃ (by omega) v₄ small₄).2, by simpa using marks _⟩
    · have bound : v₁ <<< 12 ||| v₂ <<< 8 ||| v₃ <<< 4 ||| v₄ < 2 ^ 16 := by
        have sizes : v₁ <<< 12 < 2 ^ 16 ∧ v₂ <<< 8 < 2 ^ 16 ∧ v₃ <<< 4 < 2 ^ 16 := by
          simp only [Nat.shiftLeft_eq]
          omega
        apply Nat.or_lt_two_pow
        · apply Nat.or_lt_two_pow
          · exact Nat.or_lt_two_pow sizes.1 sizes.2.1
          · exact sizes.2.2
        · omega
      obtain ⟨light, unmarked⟩ := total_high (utf8_high bound low)
      refine ⟨?_, by omega⟩
      split <;> split <;> omega
  apply Lossy.mk
  · have weights : total weight [backslash, 117, h₁, h₂, h₃, h₄] =
        10 + (-2 + ((if v₁ = 12 then 3 else 0) + ((if v₂ = 12 then 3 else 0) +
          ((if v₃ = 12 then 3 else 0) + (if v₄ = 12 then 3 else 0))))) := by
      simp only [total_cons, total_nil, weight₁, weight₂, weight₃, weight₄, escape,
        letter, add_zero]
    have positive : ∀ v : Nat, (0 : Int) ≤ if v = 12 then 3 else 0 := by
      intro v
      split <;> omega
    have high := positive v₁
    have high' := positive v₂
    omega
  · simp only [total_cons, total_nil, escapeMark]
    omega
  · simp only [List.count_cons, List.count_nil, beq_iff_eq, notEscape.symm, notUchar.symm, other₁, other₂,
      other₃, other₄, if_false]
    omega

/-- Zero digits in front of the output change no weight. -/
theorem Lossy.gap {consumed out : Bytes} (lossy : Lossy quote consumed out) (n : Nat) :
    Lossy quote consumed (List.replicate n 48 ++ out) := by
  have zero : total weight (List.replicate n 48) = 0 ∧
      total mark (List.replicate n 48) = 0 := by
    have byte : weight 48 = 0 ∧ mark 48 = 0 := weight_marks.2.2.2.2.2.2 0 (by decide)
    simp [total, byte.1, byte.2]
  apply Lossy.mk
  · rw [total_append, zero.1, zero_add]
    exact lossy.lighter
  · rw [total_append, zero.2, zero_add]
    exact lossy.marks
  · rw [List.count_append]
    exact Nat.le_add_left_of_le lossy.quotes

end Weights

end Raids
