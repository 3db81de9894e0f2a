import Raids.Construction.Msg.Json
import Raids.Proof.Msg.RoundTrip
import Raids.Library.LinearProbe

namespace Raids

/-- A character is escaped with as many bytes as are counted. -/
theorem length_jsonEscape (c : UInt8) : (jsonEscape c).length = jsonEscapeLen c := by
  unfold jsonEscape jsonEscapeLen
  split
  · split <;> rfl
  · cases escapeLetter c <;> rfl

theorem length_jsonEscapeString (str : Bytes) :
    (jsonEscapeString str).length = jsonEscapeStrlen str := by
  induction str with
  | nil => rfl
  | cons c str ih =>
      rw [jsonEscapeString, List.flatMap_cons, List.length_append, length_jsonEscape]
      rw [jsonEscapeStrlen, List.map_cons, List.sum_cons]
      exact congrArg _ ih

/-- An integer has a digit. -/
theorem length_int64ToString_pos (v : Int) : 0 < (int64ToString v).length := by
  unfold int64ToString uint64ToString
  split
  · exact Nat.succ_pos _
  · exact List.length_pos_iff.mpr (Decimal.decimal_ne_nil _)

/-- The elements of an array have the size of their text. -/
theorem sizeArray_eq (beWeird : Bool) {elems : List RedisMsg}
    (each : ∀ m ∈ elems, m.toAlmostJsonSize beWeird = (m.toAlmostJson beWeird).length ∧
      0 < (m.toAlmostJson beWeird).length) (k : Nat) (first : Bool) :
    RedisMsg.toAlmostJsonSize.sizeArray beWeird k elems first =
      some (RedisMsg.toAlmostJson.writeArray beWeird k elems first).length := by
  induction elems generalizing k first with
  | nil =>
      cases k <;> simp [RedisMsg.toAlmostJsonSize.sizeArray, RedisMsg.toAlmostJson.writeArray]
  | cons m elems ih =>
      cases k with
      | zero => simp [RedisMsg.toAlmostJsonSize.sizeArray, RedisMsg.toAlmostJson.writeArray]
      | succ k =>
          obtain ⟨size, positive⟩ := each m List.mem_cons_self
          have rest := ih (fun m member => each m (List.mem_cons_of_mem _ member)) k false
          rw [RedisMsg.toAlmostJsonSize.sizeArray, RedisMsg.toAlmostJson.writeArray]
          simp only [size, if_neg (show ¬(m.toAlmostJson beWeird).length = 0 by omega), rest,
            Option.map_some, List.length_append, Option.some.injEq]
          cases first <;> simp

/-- The counted size is the length of the text, which is not empty. -/
theorem toAlmostJsonSize_eq (beWeird : Bool) (m : RedisMsg) :
    m.toAlmostJsonSize beWeird = (m.toAlmostJson beWeird).length ∧
      0 < (m.toAlmostJson beWeird).length := by
  cases m with
  | string type len strval =>
      rw [RedisMsg.toAlmostJsonSize, RedisMsg.toAlmostJson]
      by_cases filled : 0 ≤ len
      · cases beWeird with
        | true => simp [filled, length_jsonEscapeString]
        | false =>
            simp only [if_pos filled, Bool.false_eq_true, if_false, List.length_append,
              List.length_cons, List.length_nil, length_jsonEscapeString]
            exact ⟨trivial, by omega⟩
      · cases beWeird <;> simp [filled, jsonNil, jsonNull]
  | integer ival =>
      rw [RedisMsg.toAlmostJsonSize, RedisMsg.toAlmostJson, int64Digits_eq]
      exact ⟨rfl, length_int64ToString_pos ival⟩
  | array len elems =>
      have each : ∀ m ∈ elems, m.toAlmostJsonSize beWeird = (m.toAlmostJson beWeird).length ∧
          0 < (m.toAlmostJson beWeird).length := fun m member => toAlmostJsonSize_eq beWeird m
      rw [RedisMsg.toAlmostJsonSize, RedisMsg.toAlmostJson]
      by_cases filled : 0 ≤ len
      · simp only [if_pos filled, sizeArray_eq beWeird each, List.length_append, List.length_cons,
          List.length_nil]
        omega
      · simp [filled, jsonNull]
termination_by m
decreasing_by
  have smaller := List.sizeOf_lt_of_mem member
  simp only [RedisMsg.array.sizeOf_spec]
  omega

open LastWrite

/-- The byte of a text that stands at an offset. -/
def textAt (off : Nat) (text : Bytes) (i : Nat) : Option (Nat × UInt8) :=
  if off ≤ i then (text[i - off]?).map fun c => (i, c) else none

theorem last_putAt (off : Nat) (text : Bytes) (i : Nat) :
    last Prod.fst (putAt off text) i = textAt off text i := by
  induction text generalizing off with
  | nil => simp [putAt, textAt]
  | cons c text ih =>
      rw [putAt, ← List.singleton_append, last_append, last_singleton, ih]
      obtain less | rfl | more := Nat.lt_trichotomy i off
      · rw [textAt, textAt, if_neg (by omega), if_neg (by omega), if_neg (by omega)]
        rfl
      · simp [textAt]
      · simp only [textAt, if_pos (show off + 1 ≤ i by omega), if_pos (show off ≤ i by omega),
          if_neg (show ¬off = i by omega), Option.or_none]
        rw [show i - off = i - (off + 1) + 1 by omega, List.getElem?_cons_succ]

/-- A text that is longer than what stands behind another one replaces it. -/
theorem textAt_replace {text tail rest : Bytes} (longer : tail.length ≤ rest.length) (off i : Nat) :
    (textAt (off + text.length) rest i).or (textAt off (text ++ tail) i) =
      textAt off (text ++ rest) i := by
  by_cases before : i < off + text.length
  · rw [textAt, if_neg (by omega), Option.none_or, textAt, textAt]
    by_cases below : off ≤ i
    · rw [if_pos below, if_pos below, List.getElem?_append_left (by omega),
        List.getElem?_append_left (by omega)]
    · rw [if_neg below, if_neg below]
  · rw [textAt, textAt, textAt, if_pos (by omega), if_pos (by omega), if_pos (by omega),
      List.getElem?_append_right (by omega), List.getElem?_append_right (by omega),
      show i - off - text.length = i - (off + text.length) by omega]
    by_cases inside : i - (off + text.length) < rest.length
    · rw [List.getElem?_eq_getElem inside]
      rfl
    · rw [List.getElem?_eq_none (by omega), List.getElem?_eq_none (by omega)]
      rfl

theorem textAt_append (off i : Nat) (text rest : Bytes) :
    (textAt (off + text.length) rest i).or (textAt off text i) = textAt off (text ++ rest) i := by
  have replaced := @textAt_replace text [] rest (Nat.zero_le _) off i
  rwa [List.append_nil] at replaced

/-- What is written behind the text of a message. -/
def RedisMsg.jsonTail : RedisMsg → Bytes
  | .string _ len _ => if 0 ≤ len then [0] else []
  | _ => []

theorem length_jsonTail_le (m : RedisMsg) : m.jsonTail.length ≤ 1 := by
  cases m with
  | string type len strval =>
      rw [RedisMsg.jsonTail]
      split <;> decide
  | integer ival => exact Nat.zero_le 1
  | array len elems => exact Nat.zero_le 1

/-- The writes of a message leave its text and the number is the length of it. -/
def WritesText (beWeird : Bool) (m : RedisMsg) : Prop :=
  ∀ off,
    (m.writeJson beWeird off).2 = (m.toAlmostJson beWeird).length ∧
      ∀ i, last Prod.fst (m.writeJson beWeird off).1 i =
        textAt off (m.toAlmostJson beWeird ++ m.jsonTail) i

/-- The elements are written one behind the other, and each covers what stands behind the last. -/
theorem writeElements_text {beWeird : Bool} {elems : List RedisMsg}
    (each : ∀ m ∈ elems, WritesText beWeird m) (k : Nat) (first : Bool) (off : Nat) :
    (RedisMsg.writeJson.writeElements beWeird k elems first off).2 =
        (RedisMsg.toAlmostJson.writeArray beWeird k elems first).length ∧
      ∃ tail : Bytes, tail.length ≤ 1 ∧
        ∀ i, last Prod.fst (RedisMsg.writeJson.writeElements beWeird k elems first off).1 i =
          textAt off (RedisMsg.toAlmostJson.writeArray beWeird k elems first ++ tail) i := by
  induction elems generalizing k first off with
  | nil =>
      cases k <;> exact ⟨rfl, [], Nat.zero_le 1, fun i => by
        simp [RedisMsg.writeJson.writeElements, RedisMsg.toAlmostJson.writeArray, textAt]⟩
  | cons m elems ih =>
      cases k with
      | zero =>
          exact ⟨rfl, [], Nat.zero_le 1, fun i => by
            simp [RedisMsg.writeJson.writeElements, RedisMsg.toAlmostJson.writeArray, textAt]⟩
      | succ k =>
          obtain ⟨separator, isSeparator⟩ : ∃ separator : Bytes,
            separator = if first then [] else [comma] := ⟨_, rfl⟩
          obtain ⟨length, written⟩ := each m List.mem_cons_self (off + separator.length)
          obtain ⟨restLength, tail, small, restWritten⟩ :=
            ih (fun m member => each m (List.mem_cons_of_mem _ member)) k false
              (off + separator.length + (m.toAlmostJson beWeird).length)
          rw [RedisMsg.writeJson.writeElements, RedisMsg.toAlmostJson.writeArray]
          simp only [← isSeparator, length, restLength]
          apply And.intro
          · simp only [List.length_append]
          · have whole : ∀ i, last Prod.fst (putAt off separator ++
                (m.writeJson beWeird (off + separator.length)).1) i =
                textAt off (separator ++ m.toAlmostJson beWeird ++ m.jsonTail) i := by
              intro i
              rw [last_append, written, last_putAt, textAt_append, List.append_assoc]
            have place : off + separator.length + (m.toAlmostJson beWeird).length =
                off + (separator ++ m.toAlmostJson beWeird).length := by
              rw [List.length_append, Nat.add_assoc]
            simp only [last_append _ (RedisMsg.writeJson.writeElements _ _ _ _ _).1, whole,
              restWritten]
            rw [place]
            cases rest : RedisMsg.toAlmostJson.writeArray beWeird k elems false ++ tail with
            | nil =>
                refine ⟨m.jsonTail, length_jsonTail_le m, fun i => ?_⟩
                rw [List.append_eq_nil_iff] at rest
                simp [textAt, rest.1]
            | cons c more =>
                refine ⟨tail, small, fun i => ?_⟩
                have longer : m.jsonTail.length ≤ (c :: more).length := by
                  have short := length_jsonTail_le m
                  rw [List.length_cons]
                  omega
                rw [textAt_replace longer, ← rest]
                simp only [List.append_assoc]

/-- A quoted string is followed by a null. -/
theorem writesQuoted (beWeird : Bool) (type : StringType) (escaped : Bytes) (off : Nat) :
    (if beWeird then [] else type.marker).length + escaped.length + 2 =
        (if beWeird then type.quote :: escaped ++ [type.quote]
          else doubleQuote :: (type.marker ++ escaped) ++ [doubleQuote]).length ∧
      ∀ i, last Prod.fst
          (putAt off ((if beWeird then type.quote else doubleQuote) ::
              if beWeird then [] else type.marker) ++
            putAt (off + 1 + (if beWeird then [] else type.marker).length) escaped ++
            [(off + 1 + ((if beWeird then [] else type.marker).length + escaped.length),
                if beWeird then type.quote else doubleQuote),
              (off + 2 + ((if beWeird then [] else type.marker).length + escaped.length), 0)]) i =
        textAt off
          ((if beWeird then type.quote :: escaped ++ [type.quote]
            else doubleQuote :: (type.marker ++ escaped) ++ [doubleQuote]) ++ [0]) i := by
  have general : ∀ (q : UInt8) (marker : Bytes) (i : Nat),
      last Prod.fst (putAt off (q :: marker) ++ putAt (off + 1 + marker.length) escaped ++
        [(off + 1 + (marker.length + escaped.length), q),
          (off + 2 + (marker.length + escaped.length), 0)]) i =
        textAt off (q :: (marker ++ escaped) ++ [q] ++ [0]) i := by
    intro q marker i
    have ends : [(off + 1 + (marker.length + escaped.length), q),
        (off + 2 + (marker.length + escaped.length), 0)] =
        putAt (off + (q :: marker ++ escaped).length) [q, 0] := by
      simp only [putAt, List.length_append, List.length_cons, List.cons.injEq, Prod.mk.injEq,
        and_true]
      omega
    have middle : off + 1 + marker.length = off + (q :: marker).length := by
      rw [List.length_cons]
      omega
    rw [ends, middle, last_append, last_append, last_putAt, last_putAt, last_putAt, textAt_append,
      textAt_append]
    simp
  cases beWeird with
  | true => exact ⟨by simp, fun i => general _ [] i⟩
  | false => exact ⟨by simp [Nat.add_assoc], fun i => general _ _ i⟩

/-- The writer leaves the text of every message. -/
theorem writesText (beWeird : Bool) (m : RedisMsg) : WritesText beWeird m := by
  cases m with
  | string type len strval =>
      intro off
      rw [RedisMsg.writeJson, RedisMsg.toAlmostJson, RedisMsg.jsonTail]
      by_cases filled : 0 ≤ len
      · simp only [if_pos filled]
        exact writesQuoted beWeird type (jsonEscapeString (strval.take len.toNat)) off
      · cases beWeird <;> simp [filled, jsonNil, jsonNull, last_putAt]
  | integer ival =>
      intro off
      have noTail : (RedisMsg.integer ival).jsonTail = [] := rfl
      rw [RedisMsg.writeJson, RedisMsg.toAlmostJson, noTail, List.append_nil]
      exact ⟨rfl, fun i => last_putAt _ _ _⟩
  | array len elems =>
      have each : ∀ m ∈ elems, WritesText beWeird m := fun m member => writesText beWeird m
      have noTail : (RedisMsg.array len elems).jsonTail = [] := rfl
      intro off
      rw [RedisMsg.writeJson, RedisMsg.toAlmostJson, noTail, List.append_nil]
      by_cases filled : 0 ≤ len
      · simp only [if_pos filled]
        obtain ⟨length, tail, small, written⟩ := writeElements_text each len.toNat true (off + 1)
        rw [length]
        apply And.intro
        · simp [Nat.add_comm]
        · intro i
          have opened : last Prod.fst ((off, openBracket) ::
              (RedisMsg.writeJson.writeElements beWeird len.toNat elems true (off + 1)).1) i =
              textAt off ((openBracket ::
                RedisMsg.toAlmostJson.writeArray beWeird len.toNat elems true) ++ tail) i := by
            rw [← List.singleton_append, last_append, written]
            exact (congrArg _ (last_putAt off [openBracket] i)).trans
              (textAt_append off i [openBracket] _)
          have closed : last Prod.fst [(off + 1 +
              (RedisMsg.toAlmostJson.writeArray beWeird len.toNat elems true).length,
                closeBracket)] i =
              textAt (off + (openBracket ::
                RedisMsg.toAlmostJson.writeArray beWeird len.toNat elems true).length)
                [closeBracket] i := by
            rw [← last_putAt, List.length_cons, Nat.add_assoc, Nat.add_comm 1]
            rfl
          rw [last_append, opened, closed, textAt_replace small]
      · simp [filled, jsonNull, last_putAt]
termination_by m
decreasing_by
  have smaller := List.sizeOf_lt_of_mem member
  simp only [RedisMsg.array.sizeOf_spec]
  omega

/-- The offsets that are written are the ones below the length of the text and its tail. -/
theorem written_iff (beWeird : Bool) (m : RedisMsg) (i : Nat) :
    (∃ c, (i, c) ∈ (m.writeJson beWeird 0).1) ↔
      i < (m.toAlmostJson beWeird).length + m.jsonTail.length := by
  have lastWrite := (writesText beWeird m 0).2 i
  rw [textAt, if_pos (Nat.zero_le i), Nat.sub_zero] at lastWrite
  rw [← List.length_append]
  apply Iff.intro
  · rintro ⟨c, member⟩
    by_contra beyond
    rw [List.getElem?_eq_none (by omega), Option.map_none, last_eq_none] at lastWrite
    exact lastWrite _ member rfl
  · intro inside
    rw [List.getElem?_eq_getElem inside, Option.map_some] at lastWrite
    exact ⟨_, (mem_of_last lastWrite).1⟩

/-- The writer returns the counted size, and it writes the bytes below that size only. -/
def JsonFits (beWeird : Bool) (m : RedisMsg) : Prop :=
  (m.writeJson beWeird 0).2 = m.toAlmostJsonSize beWeird ∧
    ∀ i, (∃ c, (i, c) ∈ (m.writeJson beWeird 0).1) ↔ i < m.toAlmostJsonSize beWeird

/-- The text of a message fits its counted size unless the message is a string, whose null is
written behind it. -/
theorem jsonFits_iff (beWeird : Bool) (m : RedisMsg) :
    JsonFits beWeird m ↔ ¬∃ type len strval, m = .string type len strval ∧ 0 ≤ len := by
  have size := (toAlmostJsonSize_eq beWeird m).1
  rw [JsonFits, (writesText beWeird m 0).1, ← size, and_iff_right rfl]
  simp only [written_iff, ← size]
  have noTail : (∀ i, i < m.toAlmostJsonSize beWeird + m.jsonTail.length ↔
      i < m.toAlmostJsonSize beWeird) ↔ m.jsonTail.length = 0 := by
    apply Iff.intro
    · intro same
      have last := same (m.toAlmostJsonSize beWeird)
      omega
    · intro none i
      rw [none, Nat.add_zero]
  rw [noTail]
  cases m with
  | string type len strval =>
      rw [RedisMsg.jsonTail]
      by_cases filled : 0 ≤ len <;> simp [filled]
  | integer ival => simp [RedisMsg.jsonTail]
  | array len elems => simp [RedisMsg.jsonTail]

/-- The null of a string is written at its size. -/
theorem not_jsonFits_string : ¬JsonFits false (.string .bulkString 1 [97]) := by
  rintro ⟨-, written⟩
  have beyond : (3, 0) ∈ ((RedisMsg.string .bulkString 1 [97]).writeJson false 0).1 ∧
      (RedisMsg.string .bulkString 1 [97]).toAlmostJsonSize false = 3 := by decide
  have inside := (written 3).mp ⟨0, beyond.1⟩
  rw [beyond.2] at inside
  exact absurd inside (by decide)

end Raids
