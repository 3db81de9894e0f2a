import Raids.Library.Runs
import Raids.Proof.Msg.Unpack

namespace Raids

open Runs

/-- The bytes that separate words when they are compared as unsigned values. -/
def separates (c : UInt8) : Bool := c ≤ 32

/-- A signed byte above the space is an unsigned one below the upper half. -/
theorem not_isSeparator_iff (c : UInt8) :
    ¬IsSeparator c ↔ separates c = false ∧ c < 128 := by
  simp only [IsSeparator, separates, not_or, decide_eq_false_iff_not, UInt8.le_iff_toNat_le,
    UInt8.lt_iff_toNat_lt]
  have value : (128 : UInt8).toNat = 128 := rfl
  omega

/-- The loop finds the runs of the bytes that are no separators. -/
theorem splitWords_runs {wrk : ScratchMem} (free : ∀ n, wrk n) (fuel cnt : Nat) {ptr : Bytes}
    (enough : ptr.length ≤ fuel) (start : ∀ c ∈ ptr.head?, ¬IsSeparator c) :
    splitWords wrk fuel cnt ptr = .ok ((runs (IsSeparator ·) ptr).map mkStr) := by
  induction fuel generalizing cnt ptr with
  | zero =>
      obtain rfl : ptr = [] := List.eq_nil_of_length_eq_zero (Nat.le_zero.mp enough)
      rfl
  | succ fuel ih =>
      cases ptr with
      | nil => rfl
      | cons first rest =>
          have isFirst : ¬IsSeparator first := start first (by simp)
          obtain ⟨word, isWord⟩ : ∃ word, word = first :: rest.takeWhile (¬IsSeparator ·) := ⟨_, rfl⟩
          obtain ⟨behind, isBehind⟩ : ∃ behind, behind = rest.dropWhile (¬IsSeparator ·) := ⟨_, rfl⟩
          have whole : first :: rest = word ++ behind := by
            rw [isWord, isBehind, List.cons_append, List.takeWhile_append_dropWhile]
          have letters : ∀ c ∈ word, decide (IsSeparator c) = false := by
            intro c member
            rw [isWord] at member
            obtain rfl | member := List.mem_cons.mp member
            · simpa using isFirst
            · simpa using List.mem_takeWhile_imp member
          have ends : ∀ c ∈ behind.head?, decide (IsSeparator c) = true := by
            intro c head
            rw [isBehind] at head
            simpa using not_head_dropWhile _ _ head
          have short : (behind.dropWhile (IsSeparator ·)).length ≤ fuel := by
            have dropped := (List.dropWhile_sublist (IsSeparator ·) : List.Sublist _ behind).length_le
            have total := congrArg List.length whole
            have some : 0 < word.length := by rw [isWord]; exact Nat.succ_pos _
            rw [List.length_append] at total
            omega
          rw [splitWords, ← isWord, ← isBehind, whole,
            runs_word (by rw [isWord]; exact List.cons_ne_nil _ _) letters ends, ← runs_dropWhile]
          cases tail : behind.dropWhile (IsSeparator ·) with
          | nil => simp
          | cons c more =>
              have next := @ih (cnt + 1) (c :: more) (by rw [← tail]; exact short) (by
                intro c' head
                rw [← tail] at head
                simpa using not_head_dropWhile _ _ head)
              simp only [List.isEmpty_cons, Bool.false_eq_true, if_false, free, not_true_eq_false,
                and_false, next, List.map_cons]
              rfl

theorem split_runs {wrk : ScratchMem} (free : ∀ n, wrk n) (strval : Bytes) :
    split wrk strval = .ok (.array (toInt32 (runs (IsSeparator ·) strval).length)
      ((runs (IsSeparator ·) strval).map mkStr)) := by
  have words := splitWords_runs free (strval.dropWhile (IsSeparator ·)).length 0 le_rfl
    (fun c head => by simpa using not_head_dropWhile _ _ head)
  rw [runs_dropWhile] at words
  simp only [split, free, not_true_eq_false, if_false, words, Except.map, List.length_map]

/-- The text of a line has a type character and no line end. -/
def lineText (type : UInt8) (line : Bytes) : Bytes := type :: line.take (argLength line)

theorem length_lineText (type : UInt8) (line : Bytes) :
    (lineText type line).length = argLength line + 1 := by
  have short : argLength line ≤ line.length := by
    rw [argLength]
    split <;> omega
  rw [lineText, List.length_cons, List.length_take, Nat.min_eq_left short]

/-- The array of some words. -/
def wordsArray (words : List Bytes) : RedisMsg :=
  .array words.length (words.map fun word => .string .bulkString word.length word)

theorem wordsArray_injective {first second : List Bytes}
    (same : wordsArray first = wordsArray second) : first = second := by
  simp only [wordsArray, RedisMsg.array.injEq] at same
  apply List.map_injective_iff.mpr _ same.2
  intro w w' equal
  simp only [RedisMsg.string.injEq] at equal
  exact equal.2.2

/-- The part of a text that its int32 length covers. -/
def covered (text : Bytes) : Bytes := text.take (toInt32 text.length).toNat

theorem length_covered (text : Bytes) : (covered text).length < 2 ^ 31 := by
  have upper := Int.bmod_lt (x := (text.length : Int)) (m := 2 ^ 32) (by decide)
  rw [covered, List.length_take, toInt32]
  norm_num at upper ⊢
  omega

/-- A line that is no structured message becomes the array of its signed runs. -/
theorem unpack_inline {wrk : ScratchMem} (free : ∀ n, wrk n) {spaces line : Bytes} {type : UInt8}
    (allSpaces : ∀ c ∈ spaces, IsSpace c) (start : ¬IsSpace type) (noNewline : lf ∉ line)
    (noString : ∀ string : StringType, type ≠ string.char) (noArray : type ≠ arrayChar)
    (noInteger : type ≠ integerChar) (rest : Bytes) :
    unpack wrk (spaces ++ type :: (line ++ lf :: rest)) =
      .ok (wordsArray (runs (IsSeparator ·) (covered (lineText type line))),
        spaces.length + line.length + 2) := by
  obtain ⟨count, lengths⟩ := @runs_bounds _ (IsSeparator ·) (covered (lineText type line))
  have small := length_covered (lineText type line)
  have strings : (runs (IsSeparator ·) (covered (lineText type line))).map mkStr =
      (runs (IsSeparator ·) (covered (lineText type line))).map
        fun word => .string .bulkString word.length word := by
    apply List.map_congr_left
    intro word member
    have fits := lengths word member
    rw [mkStr, toInt32_of_bounds (by omega) (by omega)]
  have isCovered : (type :: line.take (argLength line)).take (toInt32 (argLength line + 1)).toNat =
      covered (lineText type line) := by
    rw [covered, length_lineText, Nat.cast_add, Nat.cast_one]
    rfl
  rw [unpack_complete wrk allSpaces start noNewline, unpackLine_inline wrk _ _ _ noString noArray
    noInteger, isCovered, split_runs free, strings, toInt32_of_bounds (by omega) (by omega)]
  show Except.ok (_, line.length + 2 + spaces.length) = _
  rw [wordsArray, Nat.add_comm _ spaces.length, Nat.add_assoc]

/-- The signed runs of the covered part are the unsigned runs of the text when the text has no byte
of the upper half and only separators behind the covered part. -/
theorem runs_covered_iff (text : Bytes) :
    runs (IsSeparator ·) (covered text) = runs separates text ↔
      (∀ c ∈ text, c < 128) ∧ ∀ c ∈ text.drop (toInt32 text.length).toNat, separates c := by
  obtain ⟨behind, isBehind⟩ : ∃ behind, behind = text.drop (toInt32 text.length).toNat := ⟨_, rfl⟩
  have whole : text = covered text ++ behind := by
    rw [isBehind, covered, List.take_append_drop]
  rw [← isBehind]
  generalize covered text = front at *
  subst whole
  apply Iff.intro
  · intro same
    have letters := congrArg List.flatten same
    rw [flatten_runs, flatten_runs] at letters
    apply And.intro
    · intro c member
      by_cases blank : separates c
      · have low : c.toNat ≤ 32 := by simpa [separates, UInt8.le_iff_toNat_le] using blank
        exact UInt8.lt_iff_toNat_lt.mpr (lt_of_le_of_lt low (by decide))
      · have kept : c ∈ (front ++ behind).filter (!separates ·) :=
          List.mem_filter.mpr ⟨member, by simpa using blank⟩
        rw [← letters] at kept
        have signed : ¬IsSeparator c := by simpa using (List.mem_filter.mp kept).2
        exact ((not_isSeparator_iff c).mp signed).2
    · have total := congrArg List.length letters
      have fewer : (front.filter fun c => !decide (IsSeparator c)).length ≤
          (front.filter (!separates ·)).length := by
        apply List.Sublist.length_le
        apply List.monotone_filter_right
        intro c kept
        have signed : ¬IsSeparator c := by simpa using kept
        simpa using ((not_isSeparator_iff c).mp signed).1
      rw [List.filter_append, List.length_append] at total
      have none : behind.filter (!separates ·) = [] := List.eq_nil_of_length_eq_zero (by omega)
      intro c member
      simpa using List.filter_eq_nil_iff.mp none c member
  · rintro ⟨lower, blank⟩
    rw [runs_append blank]
    apply runs_congr
    intro c member
    have low := lower c (List.mem_append_left _ member)
    have signed := not_isSeparator_iff c
    rw [and_iff_left low] at signed
    cases blank : separates c with
    | true => simpa [blank] using signed
    | false => simpa [blank] using signed

/-- An inline line is split into its runs of unsigned bytes above the space when it has no byte of
the upper half, and only separators where its length does not fit an int32. -/
theorem unpack_inline_exact {wrk : ScratchMem} (free : ∀ n, wrk n) {spaces line : Bytes}
    {type : UInt8} (allSpaces : ∀ c ∈ spaces, IsSpace c) (start : ¬IsSpace type)
    (noNewline : lf ∉ line) (noString : ∀ string : StringType, type ≠ string.char)
    (noArray : type ≠ arrayChar) (noInteger : type ≠ integerChar) (rest : Bytes) :
    unpack wrk (spaces ++ type :: (line ++ lf :: rest)) =
        .ok (wordsArray (runs separates (lineText type line)), spaces.length + line.length + 2) ↔
      (∀ c ∈ lineText type line, c < 128) ∧
        ∀ c ∈ (lineText type line).drop (toInt32 (lineText type line).length).toNat,
          separates c := by
  rw [unpack_inline free allSpaces start noNewline noString noArray noInteger,
    ← runs_covered_iff]
  simp only [Except.ok.injEq, Prod.mk.injEq, and_true]
  exact ⟨wordsArray_injective, congrArg wordsArray⟩

/-- A line of two words. -/
theorem unpack_inline_exact_get :
    unpack (fun _ => true) ([32] ++ 103 :: ([101, 116, 32, 107, 13] ++ lf :: [])) =
      .ok (wordsArray (runs separates (lineText 103 [101, 116, 32, 107, 13])), 8) :=
  (@unpack_inline_exact (fun _ => true) (fun _ => rfl) [32] [101, 116, 32, 107, 13] 103
    (by simp [IsSpace]) (by decide) (by decide) (by intro string; cases string <;> decide)
    (by decide) (by decide) []).mpr
    ⟨by decide +kernel, by decide +kernel⟩

/-- A byte of the upper half ends a word. -/
theorem not_unpack_inline_exact :
    unpack (fun _ => true) ([] ++ 97 :: ([200, 98] ++ lf :: [])) ≠
      .ok (wordsArray (runs separates (lineText 97 [200, 98])), 4) := by
  intro same
  rw [unpack_inline (fun _ => rfl) (by simp) (by decide) (by decide)
    (by intro string; cases string <;> decide) (by decide) (by decide)] at same
  simp only [Except.ok.injEq, Prod.mk.injEq] at same
  exact absurd (wordsArray_injective same.1) (by decide +kernel)

end Raids
