import Raids.Proof.Memcached.Pointers
import Mathlib.Data.List.TakeWhile

namespace Raids.Memcached
open MemcachedArgs

/-- A blank line has only blanks in front of its end. -/
def BlankLine (line : Bytes) : Prop :=
  ∃ spaces ending, line = spaces ++ ending ∧ (∀ c ∈ spaces, c = space) ∧
    (ending = [lf] ∨ ending = [cr, lf])

/-- The skipped prefix of a buffer consists of blank lines. -/
inductive Blanks : Bytes → Prop where
  | nil : Blanks []
  | cons {line rest : Bytes} (blank : BlankLine line) (more : Blanks rest) : Blanks (line ++ rest)

/-- The bytes start with something other than a blank line. -/
def StartsRequest (s : Bytes) : Prop := ∀ line rest, s = line ++ rest → ¬BlankLine line

/-- The bytes in front of the first line feed end where the line feed stands. -/
theorem eol_append {content : Bytes} (noLf : lf ∉ content) (rest : Bytes) :
    eol (content ++ lf :: rest) = content.length := by
  have all : ∀ c ∈ content, decide (c ≠ lf) = true := by
    intro c member
    exact decide_eq_true fun same => noLf (same ▸ member)
  rw [eol, List.takeWhile_append_of_pos all]
  simp

/-- A buffer with a line feed splits at its first one. -/
theorem eol_split {s : Bytes} (present : lf ∈ s) :
    ∃ content rest, s = content ++ lf :: rest ∧ lf ∉ content ∧ eol s = content.length := by
  obtain ⟨content, rest, split, noLf⟩ := List.eq_append_cons_of_mem present
  exact ⟨content, rest, split, noLf, by rw [split, eol_append noLf]⟩

theorem eol_eq_length {s : Bytes} : eol s = s.length ↔ lf ∉ s := by
  constructor
  · intro whole present
    obtain ⟨content, rest, split, _, place⟩ := eol_split present
    rw [place, split, List.length_append, List.length_cons] at whole
    omega
  · intro absent
    rw [eol, List.takeWhile_eq_self_iff.mpr]
    intro c member
    exact decide_eq_true fun same => absent (same ▸ member)

theorem commandLine_append {content : Bytes} (noLf : lf ∉ content) (rest : Bytes) :
    commandLine (content ++ lf :: rest) = dropCr content := by
  rw [commandLine, eol_append noLf, List.take_left]

theorem drop_eol_append {content : Bytes} (noLf : lf ∉ content) (rest : Bytes) :
    (content ++ lf :: rest).drop (eol (content ++ lf :: rest) + 1) = rest := by
  rw [eol_append noLf, ← List.drop_drop, List.drop_left]
  rfl

theorem blanks_append {content : Bytes} (noLf : lf ∉ content) (rest : Bytes) :
    blanks (content ++ lf :: rest) = ((dropCr content).takeWhile (· = space)).length := by
  rw [blanks, commandLine_append noLf]

/-- What is left of a line is the line with or without its carriage return. -/
theorem dropCr_cases (content : Bytes) :
    content = dropCr content ∨ content = dropCr content ++ [cr] := by
  rw [dropCr]
  split
  · rename_i last
    right
    exact (List.dropLast_append_getLast? cr last).symm
  · left
    rfl

/-- The content of a blank line is blanks and perhaps a carriage return. -/
theorem blankLine_iff {line : Bytes} :
    BlankLine line ↔ ∃ content, line = content ++ [lf] ∧ ∀ c ∈ dropCr content, c = space := by
  constructor
  · intro blank
    obtain ⟨spaces, ending, split, all, ends⟩ := blank
    rcases ends with rfl | rfl
    · refine ⟨spaces, split, ?_⟩
      intro c member
      rw [dropCr] at member
      split at member
      · exact all c (List.mem_of_mem_dropLast member)
      · exact all c member
    · refine ⟨spaces ++ [cr], by rw [split, List.append_assoc]; rfl, ?_⟩
      intro c member
      rw [dropCr, if_pos (by simp), List.dropLast_concat] at member
      exact all c member
  · intro shape
    obtain ⟨content, split, all⟩ := shape
    rcases dropCr_cases content with same | same
    · exact ⟨dropCr content, [lf], by rw [split, ← same], all, .inl rfl⟩
    · refine ⟨dropCr content, [cr, lf], ?_, all, .inr rfl⟩
      rw [split]
      conv_lhs => rw [same]
      rw [List.append_assoc]
      rfl

theorem lf_notMem_of_blank {content : Bytes} (all : ∀ c ∈ dropCr content, c = space) :
    lf ∉ content := by
  intro member
  rcases dropCr_cases content with same | same
  · rw [same] at member
    exact absurd (all lf member) (by decide)
  · rw [same, List.mem_append, List.mem_singleton] at member
    rcases member with inside | last
    · exact absurd (all lf inside) (by decide)
    · exact absurd last (by decide)

/-- The loop recognizes a blank line by its count of blanks. -/
theorem blanks_eq_length {content : Bytes} (noLf : lf ∉ content) (rest : Bytes) :
    blanks (content ++ lf :: rest) = (commandLine (content ++ lf :: rest)).length ↔
      ∀ c ∈ dropCr content, c = space := by
  rw [blanks_append noLf, commandLine_append noLf]
  constructor
  · intro same c member
    have whole := (List.takeWhile_sublist (· = space)).eq_of_length same
    rw [List.takeWhile_eq_self_iff] at whole
    exact of_decide_eq_true (whole c member)
  · intro all
    rw [List.takeWhile_eq_self_iff.mpr fun c member => decide_eq_true (all c member)]

section Skip

variable (room : Nat → Bool) (buflen : Nat)

/-- A request starts at `s`; nothing is skipped any more. -/
def unpackRequest (j : Nat) (s : Bytes) : Unpacked :=
  if s = [] then ⟨.msgPartial, buflen, MemcachedMsg.fresh⟩
  else if s.head? = some binMagic then unpackBin buflen j s
  else if lf ∈ s then unpackText room j s
  else ⟨.msgPartial, buflen, MemcachedMsg.fresh⟩

theorem blankLine_head {line : Bytes} (blank : BlankLine line) :
    line ≠ [] ∧ line.head? ≠ some binMagic := by
  obtain ⟨spaces, ending, split, all, ends⟩ := blank
  cases spaces with
  | nil =>
      rcases ends with rfl | rfl
      · rw [split]
        decide
      · rw [split]
        decide
  | cons c spaces =>
      have same := all c (by simp)
      rw [split, same]
      simp [space, binMagic]

/-- One round of the loop takes a blank line. -/
theorem unpackFrom_blank {line : Bytes} (blank : BlankLine line) (fuel j : Nat) (rest : Bytes) :
    unpackFrom room buflen (fuel + 1) j (line ++ rest) =
      unpackFrom room buflen fuel (j + line.length) rest := by
  obtain ⟨nonempty, notMagic⟩ := blankLine_head blank
  obtain ⟨content, split, all⟩ := blankLine_iff.mp blank
  have noLf := lf_notMem_of_blank all
  have whole : line ++ rest = content ++ lf :: rest := by
    rw [split, List.append_assoc]
    rfl
  have head : (line ++ rest).head? ≠ some binMagic := by
    rwa [List.head?_append_of_ne_nil _ nonempty]
  have size : line.length = content.length + 1 := by
    rw [split, List.length_append, List.length_singleton]
  rw [unpackFrom, if_neg (by simp [nonempty]), if_neg head, whole,
    if_neg (by rw [eol_eq_length]; simp), if_pos ((blanks_eq_length noLf rest).mpr all),
    drop_eol_append noLf, eol_append noLf, size]

theorem unpackFrom_blanks {pre : Bytes} (skipped : Blanks pre) {fuel : Nat} (j : Nat) (s : Bytes)
    (enough : (pre ++ s).length < fuel) : ∃ left, s.length < left ∧
      unpackFrom room buflen fuel j (pre ++ s) =
        unpackFrom room buflen left (j + pre.length) s := by
  induction skipped generalizing fuel j with
  | nil => exact ⟨fuel, enough, rfl⟩
  | @cons line rest blank _ ih =>
      have positive := List.length_pos_of_ne_nil (blankLine_head blank).1
      simp only [List.length_append] at enough
      cases fuel with
      | zero => omega
      | succ fuel =>
          have fits : (rest ++ s).length < fuel := by
            rw [List.length_append]
            omega
          obtain ⟨left, more, same⟩ := ih (j + line.length) fits
          refine ⟨left, more, ?_⟩
          rw [List.append_assoc, unpackFrom_blank room buflen blank, same, List.length_append,
            Nat.add_assoc]

/-- Where a request starts, the loop ends. -/
theorem unpackFrom_request {s : Bytes} (starts : StartsRequest s) (fuel j : Nat) :
    unpackFrom room buflen (fuel + 1) j s = unpackRequest room buflen j s := by
  rw [unpackFrom, unpackRequest]
  by_cases empty : s = []
  · rw [if_pos empty, if_pos empty]
  rw [if_neg empty, if_neg empty]
  by_cases magic : s.head? = some binMagic
  · rw [if_pos magic, if_pos magic]
  rw [if_neg magic, if_neg magic]
  by_cases present : lf ∈ s
  · obtain ⟨content, rest, split, noLf, _⟩ := eol_split present
    have notBlank : ¬∀ c ∈ dropCr content, c = space := by
      intro all
      apply starts (content ++ [lf]) rest (by rw [split, List.append_assoc]; rfl)
      exact blankLine_iff.mpr ⟨content, rfl, all⟩
    rw [if_pos present, if_neg (by rw [eol_eq_length]; simpa using present), if_neg]
    rw [split, blanks_eq_length noLf]
    exact notBlank
  · rw [if_neg present, if_pos (eol_eq_length.mpr present)]

/-- The bytes split into blank lines and the start of a request. -/
theorem exists_request (s : Bytes) :
    ∃ pre t, s = pre ++ t ∧ Blanks pre ∧ StartsRequest t := by
  induction whole : s.length using Nat.strong_induction_on generalizing s with
  | _ size ih =>
      by_cases starts : StartsRequest s
      · exact ⟨[], s, rfl, .nil, starts⟩
      · simp only [StartsRequest, not_forall, not_not] at starts
        obtain ⟨line, rest, split, blank⟩ := starts
        have positive := List.length_pos_of_ne_nil (blankLine_head blank).1
        have shorter : rest.length < size := by
          rw [← whole, split, List.length_append]
          omega
        obtain ⟨pre, t, same, skipped, request⟩ := ih _ shorter rest rfl
        exact ⟨line ++ pre, t, by rw [split, same, List.append_assoc], .cons blank skipped, request⟩

theorem unpack_request {pre s : Bytes} (skipped : Blanks pre) (starts : StartsRequest s) :
    unpack room (pre ++ s) = unpackRequest room (pre ++ s).length pre.length s := by
  obtain ⟨left, more, same⟩ := unpackFrom_blanks room (pre ++ s).length skipped 0 s
    (Nat.lt_succ_self _)
  rw [unpack, same, Nat.zero_add]
  cases left with
  | zero => omega
  | succ left => exact unpackFrom_request room _ starts left _

end Skip

/-- A blank line ends at the first line feed. -/
theorem blankLine_unique {first second rest rest' : Bytes} (blank : BlankLine first)
    (blank' : BlankLine second) (same : first ++ rest = second ++ rest') : first = second := by
  obtain ⟨content, split, all⟩ := blankLine_iff.mp blank
  obtain ⟨content', split', all'⟩ := blankLine_iff.mp blank'
  have place := eol_append (lf_notMem_of_blank all) rest
  have place' := eol_append (lf_notMem_of_blank all') rest'
  have size : first.length = second.length := by
    rw [split, split', List.append_assoc, List.append_assoc] at same
    simp only [List.singleton_append] at same
    rw [split, split', List.length_append, List.length_append, ← place, ← place', same]
  exact List.append_inj_left same size

/-- A buffer has one start of a request. -/
theorem request_unique {pre pre' s s' : Bytes} (skipped : Blanks pre) (skipped' : Blanks pre')
    (starts : StartsRequest s) (starts' : StartsRequest s') (same : pre ++ s = pre' ++ s') :
    pre = pre' ∧ s = s' := by
  induction skipped generalizing pre' with
  | nil =>
      cases skipped' with
      | nil => exact ⟨rfl, same⟩
      | cons blank _ => exact absurd blank (starts _ _ (by rw [← List.append_assoc]; exact same))
  | @cons line rest blank _ ih =>
      cases skipped' with
      | nil => exact absurd blank (starts' _ _ (by rw [← List.append_assoc]; exact same.symm))
      | @cons line' rest' blank' more' =>
          rw [List.append_assoc, List.append_assoc] at same
          have first := blankLine_unique blank blank' same
          subst first
          obtain ⟨tail, request⟩ := ih more' (List.append_cancel_left same)
          exact ⟨by rw [tail], request⟩

end Raids.Memcached
