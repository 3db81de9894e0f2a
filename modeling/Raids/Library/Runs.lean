import Mathlib.Data.List.TakeWhile

namespace Raids.Runs

variable {α : Type} {p q : α → Bool}

/-- The maximal runs of elements that are no separators. -/
def runs (p : α → Bool) (l : List α) : List (List α) := (l.splitOnP p).filter (!·.isEmpty)

@[simp] theorem runs_nil : runs p [] = [] := rfl

/-- A separator at the front is in no run. -/
theorem runs_cons {c : α} (separates : p c) (l : List α) : runs p (c :: l) = runs p l := by
  rw [runs, List.splitOnP_cons_eq_if_modifyHead, if_pos separates]
  rfl

theorem runs_dropWhile (l : List α) : runs p (l.dropWhile p) = runs p l := by
  induction l with
  | nil => rfl
  | cons c l ih =>
      cases separates : p c with
      | true => rw [List.dropWhile_cons_of_pos separates, ih, runs_cons separates]
      | false => rw [List.dropWhile_cons_of_neg (by simp [separates])]

theorem not_head_dropWhile (p : α → Bool) (l : List α) {c : α} (head : c ∈ (l.dropWhile p).head?) :
    p c = false := by
  have isNot := List.head?_dropWhile_not p l
  rw [Option.mem_def.mp head] at isNot
  exact isNot

/-- A word and what follows it. -/
theorem runs_word {w : List α} (nonempty : w ≠ []) (word : ∀ c ∈ w, p c = false) {l : List α}
    (ends : ∀ c ∈ l.head?, p c) : runs p (w ++ l) = w :: runs p l := by
  cases l with
  | nil => rw [List.append_nil, runs, List.splitOnP_eq_singleton word, runs_nil]; simp [nonempty]
  | cons c l =>
      have separates : p c := ends c (by simp)
      rw [runs, List.splitOnP_append_cons_of_forall_mem word c separates,
        List.filter_cons_of_pos (by simpa using nonempty), ← runs, runs_cons separates]

/-- Nothing but the separators is lost. -/
theorem flatten_runs (l : List α) : (runs p l).flatten = l.filter (!p ·) := by
  have whole : ∀ l : List α, (l.splitOnP p).flatten = l.filter (!p ·) := by
    intro l
    induction l with
    | nil => rfl
    | cons c l ih =>
        rw [List.splitOnP_cons_eq_if_modifyHead]
        cases separates : p c with
        | true => simp [separates, ih]
        | false =>
            obtain ⟨first, rest, parts⟩ := List.exists_cons_of_ne_nil (List.splitOnP_ne_nil p l)
            rw [parts] at ih ⊢
            simp only [Bool.false_eq_true, if_false, List.modifyHead_cons, List.flatten_cons,
              List.cons_append]
            rw [List.filter_cons_of_pos (by simp [separates]), ← ih, List.flatten_cons]
  rw [← whole, runs]
  induction l.splitOnP p with
  | nil => rfl
  | cons part parts ih =>
      cases part with
      | nil => simpa using ih
      | cons c part => simp [ih]

theorem ne_nil_of_mem_runs {l w : List α} (member : w ∈ runs p l) : w ≠ [] := by
  have kept := (List.mem_filter.mp member).2
  simpa using kept

/-- The runs are no more and no longer than the list. -/
theorem runs_bounds (l : List α) :
    (runs p l).length ≤ l.length ∧ ∀ w ∈ runs p l, w.length ≤ l.length := by
  have total : (runs p l).flatten.length ≤ l.length := by
    rw [flatten_runs]
    exact List.length_filter_le _ _
  apply And.intro
  · have some : ∀ parts : List (List α), (∀ w ∈ parts, w ≠ []) →
        parts.length ≤ parts.flatten.length := by
      intro parts
      induction parts with
      | nil => simp
      | cons w parts ih =>
          intro nonempty
          have positive := List.length_pos_iff.mpr (nonempty w List.mem_cons_self)
          have rest := ih fun w member => nonempty w (List.mem_cons_of_mem _ member)
          rw [List.length_cons, List.flatten_cons, List.length_append]
          omega
    exact (some _ fun w member => ne_nil_of_mem_runs member).trans total
  · intro w member
    exact (List.sublist_flatten_of_mem member).length_le.trans total

theorem runs_congr {l : List α} (same : ∀ c ∈ l, p c = q c) : runs p l = runs q l := by
  have parts : l.splitOnP p = l.splitOnP q := by
    induction l with
    | nil => rfl
    | cons c l ih =>
        rw [List.splitOnP_cons_eq_if_modifyHead, List.splitOnP_cons_eq_if_modifyHead,
          same c List.mem_cons_self, ih fun c member => same c (List.mem_cons_of_mem _ member)]
  rw [runs, runs, parts]

/-- Separators at the end are in no run. -/
theorem runs_append {tail : List α} (separate : ∀ c ∈ tail, p c) (l : List α) :
    runs p (l ++ tail) = runs p l := by
  cases tail with
  | nil => rw [List.append_nil]
  | cons c tail =>
      have none : runs p tail = [] := by
        rw [← runs_dropWhile, List.dropWhile_eq_nil_iff.mpr
          fun c member => separate c (List.mem_cons_of_mem _ member)]
        rfl
      rw [runs, List.splitOnP_append_cons _ _ (separate c List.mem_cons_self), List.filter_append]
      exact (congrArg _ none).trans (List.append_nil _)

end Raids.Runs
