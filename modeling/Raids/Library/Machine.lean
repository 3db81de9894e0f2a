import Mathlib.Tactic

namespace Machine

section Run

variable {σ ι ο : Type*} {step : σ → ι → ο × σ} {P Q : σ → ι → Prop} {Inv : σ → Prop} {s : σ}

/-- The machine answers every input and goes on with its next state. -/
def run (step : σ → ι → ο × σ) : σ → List ι → List ο × σ
  | s, [] => ([], s)
  | s, i :: is =>
      let (o, s) := step s i
      let (os, s) := run step s is
      (o :: os, s)

@[simp] theorem run_nil : run step s [] = ([], s) := rfl

@[simp] theorem run_cons (i : ι) (is : List ι) :
    run step s (i :: is) =
      ((step s i).1 :: (run step (step s i).2 is).1, (run step (step s i).2 is).2) := rfl

theorem run_append (is js : List ι) :
    run step s (is ++ js) =
      ((run step s is).1 ++ (run step (run step s is).2 js).1,
        (run step (run step s is).2 js).2) := by
  induction is generalizing s with
  | nil => rfl
  | cons i is ih => simp only [List.cons_append, run_cons, ih]

/-- A machine that reads its inputs through a map runs over the mapped inputs. -/
theorem run_map {κ : Type*} (step : σ → ι → ο × σ) (h : κ → ι) (is : List κ) :
    run (fun s i => step s (h i)) s is = run step s (is.map h) := by
  induction is generalizing s with
  | nil => rfl
  | cons i is ih => simp only [run_cons, List.map_cons, ih]

/-- A machine that changes its outputs runs through the same states. -/
theorem run_mapOutput {κ : Type*} (step : σ → ι → ο × σ) (h : ο → κ) (is : List ι) :
    run (fun s i => (h (step s i).1, (step s i).2)) s is =
      ((run step s is).1.map h, (run step s is).2) := by
  induction is generalizing s with
  | nil => rfl
  | cons i is ih => simp only [run_cons, ih, List.map_cons]

theorem length_outputs (is : List ι) : (run step s is).1.length = is.length := by
  induction is generalizing s with
  | nil => rfl
  | cons i is ih => simp only [run_cons, List.length_cons, ih]

/-- Every step of the run meets the property in the state before it. -/
def Along (step : σ → ι → ο × σ) (P : σ → ι → Prop) : σ → List ι → Prop
  | _, [] => True
  | s, i :: is => P s i ∧ Along step P (step s i).2 is

@[simp] theorem along_nil : Along step P s [] := trivial

@[simp] theorem along_cons {i : ι} {is : List ι} :
    Along step P s (i :: is) ↔ P s i ∧ Along step P (step s i).2 is := Iff.rfl

theorem along_mapOutput {κ : Type*} (step : σ → ι → ο × σ) (h : ο → κ) (is : List ι) :
    Along (fun s i => (h (step s i).1, (step s i).2)) P s is ↔ Along step P s is := by
  induction is generalizing s with
  | nil => exact Iff.rfl
  | cons i is ih => exact and_congr_right fun _ => ih

theorem along_and {is : List ι} (first : Along step P s is) (second : Along step Q s is) :
    Along step (fun s i => P s i ∧ Q s i) s is := by
  induction is generalizing s with
  | nil => trivial
  | cons i is ih => exact ⟨⟨first.1, second.1⟩, ih first.2 second.2⟩

/-- An invariant that the good steps keep holds at the end of a run of good steps. -/
theorem inv_of_along (keep : ∀ s i, Inv s → P s i → Inv (step s i).2) {is : List ι}
    (start : Inv s) (good : Along step P s is) : Inv (run step s is).2 := by
  induction is generalizing s with
  | nil => exact start
  | cons i is ih => exact ih (keep s i start good.1) good.2

/-- An invariant that every step keeps holds at the end of every run. -/
theorem inv_run (Inv : σ → Prop) (keep : ∀ s i, Inv s → Inv (step s i).2) (start : Inv s)
    (is : List ι) : Inv (run step s is).2 := by
  induction is generalizing s with
  | nil => exact start
  | cons i is ih => exact ih (keep s i start)

/-- What the good steps do under an invariant is done along a run of good steps. -/
theorem along_of_inv (keep : ∀ s i, Inv s → P s i → Inv (step s i).2)
    (law : ∀ s i, Inv s → P s i → Q s i) {is : List ι} (start : Inv s)
    (good : Along step P s is) : Along step Q s is := by
  induction is generalizing s with
  | nil => trivial
  | cons i is ih => exact ⟨law s i start good.1, ih (keep s i start good.1) good.2⟩

/-- Where the good steps are exactly the lawful ones under an invariant that they keep, the runs of
good steps are the lawful runs. -/
theorem along_iff (Inv : σ → Prop) (keep : ∀ s i, Inv s → P s i → Inv (step s i).2)
    (law : ∀ s i, Inv s → (Q s i ↔ P s i)) {is : List ι} (start : Inv s) :
    Along step Q s is ↔ Along step P s is := by
  induction is generalizing s with
  | nil => exact Iff.rfl
  | cons i is ih =>
      rw [along_cons, along_cons, law s i start]
      exact and_congr_right fun good => ih (keep s i start good)

end Run

section Simulation

variable {σ τ ι ο : Type*} {f : σ → ι → ο × σ} {g : τ → ι → ο × τ} {R : σ → τ → Prop}
  {P : σ → ι → Prop}

/-- Two machines that agree on the good steps agree on a run of good steps. -/
theorem simulate (keep : ∀ s t i, R s t → P s i → R (f s i).2 (g t i).2) {s : σ} {t : τ}
    {is : List ι} (start : R s t) (good : Along f P s is) : R (run f s is).2 (run g t is).2 := by
  induction is generalizing s t with
  | nil => exact start
  | cons i is ih => exact ih (keep s t i start good.1) good.2

/-- A machine that answers the good steps of another one like it does so over every run of them. -/
theorem outputs_eq_of_along {G : τ → ι → Prop}
    (agree : ∀ s t i, G t i → R s t → (f s i).1 = (g t i).1 ∧ R (f s i).2 (g t i).2) {s : σ} {t : τ}
    {is : List ι} (good : Along g G t is) (start : R s t) :
    (run f s is).1 = (run g t is).1 ∧ R (run f s is).2 (run g t is).2 := by
  induction is generalizing s t with
  | nil => exact ⟨rfl, start⟩
  | cons i is ih =>
      obtain ⟨answer, related⟩ := agree s t i good.1 start
      obtain ⟨answers, ends⟩ := ih good.2 related
      rw [run_cons, run_cons, answer, answers]
      exact ⟨rfl, ends⟩

/-- A machine that answers each valid input like another one does so over every run. -/
theorem outputs_eq {V : ι → Prop}
    (agree : ∀ s t i, V i → R s t → (f s i).1 = (g t i).1 ∧ R (f s i).2 (g t i).2) {s : σ} {t : τ}
    {is : List ι} (valid : ∀ i ∈ is, V i) (start : R s t) :
    (run f s is).1 = (run g t is).1 ∧ R (run f s is).2 (run g t is).2 := by
  refine outputs_eq_of_along (G := fun _ i => V i) agree ?_ start
  clear start
  induction is generalizing t with
  | nil => trivial
  | cons i is ih =>
      exact ⟨valid i List.mem_cons_self, ih fun j member => valid j (List.mem_cons_of_mem _ member)⟩

/-- Where exactly the good steps have equal outputs, exactly the runs of good steps have. -/
theorem outputs_eq_iff {V : ι → Prop}
    (equal : ∀ s t i, V i → R s t → ((f s i).1 = (g t i).1 ↔ P s i))
    (keep : ∀ s t i, V i → R s t → P s i → R (f s i).2 (g t i).2) {s : σ} {t : τ} {is : List ι}
    (valid : ∀ i ∈ is, V i) (start : R s t) :
    (run f s is).1 = (run g t is).1 ∧ R (run f s is).2 (run g t is).2 ↔ Along f P s is := by
  induction is generalizing s t with
  | nil => simpa using start
  | cons i is ih =>
      have first := valid i List.mem_cons_self
      have others := fun j member => valid j (List.mem_cons_of_mem _ member)
      rw [run_cons, run_cons, List.cons.injEq, equal s t i first start, along_cons, and_assoc]
      exact and_congr_right fun good => ih others (keep s t i first start good)

/-- A run of a machine that may choose among its answers. -/
def Runs (G : τ → ι → ο → τ → Prop) : τ → List ι → List ο → τ → Prop
  | t, [], os, last => os = [] ∧ last = t
  | t, i :: is, os, last => ∃ o os' next, os = o :: os' ∧ G t i o next ∧ Runs G next is os' last

/-- A machine refines another one where each of its steps is one of the choices. -/
theorem refines {G : τ → ι → ο → τ → Prop} {V : ι → Prop}
    (agree : ∀ s t i, V i → R s t → ∃ next, G t i (f s i).1 next ∧ R (f s i).2 next) {s : σ} {t : τ}
    {is : List ι} (valid : ∀ i ∈ is, V i) (start : R s t) :
    ∃ last, Runs G t is (run f s is).1 last ∧ R (run f s is).2 last := by
  induction is generalizing s t with
  | nil => exact ⟨t, ⟨rfl, rfl⟩, start⟩
  | cons i is ih =>
      obtain ⟨next, answer, related⟩ := agree s t i (valid i List.mem_cons_self) start
      obtain ⟨last, answers, ends⟩ :=
        ih (fun j member => valid j (List.mem_cons_of_mem _ member)) related
      exact ⟨last, ⟨_, _, next, rfl, answer, answers⟩, ends⟩

end Simulation

end Machine
