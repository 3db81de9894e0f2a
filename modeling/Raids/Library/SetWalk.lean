import Mathlib.Tactic
import Mathlib.Data.Finset.Sort

namespace SetWalk

variable {ι α : Type*} {query : ι → Option α} {again : α → ι}

/-- The loop asks for an element and goes on behind it, until there is none or the fuel ends. -/
def walk (query : ι → Option α) (again : α → ι) : Nat → ι → List α
  | 0, _ => []
  | fuel + 1, i =>
      match query i with
      | none => []
      | some a => a :: walk query again fuel (again a)

/-- A loop that is given the first element of what is left lists all of it in order. -/
theorem walk_eq_sort [DecidableEq α] (r : α → α → Prop) [DecidableRel r] [IsTrans α r]
    [Std.Antisymm r] [Std.Total r] {left : ι → Finset α}
    (ends : ∀ i, query i = none → left i = ∅)
    (first : ∀ i a, query i = some a → a ∈ left i ∧ (∀ b ∈ left i, r a b) ∧
      left (again a) = (left i).erase a) {fuel : Nat} {i : ι} (enough : (left i).card < fuel) :
    walk query again fuel i = (left i).sort r := by
  induction fuel generalizing i with
  | zero => omega
  | succ fuel ih =>
      rw [walk]
      cases asked : query i with
      | none =>
          rw [ends i asked]
          simp
      | some a =>
          obtain ⟨member, least, rest⟩ := first i a asked
          have smaller : (left (again a)).card < fuel := by
            rw [rest, Finset.card_erase_of_mem member]
            have := Finset.card_pos.mpr ⟨a, member⟩
            omega
          have others : ∀ b ∈ left (again a), r a b := by
            intro b inside
            rw [rest] at inside
            exact least b (Finset.mem_of_mem_erase inside)
          have missing : a ∉ left (again a) := by
            rw [rest]
            exact Finset.notMem_erase a _
          rw [← Finset.insert_erase member, ← rest, Finset.sort_insert r others missing]
          exact congrArg (a :: ·) (ih smaller)

end SetWalk
