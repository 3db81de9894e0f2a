import Mathlib.Tactic

namespace Enumeration

variable {α : Type}

/-- The loop lists the elements from `a` until `next` has no more, or the fuel ends. -/
def enumerate (next : α → Option α) : Nat → α → List α
  | 0, _ => []
  | fuel + 1, a =>
      a :: match next a with
        | none => []
        | some b => enumerate next fuel b

theorem enumerate_none {next : α → Option α} {a : α} (last : next a = none) (fuel : Nat) :
    enumerate next (fuel + 1) a = [a] := by
  rw [enumerate, last]

theorem enumerate_some {next : α → Option α} {a b : α} (more : next a = some b) (fuel : Nat) :
    enumerate next (fuel + 1) a = a :: enumerate next fuel b := by
  rw [enumerate, more]

/-- A property of the first element and of every later one holds of all elements. -/
theorem forall_mem_enumerate {next : α → Option α} {P : α → Prop}
    (step : ∀ a b, next a = some b → P b) {fuel : Nat} {a : α} (first : P a) :
    ∀ b ∈ enumerate next fuel a, P b := by
  induction fuel generalizing a with
  | zero => simp [enumerate]
  | succ fuel ih =>
      cases more : next a with
      | none => simpa [enumerate_none more] using first
      | some c =>
          rw [enumerate_some more]
          intro b member
          rcases List.mem_cons.mp member with rfl | member
          · exact first
          · exact ih (step a c more) b member

/-- An enumeration that follows a sequence for `n` steps starts with it. -/
theorem enumerate_steps {next : α → Option α} (f : Nat → α) {n : Nat}
    (follows : ∀ k < n, next (f k) = some (f (k + 1))) (fuel : Nat) :
    enumerate next (n + fuel) (f 0) = (List.range n).map f ++ enumerate next fuel (f n) := by
  induction n generalizing f with
  | zero => simp
  | succ n ih =>
      have tail := ih (fun k => f (k + 1)) fun k inside => follows (k + 1) (by omega)
      rw [Nat.add_right_comm, enumerate_some (follows 0 (by omega)), List.range_succ_eq_map,
        List.map_cons, List.map_map, List.cons_append]
      exact congrArg (f 0 :: ·) tail

/-- An enumeration that also ends there is the sequence. -/
theorem enumerate_sequence {next : α → Option α} (f : Nat → α) {n fuel : Nat}
    (follows : ∀ k < n, next (f k) = some (f (k + 1))) (ends : next (f n) = none)
    (enough : n < fuel) :
    enumerate next fuel (f 0) = (List.range (n + 1)).map f := by
  obtain ⟨more, rfl⟩ : ∃ more, fuel = n + (more + 1) := ⟨fuel - n - 1, by omega⟩
  rw [enumerate_steps f follows, enumerate_none ends, List.range_succ, List.map_append]
  rfl

/-- An enumeration shorter than its fuel is complete. -/
theorem enumerate_complete {next : α → Option α} {fuel : Nat} {a : α}
    (short : (enumerate next fuel a).length < fuel) (more : Nat) :
    enumerate next (fuel + more) a = enumerate next fuel a := by
  induction fuel generalizing a with
  | zero => exact absurd short (Nat.not_lt_zero _)
  | succ fuel ih =>
      rw [Nat.add_right_comm]
      cases later : next a with
      | none => rw [enumerate_none later, enumerate_none later]
      | some b =>
          rw [enumerate_some later, List.length_cons] at short
          rw [enumerate_some later, enumerate_some later, ih (by omega)]

end Enumeration
