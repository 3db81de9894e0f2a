import Mathlib.Logic.Function.Basic
import Mathlib.Data.List.Induction
import Mathlib.Tactic

namespace Raids.LastWrite

variable {α κ β : Type} [DecidableEq κ] (key : α → κ) (data : α → β)

/-- The last write of a place. -/
def last (writes : List α) (k : κ) : Option α := (writes.filter fun w => key w = k).getLast?

/-- The writes change a table one behind the other. -/
def writeAll (table : κ → β) (writes : List α) : κ → β :=
  writes.foldl (fun table w => Function.update table (key w) (data w)) table

variable {key data}

theorem last_eq_none {writes : List α} {k : κ} :
    last key writes k = none ↔ ∀ w ∈ writes, key w ≠ k := by
  simp [last]

@[simp] theorem last_nil (k : κ) : last key [] k = none := rfl

/-- Later writes come before earlier ones. -/
theorem last_append (writes writes' : List α) (k : κ) :
    last key (writes ++ writes') k = (last key writes' k).or (last key writes k) := by
  rw [last, List.filter_append, List.getLast?_append]
  rfl

theorem last_singleton (w : α) (k : κ) : last key [w] k = if key w = k then some w else none := by
  by_cases same : key w = k <;> simp [last, same]

/-- The last write of a place is one of the writes. -/
theorem mem_of_last {writes : List α} {k : κ} {w : α} (isLast : last key writes k = some w) :
    w ∈ writes ∧ key w = k := by
  have member := List.mem_of_getLast? isLast
  simpa using member

/-- A place that is written has a last write. -/
theorem exists_last {writes : List α} {w : α} (member : w ∈ writes) :
    ∃ w', last key writes (key w) = some w' := by
  cases isLast : last key writes (key w) with
  | some w' => exact ⟨w', rfl⟩
  | none => exact absurd rfl (last_eq_none.mp isLast w member)

/-- In an ordered list the last write of a place is behind all others of it. -/
theorem rel_last {R : α → α → Prop} (refl : ∀ w, R w w) {writes : List α} {k : κ} {w w' : α}
    (ordered : writes.Pairwise R) (isLast : last key writes k = some w) (member : w' ∈ writes)
    (same : key w' = k) : R w' w := by
  obtain ⟨init, split⟩ := List.getLast?_eq_some_iff.mp isLast
  have found : w' ∈ writes.filter fun w => key w = k := by simpa using ⟨member, same⟩
  have ordered := ordered.filter fun w => key w = k
  rw [split] at found ordered
  rcases List.mem_append.mp found with early | late
  · exact (List.pairwise_append.mp ordered).2.2 w' early w List.mem_cons_self
  · exact List.mem_singleton.mp late ▸ refl w'

/-- A place holds its last write. -/
theorem writeAll_apply (table : κ → β) (writes : List α) (k : κ) :
    writeAll key data table writes k = ((last key writes k).map data).getD (table k) := by
  induction writes using List.reverseRecOn with
  | nil => rfl
  | append_singleton writes w ih =>
      rw [writeAll, List.foldl_append, List.foldl_cons, List.foldl_nil, ← writeAll]
      by_cases same : key w = k
      · simp [last, same]
      · rw [Function.update_of_ne (Ne.symm same), ih]
        simp [last, same]

end Raids.LastWrite

namespace Raids.LinearProbe

/-- A search goes from one place of a ring to the next one until it stops. -/
def probe (size : Nat) (stop : Nat → Bool) : Nat → Nat → Option Nat
  | 0, _ => none
  | left + 1, k => if stop k then some k else probe size stop left ((k + 1) % size)

/-- The places that a search from `k` passes before it comes to `j`. -/
def Between (k j w : Nat) : Prop := if k ≤ j then k ≤ w ∧ w < j else k ≤ w ∨ w < j

/-- The steps of a search from `k` to `j`. -/
def distance (size k j : Nat) : Nat := if k ≤ j then j - k else size - k + j

variable {size : Nat} {stop : Nat → Bool} {left k j w : Nat}

theorem next_eq (inside : k < size) : (k + 1) % size = if k + 1 = size then 0 else k + 1 := by
  split
  · rename_i last
    rw [last, Nat.mod_self]
  · exact Nat.mod_eq_of_lt (by omega)

/-- A search passes no place where it stops. -/
theorem probe_passes (inside : k < size) (found : probe size stop left k = some j) :
    j < size ∧ stop j = true ∧ ∀ w < size, Between k j w → stop w = false := by
  induction left generalizing k with
  | zero => cases found
  | succ left ih =>
      rw [probe] at found
      by_cases here : stop k = true
      · rw [if_pos here] at found
        obtain rfl := Option.some.inj found
        refine ⟨inside, here, fun w _ passed => ?_⟩
        rw [Between, if_pos le_rfl] at passed
        omega
      · rw [if_neg here, next_eq inside] at found
        obtain ⟨below, stops, passes⟩ := ih (by split <;> omega) found
        refine ⟨below, stops, fun w within passed => ?_⟩
        have other : j ≠ k := fun same => here (same ▸ stops)
        by_cases first : w = k
        · rw [first]
          exact Bool.eq_false_iff.mpr here
        · apply passes w within
          rw [Between] at passed ⊢
          split_ifs at passed ⊢ <;> omega

/-- A search that finds no place has asked all of them. -/
theorem probe_asks (inside : k < size) (missing : probe size stop left k = none) (within : w < size)
    (near : distance size k w < left) : stop w = false := by
  induction left generalizing k with
  | zero => omega
  | succ left ih =>
      rw [probe] at missing
      by_cases here : stop k = true
      · rw [if_pos here] at missing
        cases missing
      · rw [if_neg here, next_eq inside] at missing
        by_cases first : w = k
        · rw [first]
          exact Bool.eq_false_iff.mpr here
        · apply ih (by split <;> omega) missing
          rw [distance] at near ⊢
          split_ifs at near ⊢ <;> omega

theorem distance_lt (inside : k < size) (within : w < size) : distance size k w < size := by
  rw [distance]
  split <;> omega

/-- A search around the ring fails where no place stops it. -/
theorem probe_eq_none_iff (inside : k < size) :
    probe size stop size k = none ↔ ∀ w < size, stop w = false := by
  apply Iff.intro
  · intro missing w within
    exact probe_asks inside missing within (distance_lt inside within)
  · intro none
    cases found : probe size stop size k with
    | none => rfl
    | some j =>
        obtain ⟨below, stops, _⟩ := probe_passes inside found
        rw [none j below] at stops
        cases stops

/-- A search around the ring finds the first place where it stops. -/
theorem probe_eq_some_iff (inside : k < size) :
    probe size stop size k = some j ↔
      j < size ∧ stop j = true ∧ ∀ w < size, Between k j w → stop w = false := by
  apply Iff.intro
  · exact probe_passes inside
  · rintro ⟨below, stops, passes⟩
    cases found : probe size stop size k with
    | none =>
        rw [(probe_eq_none_iff inside).mp found j below] at stops
        cases stops
    | some i =>
        obtain ⟨within, stops', passes'⟩ := probe_passes inside found
        by_contra other
        have differ : i ≠ j := fun same => other (congrArg some same)
        have either : Between k j i ∨ Between k i j := by
          rw [Between, Between]
          split_ifs <;> omega
        rcases either with passed | passed
        · rw [passes i within passed] at stops'
          cases stops'
        · rw [passes' j below passed] at stops
          cases stops

/-- Each place from a home up to a place is filled. -/
def Reached (size : Nat) (filled : Nat → Prop) (home s : Nat) : Prop :=
  ∀ w < size, Between home s w → filled w

theorem Reached.mono {filled filled' : Nat → Prop} {home s : Nat}
    (reached : Reached size filled home s)
    (more : ∀ w < size, Between home s w → filled w → filled' w) :
    Reached size filled' home s :=
  fun w within passed => more w within passed (reached w within passed)

end Raids.LinearProbe
