import Mathlib.Data.List.Perm.Subperm
import Mathlib.Data.List.Sort

namespace Ranking

variable {α κ : Type*} [LinearOrder κ] {key : α → κ} {n : Nat} {items first sorted : List α}

/-- A list has the first items of an order of their keys. -/
def IsFirst (key : α → κ) (n : Nat) (items first : List α) : Prop :=
  ∃ order : List α, order.Perm items ∧ order.Pairwise (fun x y => key x ≤ key y) ∧
    first = order.take n

/-- The keys of an order do not depend on the order. -/
theorem map_key_eq {order : List α} (perm : order.Perm items) (perm' : sorted.Perm items)
    (ordered : order.Pairwise fun x y => key x ≤ key y)
    (ordered' : sorted.Pairwise fun x y => key x ≤ key y) : order.map key = sorted.map key :=
  ((perm.trans perm'.symm).map key).eq_of_pairwise (fun _ _ _ _ => le_antisymm)
    (List.pairwise_map.mpr ordered) (List.pairwise_map.mpr ordered')

/-- The first items are items with the first keys of any order. -/
theorem isFirst_iff (perm : sorted.Perm items)
    (ordered : sorted.Pairwise fun x y => key x ≤ key y) :
    IsFirst key n items first ↔
      first.Subperm items ∧ first.map key = (sorted.take n).map key := by
  constructor
  · rintro ⟨order, perm', ordered', rfl⟩
    refine ⟨(List.take_sublist n order).subperm.trans perm'.subperm, ?_⟩
    rw [List.map_take, List.map_take, map_key_eq perm' perm ordered' ordered]
  · rintro ⟨within, keys⟩
    have whole : ∃ rest, items.Perm (first ++ rest) := by
      obtain ⟨first', same, sublist⟩ := within
      obtain ⟨rest, split⟩ := sublist.exists_perm_append
      exact ⟨rest, split.trans (same.append_right rest)⟩
    obtain ⟨rest, whole⟩ := whole
    have split : (sorted.take n ++ sorted.drop n).Pairwise fun x y => key x ≤ key y := by
      rw [List.take_append_drop]
      exact ordered
    obtain ⟨front, -, between⟩ := List.pairwise_append.mp split
    -- the keys of the rest are those behind the first ones
    have restKeys : (rest.map key).Perm ((sorted.drop n).map key) := by
      have both := (whole.symm.trans perm.symm).map key
      rw [← List.take_append_drop n sorted, List.map_append, List.map_append, keys] at both
      exact (List.perm_append_left_iff _).mp both
    have below : ∀ x ∈ first, ∀ y ∈ rest, key x ≤ key y := by
      intro x isFirst y isRest
      have low := List.mem_map_of_mem (f := key) isFirst
      rw [keys] at low
      obtain ⟨x', isFront, low⟩ := List.mem_map.mp low
      obtain ⟨y', isBack, high⟩ :=
        List.mem_map.mp (restKeys.mem_iff.mp (List.mem_map_of_mem (f := key) isRest))
      rw [← low, ← high]
      exact between x' isFront y' isBack
    have firstOrdered : first.Pairwise fun x y => key x ≤ key y := by
      rw [← List.pairwise_map (f := key) (R := (· ≤ ·)), keys, List.pairwise_map]
      exact front
    have restOrdered : (rest.mergeSort fun x y => key x ≤ key y).Pairwise
        fun x y => key x ≤ key y := by
      have merged := @List.pairwise_mergeSort _ (fun x y => decide (key x ≤ key y))
        (by simpa using fun x y z => le_trans) (by simpa using fun x y => le_total _ _) rest
      exact merged.imp fun ordered => of_decide_eq_true ordered
    have restPerm := rest.mergeSort_perm fun x y => key x ≤ key y
    refine ⟨first ++ rest.mergeSort fun x y => key x ≤ key y,
      (restPerm.append_left first).trans whole.symm, ?_, ?_⟩
    · refine List.pairwise_append.mpr ⟨firstOrdered, restOrdered, fun x isFirst y isRest => ?_⟩
      exact below x isFirst y (restPerm.mem_iff.mp isRest)
    · have taken := congrArg List.length keys
      have number := whole.length_eq
      have number' := perm.length_eq
      rw [List.length_map, List.length_map, List.length_take] at taken
      rw [List.length_append] at number
      rw [List.take_append, List.take_of_length_le (by omega)]
      have none : (rest.mergeSort fun x y => key x ≤ key y).take (n - first.length) = [] := by
        rw [List.take_eq_nil_iff, ← List.length_eq_zero_iff, List.length_mergeSort]
        omega
      rw [none, List.append_nil]

end Ranking
