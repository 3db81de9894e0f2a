import Mathlib.Data.Multiset.Count
import Mathlib.Data.Set.Insert
import Mathlib.Tactic

namespace Announcement

/-- What a router hears of a table: an entry with a hash comes or leaves, and whether another entry
of the table has the hash. -/
inductive Notice (η : Type*) where
  | came (h : η) (shared : Bool)
  | left (h : η) (shared : Bool)

section Router

variable {η : Type*} {live next last : Multiset η} {known : Set η}

/-- The router knows the hashes only. It believes that a shared hash was there before, and that it
is there afterwards. -/
def follow (known : Set η) : Notice η → Set η
  | .came h shared => if shared then known else insert h known
  | .left h shared => if shared then known else known \ {h}

/-- A notice says what happens to the hashes of the table. -/
def Tells (live next : Multiset η) : Notice η → Prop
  | .came h shared => next = h ::ₘ live ∧ (shared ↔ h ∈ live)
  | .left h shared => live = h ::ₘ next ∧ (shared ↔ h ∈ next)

/-- Each notice of a list tells what happens next. -/
def TellsAll : Multiset η → List (Notice η) → Multiset η → Prop
  | live, [], last => last = live
  | live, notice :: notices, last => ∃ next, Tells live next notice ∧ TellsAll next notices last

theorem TellsAll.append {notices more : List (Notice η)} (first : TellsAll live notices next)
    (second : TellsAll next more last) : TellsAll live (notices ++ more) last := by
  induction notices generalizing live with
  | nil =>
      rw [TellsAll] at first
      rwa [← first]
  | cons notice notices ih =>
      obtain ⟨mid, tells, rest⟩ := first
      exact ⟨mid, tells, ih rest⟩

theorem TellsAll.nil : TellsAll live [] live := rfl

theorem tellsAll_singleton {notice : Notice η} (tells : Tells live next notice) :
    TellsAll live [notice] next :=
  ⟨next, tells, rfl⟩

theorem follow_of_tells {notice : Notice η} (tells : Tells live next notice)
    (knows : ∀ h, h ∈ known ↔ h ∈ live) (h : η) : h ∈ follow known notice ↔ h ∈ next := by
  cases notice with
  | came new shared =>
      obtain ⟨grown, truth⟩ := tells
      rw [grown, Multiset.mem_cons, follow]
      split_ifs with flag
      · rw [knows]
        have old := truth.mp flag
        constructor
        · exact Or.inr
        · rintro (rfl | mem)
          · exact old
          · exact mem
      · rw [Set.mem_insert_iff, knows]
  | left gone shared =>
      obtain ⟨shrunk, truth⟩ := tells
      rw [follow]
      split_ifs with flag
      · rw [knows, shrunk, Multiset.mem_cons]
        have stays := truth.mp flag
        constructor
        · rintro (rfl | mem)
          · exact stays
          · exact mem
        · exact Or.inr
      · have absent : gone ∉ next := fun mem => flag (truth.mpr mem)
        rw [Set.mem_sdiff, Set.mem_singleton_iff, knows, shrunk, Multiset.mem_cons]
        constructor
        · rintro ⟨rfl | mem, other⟩
          · exact absurd rfl other
          · exact mem
        · intro mem
          exact ⟨Or.inr mem, fun same => absent (same ▸ mem)⟩

/-- A router that hears the truth knows exactly the hashes of the table. -/
theorem follow_of_tellsAll {notices : List (Notice η)} (tells : TellsAll live notices last)
    (knows : ∀ h, h ∈ known ↔ h ∈ live) (h : η) : h ∈ notices.foldl follow known ↔ h ∈ last := by
  induction notices generalizing live known with
  | nil =>
      rw [TellsAll] at tells
      rw [tells]
      exact knows h
  | cons notice notices ih =>
      obtain ⟨next, first, rest⟩ := tells
      exact ih rest (follow_of_tells first knows)

/-- All entries of a table leave one after the other, each with a look at those that are left. -/
def leaveAll [DecidableEq η] : List η → List (Notice η)
  | [] => []
  | h :: left => .left h (h ∈ left) :: leaveAll left

theorem tellsAll_leaveAll [DecidableEq η] (hashes : List η) :
    TellsAll (hashes : Multiset η) (leaveAll hashes) 0 := by
  induction hashes with
  | nil => rfl
  | cons h hashes ih => exact ⟨hashes, ⟨(Multiset.cons_coe h hashes).symm, by simp⟩, ih⟩

end Router

section Table

variable {α κ η : Type*} [DecidableEq κ] [DecidableEq η] {key : α → κ} {hash : α → η} {f : κ → η}
  {l : List α} {k : κ}

/-- An entry is found under its key and the hash of the key. -/
def entryIs (key : α → κ) (hash : α → η) (h : η) (k : κ) (a : α) : Bool := hash a = h ∧ key a = k

theorem entryIs_iff (hashed : ∀ a ∈ l, hash a = f (key a)) {a : α} (member : a ∈ l) :
    entryIs key hash (f k) k a ↔ key a = k := by
  rw [entryIs, decide_eq_true_eq, hashed a member]
  exact ⟨And.right, fun same => ⟨congrArg f same, same⟩⟩

theorem find?_entryIs_none (hashed : ∀ a ∈ l, hash a = f (key a)) :
    l.find? (entryIs key hash (f k) k) = none ↔ k ∉ l.map key := by
  rw [List.find?_eq_none, List.mem_map, not_exists]
  refine forall_congr' fun a => ?_
  rw [not_and]
  refine forall_congr' fun member => ?_
  rw [entryIs_iff hashed member]

theorem mem_of_find?_entryIs {a : α} (found : l.find? (entryIs key hash (f k) k) = some a) :
    a ∈ l ∧ key a = k := by
  have is := List.find?_some found
  rw [entryIs, decide_eq_true_eq] at is
  exact ⟨List.mem_of_find?_eq_some found, is.2⟩

/-- The only entry of a key is removed. -/
theorem eraseP_entryIs (unique : (l.map key).Nodup) (hashed : ∀ a ∈ l, hash a = f (key a)) :
    l.eraseP (entryIs key hash (f k) k) = l.filter (key · ≠ k) := by
  induction l with
  | nil => rfl
  | cons a l ih =>
      rw [List.map_cons, List.nodup_cons] at unique
      have others : ∀ b ∈ l, hash b = f (key b) := fun b member =>
        hashed b (List.mem_cons_of_mem a member)
      have first := entryIs_iff (k := k) hashed (List.mem_cons_self (a := a))
      by_cases same : key a = k
      · rw [List.eraseP_cons_of_pos (first.mpr same), List.filter_cons_of_neg (by simp [same])]
        refine (List.filter_eq_self.mpr fun b member => ?_).symm
        rw [decide_eq_true_eq, ← same]
        exact fun equal => unique.1 (equal ▸ List.mem_map_of_mem member)
      · rw [List.eraseP_cons_of_neg (fun is => same (first.mp is)),
          List.filter_cons_of_pos (by simp [same]), ih unique.2 others]

/-- A table is one of its entries and the others. -/
theorem perm_entry (unique : (l.map key).Nodup) {a : α} (member : a ∈ l) :
    l.Perm (a :: l.filter (key · ≠ key a)) := by
  induction l with
  | nil => exact absurd member List.not_mem_nil
  | cons b l ih =>
      rw [List.map_cons, List.nodup_cons] at unique
      by_cases same : key b = key a
      · have equal : b = a := by
          rcases List.mem_cons.mp member with first | later
          · exact first.symm
          · exact absurd (same ▸ List.mem_map_of_mem later) unique.1
        subst equal
        rw [List.filter_cons_of_neg (by simp)]
        refine List.Perm.cons b (List.Perm.of_eq (List.filter_eq_self.mpr fun c inside => ?_).symm)
        rw [decide_eq_true_eq]
        exact fun equal => unique.1 (equal ▸ List.mem_map_of_mem inside)
      · have later : a ∈ l := by
          rcases List.mem_cons.mp member with first | later
          · exact absurd (congrArg key first.symm) same
          · exact later
        rw [List.filter_cons_of_pos (by simp [same])]
        exact ((ih unique.2 later).cons b).trans (List.Perm.swap a b _)

/-- The entries of a key are the one that is found. -/
theorem filter_key_eq (unique : (l.map key).Nodup) (hashed : ∀ a ∈ l, hash a = f (key a)) :
    l.filter (key · = k) = (l.find? (entryIs key hash (f k) k)).toList := by
  cases found : l.find? (entryIs key hash (f k) k) with
  | none =>
      have absent := (find?_entryIs_none hashed).mp found
      refine List.filter_eq_nil_iff.mpr fun a member same => absent ?_
      exact List.mem_map.mpr ⟨a, member, by simpa using same⟩
  | some a =>
      obtain ⟨member, same⟩ := mem_of_find?_entryIs found
      have perm := (perm_entry unique member).filter (key · = k)
      have others : (l.filter (key · ≠ key a)).filter (key · = k) = [] := by
        rw [List.filter_filter]
        exact List.filter_eq_nil_iff.mpr (by simp [same])
      rw [List.filter_cons_of_pos (by simp [same]), others] at perm
      exact List.perm_singleton.mp perm

end Table

end Announcement
