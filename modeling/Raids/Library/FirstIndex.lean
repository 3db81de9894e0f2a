import Mathlib.Tactic

namespace FirstIndex

variable {α κ : Type*} [DecidableEq κ] {f : α → κ} {xs ys : List α} {x : α} {k : κ}

/-- The first position of an element with the key, or the length of the list. -/
def firstIndex (f : α → κ) (xs : List α) (k : κ) : Nat := xs.findIdx fun x => f x = k

/-- Every element is linked to the first one with its key. -/
def links (f : α → κ) (xs : List α) : List Nat := xs.map fun x => firstIndex f xs (f x)

theorem firstIndex_lt_iff : firstIndex f xs k < xs.length ↔ ∃ x ∈ xs, f x = k := by
  rw [firstIndex, List.findIdx_lt_length]
  simp

theorem firstIndex_le_length (f : α → κ) (xs : List α) (k : κ) :
    firstIndex f xs k ≤ xs.length := List.findIdx_le_length

theorem firstIndex_eq_length (missing : ∀ x ∈ xs, f x ≠ k) : firstIndex f xs k = xs.length := by
  apply List.findIdx_eq_length_of_false
  simpa using missing

theorem getElem?_firstIndex (present : ∃ x ∈ xs, f x = k) :
    ∃ x, xs[firstIndex f xs k]? = some x ∧ f x = k := by
  have inside := firstIndex_lt_iff.mpr present
  refine ⟨xs[firstIndex f xs k], List.getElem?_eq_getElem inside, ?_⟩
  exact of_decide_eq_true (List.findIdx_getElem (w := inside))

/-- The first position of a key is not behind any of its positions. -/
theorem firstIndex_le {i : Nat} (found : xs[i]? = some x) : firstIndex f xs (f x) ≤ i := by
  obtain ⟨inside, rfl⟩ := List.getElem?_eq_some_iff.mp found
  by_contra later
  have other := List.not_of_lt_findIdx (Nat.lt_of_not_le later)
  simp at other

/-- Later elements do not change the first position of a key that is there. -/
theorem firstIndex_append (present : ∃ x ∈ xs, f x = k) :
    firstIndex f (xs ++ ys) k = firstIndex f xs k := by
  rw [firstIndex, List.findIdx_append]
  exact if_pos (firstIndex_lt_iff.mpr present)

/-- An element at the end is first where its key was missing. -/
theorem firstIndex_concat : firstIndex f (xs ++ [x]) (f x) = firstIndex f xs (f x) := by
  by_cases present : ∃ y ∈ xs, f y = f x
  · exact firstIndex_append present
  · have missing : ∀ y ∈ xs, f y ≠ f x := fun y member same => present ⟨y, member, same⟩
    have absent : xs.findIdx (fun y => f y = f x) = xs.length := firstIndex_eq_length missing
    rw [firstIndex, firstIndex, List.findIdx_append, absent, if_neg (Nat.lt_irrefl _)]
    simp

@[simp] theorem links_nil : links f [] = [] := rfl

@[simp] theorem length_links : (links f xs).length = xs.length := List.length_map _

theorem links_append :
    links f (xs ++ ys) = links f xs ++ ys.map fun y => firstIndex f (xs ++ ys) (f y) := by
  rw [links, List.map_append, links]
  congr 1
  apply List.map_congr_left
  intro x member
  exact firstIndex_append ⟨x, member, rfl⟩

theorem links_concat : links f (xs ++ [x]) = links f xs ++ [firstIndex f xs (f x)] := by
  rw [links_append, List.map_singleton, firstIndex_concat]

/-- The links of the elements of `xs` behind `before`. -/
def linksFrom (f : α → κ) : List α → List α → List Nat
  | _, [] => []
  | before, x :: xs => firstIndex f before (f x) :: linksFrom f (before ++ [x]) xs

@[simp] theorem length_linksFrom (before : List α) :
    (linksFrom f before xs).length = xs.length := by
  induction xs generalizing before with
  | nil => rfl
  | cons x xs ih => rw [linksFrom, List.length_cons, ih, List.length_cons]

theorem linksFrom_append (before : List α) :
    linksFrom f before (xs ++ ys) = linksFrom f before xs ++ linksFrom f (before ++ xs) ys := by
  induction xs generalizing before with
  | nil => simp [linksFrom]
  | cons x xs ih =>
      have more := ih (before ++ [x])
      rw [List.append_assoc, List.singleton_append] at more
      rw [List.cons_append, linksFrom, linksFrom, more, List.cons_append]

/-- The links of a list continue the links of its front. -/
theorem links_eq_linksFrom (before : List α) :
    links f (before ++ xs) = links f before ++ linksFrom f before xs := by
  induction xs generalizing before with
  | nil => simp [linksFrom]
  | cons x xs ih =>
      have more := ih (before ++ [x])
      rw [links_concat, List.append_assoc, List.append_assoc] at more
      exact more

theorem linksFrom_map {β : Type*} (g : β → α) (before xs : List β) :
    linksFrom f (before.map g) (xs.map g) = linksFrom (fun y => f (g y)) before xs := by
  induction xs generalizing before with
  | nil => rfl
  | cons x xs ih =>
      have more := ih (before ++ [x])
      rw [List.map_append, List.map_singleton] at more
      simp only [List.map_cons, linksFrom, more, firstIndex, List.findIdx_map]
      rfl

/-- The positions and keys of the elements of `xs` whose key is new behind `before`. -/
def firsts (f : α → κ) : List α → List α → List (Nat × κ)
  | _, [] => []
  | before, x :: xs =>
      let more := firsts f (before ++ [x]) xs
      if firstIndex f before (f x) = before.length then (before.length, f x) :: more else more

theorem firsts_append (before : List α) :
    firsts f before (xs ++ ys) = firsts f before xs ++ firsts f (before ++ xs) ys := by
  induction xs generalizing before with
  | nil => simp [firsts]
  | cons x xs ih =>
      have more := ih (before ++ [x])
      rw [List.append_assoc, List.singleton_append] at more
      simp only [List.cons_append, firsts, more]
      split <;> rfl

/-- A key is first behind `before` when it occurs and does not occur there. -/
theorem mem_firsts (before : List α) (i : Nat) :
    (i, k) ∈ firsts f before xs ↔
      (∃ x ∈ xs, f x = k) ∧ (∀ y ∈ before, f y ≠ k) ∧ i = firstIndex f (before ++ xs) k := by
  induction xs generalizing before with
  | nil => simp [firsts]
  | cons x xs ih =>
      have more := ih (before ++ [x])
      have bound := firstIndex_le_length f before (f x)
      have known := @firstIndex_lt_iff _ _ _ f before (f x)
      simp only [List.mem_append, List.mem_singleton, List.append_assoc, List.singleton_append]
        at more
      rw [firsts]
      split
      · rename_i isNew
        have missing : ∀ y ∈ before, f y ≠ f x := fun y member same =>
          absurd (known.mpr ⟨y, member, same⟩) (by omega)
        have place : firstIndex f (before ++ x :: xs) (f x) = before.length := by
          rw [List.append_cons, firstIndex_append ⟨x, by simp, rfl⟩, firstIndex_concat, isNew]
        rw [List.mem_cons, more, Prod.mk.injEq]
        grind
      · rename_i seen
        obtain ⟨y, member, same⟩ := known.mp (by omega)
        rw [more]
        grind

/-- Every key is first at one position. -/
theorem nodup_firsts (before xs : List α) : ((firsts f before xs).map Prod.snd).Nodup := by
  induction xs generalizing before with
  | nil => simp [firsts]
  | cons x xs ih =>
      rw [firsts]
      split
      · rw [List.map_cons, List.nodup_cons]
        refine ⟨fun member => ?_, ih (before ++ [x])⟩
        obtain ⟨⟨i, k⟩, inside, rfl⟩ := List.mem_map.mp member
        exact ((mem_firsts _ i).mp inside).2.1 x (by simp) rfl
      · exact ih (before ++ [x])

end FirstIndex
