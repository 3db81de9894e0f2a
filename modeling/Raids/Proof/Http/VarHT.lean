import Mathlib.Algebra.BigOperators.Group.Finset.Basic
import Raids.Construction.Http.VarHT
import Raids.Library.LinearProbe

namespace Raids.Http.VarHT
open LinearProbe

section Mask

variable {N : Nat}

/-- The sizes that a mask works for. -/
def IsRing (N : Nat) : Prop := ∃ b, N = 2 ^ b

theorem and_mask (ring : IsRing N) (k : Nat) : k &&& (N - 1) = k % N := by
  obtain ⟨b, rfl⟩ := ring
  exact Nat.and_two_pow_sub_one_eq_mod k b

theorem IsRing.pos (ring : IsRing N) : 0 < N := by
  obtain ⟨b, rfl⟩ := ring
  exact Nat.two_pow_pos b

theorem probe_ring (ring : IsRing N) (stop : Nat → Bool) (left k : Nat) :
    probe (N - 1) stop left k = LinearProbe.probe N stop left k := by
  induction left generalizing k with
  | zero => rfl
  | succ left ih => rw [probe, LinearProbe.probe, ih, and_mask ring]

end Mask

section Slots

variable (hash : Bytes → UInt32) (N : Nat) (p : Nat → Pair)

/-- The slot that a name is looked for first. -/
def home (x : Bytes) : Nat := (hash x).toNat % N

/-- A slot with a pair. -/
def Filled (i : Nat) : Prop := (p i).isEmpty = false

/-- The slots whose pairs have a property. -/
def having (P : Pair → Bool) : Finset Nat := (Finset.range N).filter fun i => P (p i)

/-- The slots with a pair. -/
def filled : Finset Nat := having N p fun q => !q.isEmpty

/-- No slot on the way of the pair of a slot is empty. -/
def Chained (i : Nat) : Prop := Reached N (Filled p) (home hash N (p i).x) i

variable {hash N p} {P : Pair → Bool} {i j : Nat}

theorem mem_having : i ∈ having N p P ↔ i < N ∧ P (p i) = true := by
  rw [having, Finset.mem_filter, Finset.mem_range]

theorem mem_filled : i ∈ filled N p ↔ i < N ∧ Filled p i := by
  rw [filled, mem_having, Filled]
  simp

theorem home_lt (positive : 0 < N) (x : Bytes) : home hash N x < N := Nat.mod_lt _ positive

theorem isEmpty_empty : ({} : Pair).isEmpty = true := rfl

@[simp] theorem move_from : move p i j i = {} := by
  rw [move, Function.update_self]

theorem move_to (other : j ≠ i) : move p i j j = p i := by
  rw [move, Function.update_of_ne other, Function.update_self]

theorem move_of_ne {w : Nat} (notFrom : w ≠ i) (notTo : w ≠ j) : move p i j w = p w := by
  rw [move, Function.update_of_ne notFrom, Function.update_of_ne notTo]

/-- A move fills a slot and empties one. -/
theorem filled_move {w : Nat} (other : j ≠ i) (some : Filled p i) :
    Filled (move p i j) w ↔ w ≠ i ∧ (Filled p w ∨ w = j) := by
  by_cases isFrom : w = i
  · rw [isFrom, Filled, move_from]
    simp [isEmpty_empty]
  · by_cases isTo : w = j
    · rw [isTo, Filled, move_to other]
      simp [other, show (p i).isEmpty = false from some]
    · rw [Filled, move_of_ne isFrom isTo, Filled]
      simp [isFrom, isTo]

/-- A move to an empty slot keeps the number of pairs with a property. -/
theorem card_having_move (noEmpty : ∀ q, q.isEmpty = true → P q = false) (first : i < N)
    (second : j < N) (empty : (p j).isEmpty = true) (other : j ≠ i) :
    (having N (move p i j) P).card = (having N p P).card := by
  apply Finset.card_equiv (Equiv.swap i j)
  intro w
  rw [mem_having, mem_having]
  by_cases isFrom : w = i
  · rw [isFrom, move_from, Equiv.swap_apply_left, noEmpty _ empty, noEmpty _ isEmpty_empty]
    simp
  · by_cases isTo : w = j
    · rw [isTo, move_to other, Equiv.swap_apply_right]
      simp [first, second]
    · rw [move_of_ne isFrom isTo, Equiv.swap_apply_of_ne_of_ne isFrom isTo]

end Slots

section Resize

variable {hash : Bytes → UInt32} {n N : Nat} {p p₀ : Nat → Pair} {i s : Nat}

/-- The way of the pair in a slot ends at that slot, or at an empty one before it. -/
theorem way_ends (ring : IsRing N) (inside : i < N) :
    ∃ j, probe (N - 1) (fun j => j = i || (p j).isEmpty) N
        ((hash (p i).x).toNat &&& (N - 1)) = some j ∧ j < N ∧
      (j = i ∨ (p j).isEmpty = true) ∧
      ∀ w < N, Between (home hash N (p i).x) j w → w ≠ i ∧ Filled p w := by
  rw [probe_ring ring, and_mask ring, ← home]
  have start := @home_lt hash N ring.pos (p i).x
  cases found : LinearProbe.probe N (fun j => j = i || (p j).isEmpty) N (home hash N (p i).x) with
  | none =>
      have asked := (probe_eq_none_iff start).mp found i inside
      simp at asked
  | some j =>
      obtain ⟨below, stops, passes⟩ := (probe_eq_some_iff start).mp found
      refine ⟨j, rfl, below, by simpa using stops, fun w within passed => ?_⟩
      simpa [Filled] using passes w within passed

/-- While the old slots are visited, the visited pairs are on their ways, and the pairs of the new
slots have no empty new slot before them. -/
structure Lower (hash : Bytes → UInt32) (n N : Nat) (p : Nat → Pair) (i : Nat) : Prop where
  few : 2 * (filled N p).card ≤ n
  chained : ∀ t < i, Filled p t → Chained hash N p t
  upper : ∀ u < N, n ≤ u → Filled p u → home hash N (p u).x ≤ u ∧
    ∀ w, n ≤ w → home hash N (p u).x ≤ w → w < u → Filled p w

/-- A new slot behind the first one is empty. -/
theorem exists_gap (large : 8 ≤ n) (few : 2 * (filled (n * 2) p).card ≤ n) :
    ∃ g, n < g ∧ g < n * 2 ∧ ¬Filled p g := by
  by_contra full
  push Not at full
  have all : Finset.Ioo n (n * 2) ⊆ filled (n * 2) p := by
    intro g between
    rw [Finset.mem_Ioo] at between
    exact mem_filled.mpr ⟨between.2, full g between.1 between.2⟩
  have count := Finset.card_le_card all
  rw [Nat.card_Ioo] at count
  omega

theorem step_lower (large : 8 ≤ n) (ring : IsRing (n * 2)) (inside : i < n)
    (lower : Lower hash n (n * 2) p i) (some : Filled p i) {j : Nat} (below : j < n * 2)
    (stops : j = i ∨ (p j).isEmpty = true)
    (passes : ∀ w < n * 2, Between (home hash (n * 2) (p i).x) j w → w ≠ i ∧ Filled p w) :
    Lower hash n (n * 2) (if j = i then p else move p i j) (i + 1) := by
  obtain ⟨few, chained, upper⟩ := lower
  split
  · rename_i same
    refine ⟨few, fun t visited isFilled => ?_, upper⟩
    rcases Nat.lt_succ_iff_lt_or_eq.mp visited with before | rfl
    · exact chained t before isFilled
    · exact fun w within passed => (passes w within (same ▸ passed)).2
  · rename_i other
    have empty := stops.resolve_left other
    obtain ⟨g, behind, within, gap⟩ := exists_gap large few
    have count := @card_having_move (n * 2) p (fun q => !q.isEmpty) i j (by simp) (by omega) below
      empty other
    refine ⟨by rw [filled, count]; exact few, fun t visited isFilled => ?_,
      fun u within new isFilled => ?_⟩
    · obtain ⟨notFrom, filledOr⟩ := (filled_move other some).mp isFilled
      by_cases isTo : t = j
      · rw [Chained, isTo, move_to other]
        intro w inside passed
        have clear := passes w inside passed
        exact (filled_move other some).mpr ⟨clear.1, .inl clear.2⟩
      · rw [Chained, move_of_ne notFrom isTo]
        have reached := chained t (by omega) (filledOr.resolve_right isTo)
        refine reached.mono fun w inside passed isFilled => ?_
        refine (filled_move other some).mpr ⟨fun same => gap ?_, .inl isFilled⟩
        -- A way over the slot that is emptied goes through all new slots.
        apply reached g within
        rw [same, Between] at passed
        rw [Between]
        split_ifs at passed ⊢ <;> omega
    · obtain ⟨notFrom, filledOr⟩ := (filled_move other some).mp isFilled
      by_cases isTo : u = j
      · rw [isTo, move_to other]
        have noWrap : home hash (n * 2) (p i).x ≤ j := by
          by_contra wraps
          apply (passes i (by omega) _).1 rfl
          rw [Between, if_neg wraps]
          omega
        refine ⟨noWrap, fun w _ behind before => ?_⟩
        have clear := passes w (by omega) (by rw [Between, if_pos noWrap]; exact ⟨behind, before⟩)
        exact (filled_move other some).mpr ⟨clear.1, .inl clear.2⟩
      · rw [move_of_ne notFrom isTo]
        obtain ⟨noWrap, clear⟩ := upper u within new (filledOr.resolve_right isTo)
        refine ⟨noWrap, fun w isNew behind before => ?_⟩
        exact (filled_move other some).mpr ⟨by omega, .inl (clear w isNew behind before)⟩

/-- The entries are the same, each as often. -/
def Same (N : Nat) (p p' : Nat → Pair) : Prop :=
  ∀ P : Pair → Bool, (∀ q, q.isEmpty = true → P q = false) →
    (having N p' P).card = (having N p P).card

theorem same_step (inside : i < N) {j : Nat} (below : j < N)
    (stops : j = i ∨ (p j).isEmpty = true) : Same N p (if j = i then p else move p i j) := by
  intro P noEmpty
  split
  · rfl
  · rename_i other
    exact card_having_move noEmpty inside below (stops.resolve_left other) other

theorem Same.trans {p' p'' : Nat → Pair} (first : Same N p p') (second : Same N p' p'') :
    Same N p p'' :=
  fun P noEmpty => (second P noEmpty).trans (first P noEmpty)

/-- The visit of a slot. -/
theorem resizeLoop_empty {sz sz2 left : Nat} (empty : (p i).isEmpty = true) (low : ¬sz < i) :
    resizeLoop hash sz sz2 (left + 1) i p = resizeLoop hash sz sz2 left (i + 1) p := by
  rw [resizeLoop, if_pos empty, if_neg low]

/-- The visits of the old slots. -/
theorem resizeLoop_lower (large : 8 ≤ n) (ring : IsRing (n * 2)) {left : Nat} (visits : i + left = n)
    (lower : Lower hash n (n * 2) p i) :
    ∃ p₀, Lower hash n (n * 2) p₀ n ∧ Same (n * 2) p p₀ ∧
      resizeLoop hash n (n * 2) (left + n) i p = resizeLoop hash n (n * 2) n n p₀ := by
  induction left generalizing i p with
  | zero =>
      rw [Nat.add_zero] at visits
      exact ⟨p, visits ▸ lower, fun _ _ => rfl, by rw [visits, Nat.zero_add]⟩
  | succ left ih =>
      rw [Nat.succ_add]
      by_cases empty : (p i).isEmpty = true
      · have next : Lower hash n (n * 2) p (i + 1) := by
          refine ⟨lower.few, fun t visited isFilled => ?_, lower.upper⟩
          rcases Nat.lt_succ_iff_lt_or_eq.mp visited with before | rfl
          · exact lower.chained t before isFilled
          · exact absurd empty (Bool.eq_false_iff.mp isFilled)
        rw [resizeLoop_empty empty (by omega)]
        exact ih (by omega) next
      · have some : Filled p i := Bool.eq_false_iff.mpr empty
        obtain ⟨j, found, below, stops, passes⟩ := @way_ends hash (n * 2) p i ring (by omega)
        have next := step_lower large ring (by omega) lower some below stops passes
        obtain ⟨p₀, done, same, rest⟩ := ih (by omega) next
        refine ⟨p₀, done, (same_step (by omega) below stops).trans same, ?_⟩
        rw [resizeLoop, if_neg empty]
        simp only [found]
        exact rest

/-- While the new slots are visited, the visited pairs are on their ways, which do not come to the
slots that are left, and these slots are as they were. -/
structure Upper (hash : Bytes → UInt32) (N : Nat) (p₀ p : Nat → Pair) (s i : Nat) : Prop where
  chained : ∀ t < i, Filled p t → Chained hash N p t ∧
    (home hash N (p t).x ≤ t ∨ s < home hash N (p t).x)
  unvisited : ∀ u, i ≤ u → p u = p₀ u

theorem step_upper (within : s < N) (inside : i < s) (noWrap : home hash N (p i).x ≤ i)
    (upper : Upper hash N p₀ p s i) (some : Filled p i) {j : Nat}
    (stops : j = i ∨ (p j).isEmpty = true)
    (passes : ∀ w < N, Between (home hash N (p i).x) j w → w ≠ i ∧ Filled p w) :
    Upper hash N p₀ (if j = i then p else move p i j) s (i + 1) := by
  obtain ⟨chained, unvisited⟩ := upper
  split
  · rename_i same
    refine ⟨fun t visited isFilled => ?_, fun u after => unvisited u (by omega)⟩
    rcases Nat.lt_succ_iff_lt_or_eq.mp visited with before | rfl
    · exact chained t before isFilled
    · exact ⟨fun w within passed => (passes w within (same ▸ passed)).2, .inl noWrap⟩
  · rename_i other
    -- The way of the pair passes only visited slots.
    have before : home hash N (p i).x ≤ j ∧ j < i := by
      by_contra outside
      apply (passes i (by omega) _).1 rfl
      rw [Between]
      split <;> omega
    refine ⟨fun t visited isFilled => ?_, fun u after => ?_⟩
    · obtain ⟨notFrom, filledOr⟩ := (filled_move other some).mp isFilled
      by_cases isTo : t = j
      · rw [Chained, isTo, move_to other]
        refine ⟨fun w inside passed => ?_, .inl before.1⟩
        have clear := passes w inside passed
        exact (filled_move other some).mpr ⟨clear.1, .inl clear.2⟩
      · obtain ⟨reached, side⟩ := chained t (by omega) (filledOr.resolve_right isTo)
        rw [Chained, move_of_ne notFrom isTo]
        refine ⟨reached.mono fun w inside passed isFilled => ?_, side⟩
        refine (filled_move other some).mpr ⟨fun same => ?_, .inl isFilled⟩
        rw [same, Between] at passed
        split_ifs at passed <;> omega
    · rw [move_of_ne (by omega) (by omega)]
      exact unvisited u (by omega)

/-- The visits of the new slots up to the first empty one. -/
theorem resizeLoop_upper (ring : IsRing (n * 2)) (within : s < n * 2)
    (noWrap : ∀ u, n ≤ u → u < s → Filled p₀ u → home hash (n * 2) (p₀ u).x ≤ u)
    (first : ∀ u, n < u → u < s → Filled p₀ u) (last : (p₀ s).isEmpty = true) (behind : n < s)
    {left rest : Nat} (visits : i + left = s) (new : n ≤ i)
    (upper : Upper hash (n * 2) p₀ p s i) :
    ∃ p', Upper hash (n * 2) p₀ p' s s ∧ Same (n * 2) p p' ∧
      resizeLoop hash n (n * 2) (left + (rest + 1)) i p = some p' := by
  induction left generalizing i p with
  | zero =>
      rw [Nat.add_zero] at visits
      refine ⟨p, visits ▸ upper, fun _ _ => rfl, ?_⟩
      rw [Nat.zero_add, resizeLoop, if_pos, if_pos (by omega)]
      rw [visits, upper.unvisited s (by omega)]
      exact last
  | succ left ih =>
      rw [Nat.succ_add]
      by_cases empty : (p i).isEmpty = true
      · have isFirst : i = n := by
          by_contra other
          have isFilled := first i (by omega) (by omega)
          rw [Filled, ← upper.unvisited i le_rfl, empty] at isFilled
          cases isFilled
        have next : Upper hash (n * 2) p₀ p s (i + 1) := by
          refine ⟨fun t visited isFilled => ?_, fun u after => upper.unvisited u (by omega)⟩
          rcases Nat.lt_succ_iff_lt_or_eq.mp visited with before | rfl
          · exact upper.chained t before isFilled
          · exact absurd empty (Bool.eq_false_iff.mp isFilled)
        rw [resizeLoop_empty empty (by omega)]
        exact ih (by omega) (by omega) next
      · have isFilled : Filled p i := Bool.eq_false_iff.mpr empty
        obtain ⟨j, found, below, stops, passes⟩ := @way_ends hash (n * 2) p i ring (by omega)
        have here := upper.unvisited i le_rfl
        have low : home hash (n * 2) (p i).x ≤ i := by
          rw [here]
          exact noWrap i new (by omega) (by rw [Filled, ← here]; exact isFilled)
        have next := step_upper within (by omega) low upper isFilled stops passes
        obtain ⟨p', done, same, rest⟩ := ih (by omega) (by omega) next
        refine ⟨p', done, (same_step (by omega) below stops).trans same, ?_⟩
        rw [resizeLoop, if_neg empty]
        simp only [found]
        exact rest

/-- A table of old slots grows to one where no way has an empty slot. -/
theorem resizeLoop_works (large : 8 ≤ n) (ring : IsRing (n * 2))
    (few : 2 * (filled (n * 2) p).card ≤ n) (old : ∀ i, n ≤ i → i < n * 2 → (p i).isEmpty = true) :
    ∃ p', resizeLoop hash n (n * 2) (n * 2) 0 p = some p' ∧ Same (n * 2) p p' ∧
      ∀ t < n * 2, Filled p' t → Chained hash (n * 2) p' t := by
  have start : Lower hash n (n * 2) p 0 := by
    refine ⟨few, fun t visited => absurd visited (Nat.not_lt_zero t), ?_⟩
    intro u within new isFilled
    exact absurd (old u new within) (Bool.eq_false_iff.mp isFilled)
  obtain ⟨p₀, lower, same, rest⟩ := resizeLoop_lower large ring (Nat.zero_add n) start
  -- The first empty slot behind the first new one.
  obtain ⟨g, gap⟩ := exists_gap large lower.few
  obtain ⟨s, isFirst⟩ : ∃ s, (n < s ∧ s < n * 2 ∧ ¬Filled p₀ s) ∧
      ∀ u, n < u → u < s → Filled p₀ u := by
    classical
    have exists_ : ∃ g, n < g ∧ g < n * 2 ∧ ¬Filled p₀ g := ⟨g, gap⟩
    refine ⟨Nat.find exists_, Nat.find_spec exists_, fun u behind before => ?_⟩
    by_contra isGap
    have within := (Nat.find_spec exists_).2.1
    exact Nat.find_min exists_ before ⟨behind, by omega, isGap⟩
  obtain ⟨⟨behind, within, isGap⟩, first⟩ := isFirst
  have empty : (p₀ s).isEmpty = true := by
    rw [Filled, Bool.not_eq_false] at isGap
    exact isGap
  have next : Upper hash (n * 2) p₀ p₀ s n := by
    refine ⟨fun t visited isFilled => ?_, fun u _ => rfl⟩
    have reached := lower.chained t visited isFilled
    refine ⟨reached, ?_⟩
    by_contra wraps
    apply isGap
    apply reached s within
    rw [Between]
    split <;> omega
  obtain ⟨p', upper, same', done⟩ := @resizeLoop_upper hash n p₀ p₀ n s ring within
    (fun u new _ isFilled => (lower.upper u (by omega) new isFilled).1) first empty behind
    (s - n) (n * 2 - s - 1) (by omega) le_rfl next
  refine ⟨p', ?_, same.trans same', fun t below isFilled => ?_⟩
  · have twice : n + n = n * 2 := by omega
    have visits : s - n + (n * 2 - s - 1 + 1) = n := by omega
    rw [visits] at done
    rw [twice] at rest
    rw [rest, done]
  · rcases Nat.lt_trichotomy t s with before | rfl | after
    · exact (upper.chained t before isFilled).1
    · rw [Filled, upper.unvisited t le_rfl, empty] at isFilled
      cases isFilled
    · -- The slots behind the empty one are as they were, and no way comes over it.
      have here := upper.unvisited t (by omega)
      rw [Filled, here] at isFilled
      obtain ⟨noWrap, clear⟩ := lower.upper t below (by omega) isFilled
      rw [Chained, here]
      intro w inside passed
      have behindGap : s < home hash (n * 2) (p₀ t).x := by
        by_contra passesGap
        exact isGap (clear s (by omega) (by omega) after)
      rw [Between, if_pos noWrap] at passed
      rw [Filled, upper.unvisited w (by omega)]
      exact clear w (by omega) passed.1 passed.2

end Resize

section Table

variable (hash : Bytes → UInt32)

/-- The names differ, at most half of the slots are filled, and no way has an empty slot. -/
structure Inv (t : VarHT) : Prop where
  ring : t.sz = 0 ∨ 8 ≤ t.sz ∧ IsRing t.sz
  count : (filled t.sz t.p).card = t.used
  half : 2 * t.used ≤ t.sz
  unique : ∀ x, x ≠ [] → (having t.sz t.p fun q => q.x = x).card ≤ 1
  chained : ∀ i < t.sz, Filled t.p i → Chained hash t.sz t.p i

/-- A slot has the pair. -/
def Has (t : VarHT) (q : Pair) : Prop := ∃ i < t.sz, t.p i = q

/-- The pairs of two tables are the same, each in as many slots. -/
def SamePairs (t t' : VarHT) : Prop :=
  ∀ P : Pair → Bool, (∀ q, q.isEmpty = true → P q = false) →
    (having t'.sz t'.p P).card = (having t.sz t.p P).card

variable {hash} {t t' : VarHT} {x : Bytes} {q : Pair} {i k : Nat}

theorem filled_of_named (named : x ≠ []) (here : (t.p i).x = x) : Filled t.p i := by
  rw [Filled, Pair.isEmpty, here, List.isEmpty_eq_false_iff]
  exact named

theorem init_inv : Inv hash init := by
  refine ⟨.inl rfl, ?_, le_rfl, fun x _ => ?_, fun i inside => absurd inside (Nat.not_lt_zero i)⟩
  · rfl
  · simp [having, init]

theorem has_iff_card (named : q.isEmpty = false) :
    t.Has q ↔ 0 < (having t.sz t.p fun q' => q' = q).card := by
  rw [Finset.card_pos]
  apply Iff.intro
  · rintro ⟨i, inside, here⟩
    exact ⟨i, mem_having.mpr ⟨inside, by simp [here]⟩⟩
  · rintro ⟨i, member⟩
    obtain ⟨inside, here⟩ := mem_having.mp member
    exact ⟨i, inside, by simpa using here⟩

/-- The name is in one slot. -/
theorem Inv.slot_eq (inv : Inv hash t) (named : x ≠ []) (first : i < t.sz) (second : k < t.sz)
    (here : (t.p i).x = x) (also : (t.p k).x = x) : i = k :=
  Finset.card_le_one.mp (inv.unique x named) i (mem_having.mpr ⟨first, by simp [here]⟩) k
    (mem_having.mpr ⟨second, by simp [also]⟩)

/-- The loop ends at the slot of the name, or at the first empty one on its way. -/
theorem Inv.lookup (inv : Inv hash t) (named : x ≠ []) (positive : 0 < t.sz) :
    ∃ k, probe (t.sz - 1) (fun k => (t.p k).x = x || (t.p k).isEmpty) t.sz
        ((hash x).toNat &&& (t.sz - 1)) = some k ∧ k < t.sz ∧
      ((t.p k).x = x ∨ (t.p k).isEmpty = true ∧ ∀ i < t.sz, (t.p i).x ≠ x) ∧
      ∀ w < t.sz, Between (home hash t.sz x) k w → Filled t.p w := by
  obtain ⟨_, ring⟩ := inv.ring.resolve_left (by omega)
  have start := @home_lt hash t.sz ring.pos x
  rw [probe_ring ring, and_mask ring, ← home]
  cases found : LinearProbe.probe t.sz (fun k => (t.p k).x = x || (t.p k).isEmpty) t.sz
      (home hash t.sz x) with
  | none =>
      have asked := (probe_eq_none_iff start).mp found
      have all : Finset.range t.sz ⊆ filled t.sz t.p := by
        intro w inside
        have within := Finset.mem_range.mp inside
        have full := asked w within
        simp only [Bool.or_eq_false_iff] at full
        exact mem_filled.mpr ⟨within, full.2⟩
      have count := Finset.card_le_card all
      have half := inv.half
      rw [Finset.card_range, inv.count] at count
      omega
  | some k =>
      obtain ⟨below, stops, passes⟩ := (probe_eq_some_iff start).mp found
      have clear : ∀ w < t.sz, Between (home hash t.sz x) k w →
          (t.p w).x ≠ x ∧ Filled t.p w := by
        intro w inside passed
        simpa [Filled] using passes w inside passed
      refine ⟨k, rfl, below, ?_, fun w inside passed => (clear w inside passed).2⟩
      rw [Bool.or_eq_true, decide_eq_true_eq] at stops
      rcases stops with here | empty
      · exact .inl here
      · refine .inr ⟨empty, fun i inside here => ?_⟩
        -- A slot of the name behind the empty slot has the empty one on its way.
        have isFilled := filled_of_named named here
        have reached := inv.chained i inside isFilled
        rw [Chained, here] at reached
        have other : i ≠ k := by
          rintro rfl
          rw [Filled, empty] at isFilled
          cases isFilled
        have either : Between (home hash t.sz x) k i ∨ Between (home hash t.sz x) i k := by
          rw [Between, Between]
          split_ifs <;> omega
        rcases either with passed | passed
        · exact (clear i inside passed).1 here
        · have := reached k below passed
          rw [Filled, empty] at this
          cases this

/-- The value of a name is the one of its slot. -/
theorem Inv.get_eq_some (inv : Inv hash t) (named : x ≠ []) (y : Bytes) :
    t.get hash x = some y ↔ t.Has ⟨x, y⟩ := by
  rcases Nat.eq_zero_or_pos t.sz with zero | positive
  · rw [get, zero]
    refine iff_of_false (by simp [probe]) ?_
    rintro ⟨i, inside, _⟩
    omega
  · obtain ⟨k, found, below, ends, _⟩ := inv.lookup named positive
    rw [get]
    simp only [found]
    rcases ends with here | missing
    · rw [if_pos here, Option.some.injEq]
      apply Iff.intro
      · intro value
        exact ⟨k, below, by rw [← here, ← value]⟩
      · rintro ⟨i, inside, pair⟩
        have same := inv.slot_eq named inside below (by rw [pair]) here
        rw [← same, pair]
    · have other : (t.p k).x ≠ x := missing.2 k below
      rw [if_neg other]
      refine iff_of_false (by simp) ?_
      rintro ⟨i, inside, pair⟩
      exact missing.2 i inside (by rw [pair])

/-- Only the names say which slots are filled. -/
theorem filled_congr {p p' : Nat → Pair} (names : ∀ w, (p' w).x = (p w).x) (w : Nat) :
    Filled p' w ↔ Filled p w := by
  rw [Filled, Filled, Pair.isEmpty, Pair.isEmpty, names]

/-- A write to the slot of a name, or to an empty one, adds its pair. -/
theorem has_update {p : Nat → Pair} (below : k < t.sz) (old : (t.p k).x = q.x ∨ (t.p k).x = [])
    (others : ∀ i < t.sz, i ≠ k → (t.p i).x ≠ q.x) (written : p = Function.update t.p k q)
    {q' : Pair} (named : q'.x ≠ []) :
    (∃ i < t.sz, p i = q') ↔ if q'.x = q.x then q' = q else t.Has q' := by
  rw [written]
  split
  · rename_i same
    apply Iff.intro
    · rintro ⟨i, inside, here⟩
      by_cases isSlot : i = k
      · rw [isSlot, Function.update_self] at here
        exact here.symm
      · rw [Function.update_of_ne isSlot] at here
        exact absurd (by rw [here, same]) (others i inside isSlot)
    · intro isPair
      exact ⟨k, below, by rw [Function.update_self, isPair]⟩
  · rename_i differ
    apply Iff.intro
    · rintro ⟨i, inside, here⟩
      by_cases isSlot : i = k
      · rw [isSlot, Function.update_self] at here
        exact absurd (by rw [here]) differ
      · rw [Function.update_of_ne isSlot] at here
        exact ⟨i, inside, here⟩
    · rintro ⟨i, inside, here⟩
      have isOther : i ≠ k := by
        intro isSlot
        rw [isSlot] at here
        rw [← here] at differ named
        exact old.elim differ named
      exact ⟨i, inside, by rw [Function.update_of_ne isOther]; exact here⟩

/-- A pair is added to a table with room. -/
theorem Inv.insert_works (inv : Inv hash t) (named : q.x ≠ []) (room : 2 * (t.used + 1) ≤ t.sz) :
    Inv hash (t.insert hash q) ∧ ∀ q' : Pair, q'.x ≠ [] →
      ((t.insert hash q).Has q' ↔ if q'.x = q.x then q' = q else t.Has q') := by
  obtain ⟨k, found, below, ends, passes⟩ := inv.lookup named (by omega)
  rw [insert]
  simp only [found]
  rcases ends with here | missing
  · have isPair : ({ t.p k with y := q.y } : Pair) = q := by
      dsimp only
      rw [here]
    rw [if_pos here, isPair]
    have names : ∀ w, (Function.update t.p k q w).x = (t.p w).x := by
      intro w
      by_cases same : w = k
      · rw [same, Function.update_self, here]
      · rw [Function.update_of_ne same]
    refine ⟨⟨inv.ring, ?_, inv.half, fun x named => ?_, fun i inside isFilled => ?_⟩,
      fun q' => has_update below (.inl here) (fun i inside other also => ?_) rfl⟩
    · rw [← inv.count]
      congr 1
      ext w
      rw [mem_filled, mem_filled, filled_congr names]
    · have same : having t.sz (Function.update t.p k q) (fun q => q.x = x) =
          having t.sz t.p fun q => q.x = x := by
        ext w
        rw [mem_having, mem_having, names]
      rw [same]
      exact inv.unique x named
    · rw [filled_congr names] at isFilled
      rw [Chained, names]
      exact (inv.chained i inside isFilled).mono fun w _ _ => (filled_congr names w).mpr
    · exact other (inv.slot_eq named inside below also here)
  · obtain ⟨empty, missing⟩ := missing
    have noName : (t.p k).x = [] := List.isEmpty_iff.mp empty
    rw [if_neg (missing k below)]
    have isNamed : q.isEmpty = false := List.isEmpty_eq_false_iff.mpr named
    have more : ∀ w, Filled (Function.update t.p k q) w ↔ w = k ∨ Filled t.p w := by
      intro w
      by_cases same : w = k
      · simp [Filled, same, isNamed]
      · simp [Filled, same]
    refine ⟨⟨inv.ring, ?_, room, fun x named => ?_, fun i inside isFilled => ?_⟩,
      fun q' => has_update below (.inr noName) (fun i inside _ => missing i inside) rfl⟩
    · have grown : filled t.sz (Function.update t.p k q) = Insert.insert k (filled t.sz t.p) := by
        ext w
        rw [Finset.mem_insert, mem_filled, mem_filled, more]
        apply Iff.intro
        · rintro ⟨inside, either⟩
          exact either.imp id fun isFilled => ⟨inside, isFilled⟩
        · rintro (rfl | both)
          · exact ⟨below, .inl rfl⟩
          · exact ⟨both.1, .inr both.2⟩
      have new : k ∉ filled t.sz t.p := by
        rw [mem_filled, Filled, empty]
        simp
      dsimp only
      rw [grown, Finset.card_insert_of_notMem new, inv.count]
    · rw [Finset.card_le_one]
      intro i first j second
      obtain ⟨inside, here⟩ := mem_having.mp first
      obtain ⟨inside', also⟩ := mem_having.mp second
      simp only [decide_eq_true_eq] at here also
      by_cases isSlot : i = k
      · by_cases isSlot' : j = k
        · rw [isSlot, isSlot']
        · rw [isSlot, Function.update_self] at here
          rw [Function.update_of_ne isSlot', ← here] at also
          exact absurd also (missing j inside')
      · rw [Function.update_of_ne isSlot] at here
        by_cases isSlot' : j = k
        · rw [isSlot', Function.update_self] at also
          rw [← also] at here
          exact absurd here (missing i inside)
        · rw [Function.update_of_ne isSlot'] at also
          exact inv.slot_eq named inside inside' here also
    · change Filled (Function.update t.p k q) i at isFilled
      change Chained hash t.sz (Function.update t.p k q) i
      by_cases isSlot : i = k
      · rw [Chained, isSlot, Function.update_self]
        exact fun w within passed => (more w).mpr (.inr (passes w within passed))
      · rw [Chained, Function.update_of_ne isSlot]
        have old := ((more i).mp isFilled).resolve_left isSlot
        exact (inv.chained i inside old).mono fun w _ _ isFilled => (more w).mpr (.inr isFilled)

/-- The slots behind a doubling, with the new ones empty. -/
theorem having_grown {n N : Nat} (more : n ≤ N) (p : Nat → Pair) {P : Pair → Bool}
    (noEmpty : ∀ q, q.isEmpty = true → P q = false) :
    having N (fun i => if n ≤ i ∧ i < N then {} else p i) P = having n p P := by
  ext w
  rw [mem_having, mem_having]
  by_cases new : n ≤ w
  · by_cases inside : w < N
    · have low : ¬w < n := by omega
      simp [new, inside, low, noEmpty {} isEmpty_empty]
    · simp [inside, show ¬w < n by omega]
  · simp [new, show w < N by omega, show w < n by omega]

/-- A table grows, and each pair stays in as many slots. -/
theorem Inv.resize_works (inv : Inv hash t) :
    ∃ t', t.resize hash = some t' ∧ Inv hash t' ∧ 2 * (t'.used + 1) ≤ t'.sz ∧ SamePairs t t' := by
  have named : ∀ q : Pair, q.isEmpty = true → (!q.isEmpty) = false := by
    intro q empty
    rw [empty]
    rfl
  rcases inv.ring with zero | ring
  · have unused : t.used = 0 := by
      have half := inv.half
      omega
    have none : ∀ P : Pair → Bool, (∀ q, q.isEmpty = true → P q = false) →
        having 8 (fun i => if 0 ≤ i ∧ i < 8 then {} else t.p i) P = ∅ := by
      intro P noEmpty
      rw [having_grown (Nat.zero_le 8) t.p noEmpty]
      rfl
    have grown : t.resize hash = some
        { t with p := fun i => if 0 ≤ i ∧ i < 8 then {} else t.p i, sz := 8 } := by
      rw [resize, zero, if_pos rfl]
      rw [resizeLoop_empty (by simp [isEmpty_empty]) (by decide), resizeLoop,
        if_pos (by simp [isEmpty_empty]), if_pos (by decide)]
      rfl
    refine ⟨_, grown, ⟨.inr ⟨le_rfl, 3, rfl⟩, ?_, ?_, fun x isName => ?_, fun i inside isFilled => ?_⟩,
      ?_, fun P noEmpty => ?_⟩
    · rw [filled, none _ named, unused]
      rfl
    · rw [unused]
      exact Nat.zero_le 8
    · rw [none _ fun q empty => ?_]
      · simp
      · have noName : q.x = [] := List.isEmpty_iff.mp empty
        simp [noName, isName.symm]
    · have member : i ∈ filled 8 fun i => if 0 ≤ i ∧ i < 8 then {} else t.p i :=
        mem_filled.mpr ⟨inside, isFilled⟩
      rw [filled, none _ named] at member
      exact absurd member (Finset.notMem_empty i)
    · rw [unused]
      exact Nat.le_of_ble_eq_true rfl
    · rw [none P noEmpty, zero]
      rfl
  · obtain ⟨large, b, size⟩ := ring
    have isRing : IsRing (t.sz * 2) := ⟨b + 1, by rw [size, pow_succ]⟩
    obtain ⟨p, isGrown⟩ : ∃ p, p = fun i => if t.sz ≤ i ∧ i < t.sz * 2 then ({} : Pair) else t.p i :=
      ⟨_, rfl⟩
    have same : ∀ P : Pair → Bool, (∀ q, q.isEmpty = true → P q = false) →
        having (t.sz * 2) p P = having t.sz t.p P := by
      intro P noEmpty
      rw [isGrown, having_grown (by omega) t.p noEmpty]
    have count : (filled (t.sz * 2) p).card = t.used := by
      rw [filled, same _ named, ← filled, inv.count]
    have half := inv.half
    obtain ⟨p', grown, kept, chained⟩ := @resizeLoop_works hash t.sz p large isRing (by omega)
      (fun i new inside => by rw [isGrown]; simp [new, inside, isEmpty_empty])
    have works : t.resize hash = some { t with p := p', sz := t.sz * 2 } := by
      rw [resize, if_neg (by omega)]
      rw [← isGrown, grown]
      rfl
    refine ⟨_, works, ⟨.inr ⟨by dsimp only; omega, isRing⟩, ?_, by dsimp only; omega,
      fun x isName => ?_, chained⟩, by dsimp only; omega, fun P noEmpty => ?_⟩
    · rw [filled, kept _ named, ← filled, count]
    · have noEmpty : ∀ q : Pair, q.isEmpty = true → decide (q.x = x) = false := by
        intro q empty
        have noName : q.x = [] := List.isEmpty_iff.mp empty
        simp [noName, isName.symm]
      rw [kept _ noEmpty, same _ noEmpty]
      exact inv.unique x isName
    · rw [kept P noEmpty, same P noEmpty]

/-- A pair is in a slot of the one table when it is in a slot of the other one. -/
theorem SamePairs.has (same : SamePairs t t') (named : q.isEmpty = false) : t'.Has q ↔ t.Has q := by
  rw [has_iff_card named, has_iff_card named, same]
  intro q' empty
  rw [decide_eq_false_iff_not]
  rintro rfl
  rw [empty] at named
  cases named

/-- An addition works, and only the value of its name changes. -/
theorem Inv.add_works (inv : Inv hash t) (named : q.x ≠ []) :
    ∃ t', t.add hash q = some t' ∧ Inv hash t' ∧ ∀ q' : Pair, q'.x ≠ [] →
      (t'.Has q' ↔ if q'.x = q.x then q' = q else t.Has q') := by
  rw [add]
  split
  · obtain ⟨t₁, grown, inv₁, room, same⟩ := inv.resize_works
    obtain ⟨inv₂, has⟩ := inv₁.insert_works named room
    refine ⟨_, by rw [grown]; rfl, inv₂, fun q' isName => ?_⟩
    rw [has q' isName, same.has (List.isEmpty_eq_false_iff.mpr isName)]
  · rename_i room
    obtain ⟨inv₁, has⟩ := inv.insert_works named (by omega)
    exact ⟨_, rfl, inv₁, has⟩

/-- Any additions work, and each name has its last value. -/
theorem Inv.addAll_works (inv : Inv hash t) {pairs : List Pair}
    (named : ∀ pair ∈ pairs, pair.x ≠ []) :
    ∃ t', t.addAll hash pairs = some t' ∧ Inv hash t' ∧ ∀ x, x ≠ [] → t'.get hash x =
      ((LastWrite.last Pair.x pairs x).map Pair.y).or (t.get hash x) := by
  induction pairs generalizing t with
  | nil => exact ⟨t, rfl, inv, fun x _ => rfl⟩
  | cons pair pairs ih =>
      obtain ⟨first, named⟩ := List.forall_mem_cons.mp named
      obtain ⟨t₁, added, inv₁, has⟩ := inv.add_works first
      obtain ⟨t', ran, inv', gets⟩ := ih inv₁ named
      refine ⟨t', by rw [addAll, added]; exact ran, inv', fun x isName => ?_⟩
      have one : t₁.get hash x =
          ((LastWrite.last Pair.x [pair] x).map Pair.y).or (t.get hash x) := by
        ext y
        rw [inv₁.get_eq_some isName, has ⟨x, y⟩ isName,
          LastWrite.last_singleton]
        by_cases same : x = pair.x
        · rw [if_pos same, if_pos same.symm]
          apply Iff.intro
          · rintro rfl
            rfl
          · intro value
            rw [same, ← Option.some.inj value]
        · rw [if_neg same, if_neg (Ne.symm same), ← inv.get_eq_some isName]
          rfl
      have both : LastWrite.last Pair.x (pair :: pairs) x =
          (LastWrite.last Pair.x pairs x).or (LastWrite.last Pair.x [pair] x) :=
        LastWrite.last_append [pair] pairs x
      rw [gets x isName, one, both]
      cases LastWrite.last Pair.x pairs x <;> rfl

end Table

/-- Each pair of a table is in one slot behind a resize, and no other pair is there. -/
def SurvivesOnce (t t' : VarHT) : Prop :=
  ∀ q : Pair, q.isEmpty = false →
    (t.Has q → ∃! i, i < t'.sz ∧ t'.p i = q) ∧ (t'.Has q → t.Has q)

theorem Inv.resize_once {hash : Bytes → UInt32} {t : VarHT} (inv : Inv hash t) :
    ∃ t', t.resize hash = some t' ∧ SurvivesOnce t t' := by
  obtain ⟨t', grown, inv', _, same⟩ := inv.resize_works
  refine ⟨t', grown, fun q named => ⟨fun has => ?_, (same.has named).mp⟩⟩
  obtain ⟨i, inside, here⟩ := (same.has named).mpr has
  refine ⟨i, ⟨inside, here⟩, fun k also => ?_⟩
  have isName : q.x ≠ [] := List.isEmpty_eq_false_iff.mp named
  exact inv'.slot_eq isName also.1 inside (by rw [also.2]) (by rw [here])

/-- Any additions of names end in a table that holds the last value of each name, and from which a
resize keeps every pair once. -/
theorem varHT_refines (hash : Bytes → UInt32) (pairs : List Pair)
    (named : ∀ pair ∈ pairs, pair.x ≠ []) :
    ∃ t, init.addAll hash pairs = some t ∧
      (∀ x, x ≠ [] → t.get hash x = (LastWrite.last Pair.x pairs x).map Pair.y) ∧
      ∃ t', t.resize hash = some t' ∧ SurvivesOnce t t' := by
  obtain ⟨t, ran, inv, gets⟩ := (@init_inv hash).addAll_works named
  refine ⟨t, ran, fun x isName => ?_, inv.resize_once⟩
  rw [gets x isName, show init.get hash x = none from rfl, Option.or_none]

/-- A name that is added twice has its second value. -/
theorem varHT_refines_twice :
    ∃ t, init.addAll (fun _ => 0) [⟨[97], [1]⟩, ⟨[98], [2]⟩, ⟨[97], [3]⟩] = some t ∧
      t.get (fun _ => 0) [97] = some [3] := by
  obtain ⟨t, ran, gets, _⟩ := varHT_refines (fun _ => 0) [⟨[97], [1]⟩, ⟨[98], [2]⟩, ⟨[97], [3]⟩]
    (by simp)
  exact ⟨t, ran, gets [97] (by simp)⟩

end Raids.Http.VarHT
