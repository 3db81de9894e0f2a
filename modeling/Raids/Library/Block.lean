import Mathlib.Data.List.Basic
import Mathlib.Tactic

namespace Raids

/-- A block of memory with the elements that are written, and the end of what was written, which may
be outside. -/
@[ext]
structure Block (α : Type) where
  size : Nat
  cells : Nat → Option α
  reach : Nat

namespace Block

variable {α : Type}

/-- Nothing is written to a new block. -/
def alloc (size : Nat) : Block α := ⟨size, fun _ => none, 0⟩

/-- Elements are copied to an offset. -/
def copy (b : Block α) (off : Nat) (src : List α) : Block α where
  size := b.size
  cells := fun k => if off ≤ k ∧ k < off + src.length then src[k - off]? else b.cells k
  reach := if 0 < src.length then max b.reach (off + src.length) else b.reach

/-- The block is filled by these elements, and nothing is written outside. -/
def Holds (b : Block α) (l : List α) : Prop :=
  b.reach ≤ b.size ∧ b.size = l.length ∧ ∀ k < l.length, b.cells k = l[k]?

@[simp] theorem size_copy (b : Block α) (off : Nat) (src : List α) :
    (b.copy off src).size = b.size := rfl

@[simp] theorem size_alloc (size : Nat) : (alloc size : Block α).size = size := rfl

@[simp] theorem copy_nil (b : Block α) (off : Nat) : b.copy off [] = b := by
  ext <;> simp [copy]

/-- Two copies one behind the other are one. -/
theorem copy_append (b : Block α) (off : Nat) (x y : List α) :
    (b.copy off x).copy (off + x.length) y = b.copy off (x ++ y) := by
  ext k
  · rfl
  · simp only [copy, List.length_append]
    by_cases first : off ≤ k ∧ k < off + x.length
    · rw [if_neg (by omega), if_pos first, if_pos (by omega),
        List.getElem?_append_left (by omega)]
    · by_cases second : off + x.length ≤ k ∧ k < off + x.length + y.length
      · rw [if_pos second, if_pos (by omega), List.getElem?_append_right (by omega),
          show k - (off + x.length) = k - off - x.length by omega]
      · rw [if_neg second, if_neg first, if_neg (by omega)]
  · simp only [copy, List.length_append]
    split <;> split <;> split <;> omega

/-- An element is written over the first one of a copy. -/
theorem copy_overwrite (b : Block α) (off : Nat) (x y : α) (l : List α) :
    (b.copy off (x :: l)).copy off [y] = b.copy off (y :: l) := by
  ext k
  · rfl
  · simp only [copy, List.length_cons, List.length_nil]
    by_cases first : k = off
    · simp [first]
    · by_cases later : off ≤ k ∧ k < off + (l.length + 1)
      · obtain ⟨i, rfl⟩ := Nat.exists_eq_add_of_lt (show off < k by omega)
        rw [if_neg (by omega), if_pos later, if_pos later, Nat.add_assoc, Nat.add_sub_cancel_left]
        rfl
      · rw [if_neg (by omega), if_neg later, if_neg later]
  · simp [copy]

/-- A block that is filled at once holds what it was filled with. -/
theorem holds_copy (l : List α) : ((alloc l.length).copy 0 l).Holds l := by
  refine ⟨?_, rfl, ?_⟩
  · simp only [copy, alloc]
    split <;> omega
  · intro k below
    simp [copy, below]

/-- A piece of a block is copied in front of the rest. It fits where it starts with what the block
should hold, and ends within the block. -/
theorem holds_overlap {head middle tail src : List α} {n : Nat}
    (total : n = head.length + middle.length + tail.length) (given : 0 < src.length) :
    ((((alloc n).copy 0 head).copy head.length src).copy (head.length + middle.length)
        tail).Holds (head ++ middle ++ tail) ↔
      middle <+: src ∧ src.length ≤ middle.length + tail.length := by
  have before : ∀ k < head.length, ((((alloc n).copy 0 head).copy head.length src).copy
      (head.length + middle.length) tail).cells k = head[k]? := by
    intro k below
    simp only [copy]
    rw [if_neg (by omega), if_neg (by omega), if_pos (by omega), Nat.sub_zero]
  have within : ∀ i < middle.length, ((((alloc n).copy 0 head).copy head.length src).copy
      (head.length + middle.length) tail).cells (head.length + i) = src[i]? := by
    intro i below
    simp only [copy]
    rw [if_neg (by omega)]
    by_cases copied : i < src.length
    · rw [if_pos (by omega), Nat.add_sub_cancel_left]
    · rw [if_neg (by omega), if_neg (by omega), List.getElem?_eq_none (by omega)]
      rfl
  have behind : ∀ i < tail.length, ((((alloc n).copy 0 head).copy head.length src).copy
      (head.length + middle.length) tail).cells (head.length + middle.length + i) = tail[i]? := by
    intro i below
    simp only [copy]
    rw [if_pos (by omega), Nat.add_sub_cancel_left]
  have inside : ((((alloc n).copy 0 head).copy head.length src).copy
      (head.length + middle.length) tail).reach ≤ n ↔
        src.length ≤ middle.length + tail.length := by
    simp only [copy, alloc, if_pos given]
    split <;> split <;> omega
  rw [Holds, size_copy, size_copy, size_copy, size_alloc, inside, and_comm (a := middle <+: src)]
  refine and_congr_right fun _ => ?_
  rw [List.prefix_iff_getElem?]
  constructor
  · rintro ⟨-, filled⟩ i below
    have cell := filled (head.length + i) (by simp; omega)
    rw [within i below, List.append_assoc, List.getElem?_append_right (by omega),
      Nat.add_sub_cancel_left, List.getElem?_append_left below] at cell
    rw [cell, List.getElem?_eq_getElem below]
  · intro starts
    refine ⟨by simp [total, Nat.add_assoc], fun k below => ?_⟩
    rw [List.length_append, List.length_append] at below
    by_cases first : k < head.length
    · rw [before k first, List.append_assoc, List.getElem?_append_left first]
    · by_cases second : k < head.length + middle.length
      · obtain ⟨i, rfl⟩ := Nat.exists_eq_add_of_le (Nat.le_of_not_lt first)
        have inside : i < middle.length := by omega
        rw [within i inside, List.append_assoc, List.getElem?_append_right (by omega),
          Nat.add_sub_cancel_left, List.getElem?_append_left inside, starts i inside,
          List.getElem?_eq_getElem inside]
      · obtain ⟨i, rfl⟩ := Nat.exists_eq_add_of_le (Nat.le_of_not_lt second)
        rw [behind i (by omega), List.getElem?_append_right (by simp), List.length_append,
          Nat.add_sub_cancel_left]

end Block

end Raids
