import Raids.Construction.Key.SortedRange
import Raids.Proof.Key.SortedSet

namespace Raids.Key

section Slices

variable {α : Type}

/-- A piece of a list is the piece of its reverse at the other end. -/
theorem reverse_take_drop (l : List α) {i m : Nat} (inside : i + m ≤ l.length) :
    ((l.drop i).take m).reverse = (l.reverse.drop (l.length - (i + m))).take m := by
  rw [List.drop_reverse, show l.length - (l.length - (i + m)) = i + m by omega, List.take_reverse,
    List.length_take, show min (i + m) l.length - m = i by omega, List.drop_take]
  congr 2
  omega

/-- The elements of a list from a position on, as many as a number that is not negative. -/
def window (off n : Int) (l : List α) : List α :=
  if n < 0 then l.drop off.toNat else (l.take (off + n).toNat).drop off.toNat

/-- A window of a piece is a piece. -/
theorem window_take_drop (l : List α) {off n : Int} (positive : 0 ≤ off) (i m : Nat) :
    window off n ((l.drop i).take m) =
      (l.drop (i + off.toNat)).take
        (if n < 0 then m - off.toNat else min (m - off.toNat) n.toNat) := by
  rw [window]
  by_cases rest : n < 0
  · rw [if_pos rest, if_pos rest, List.drop_take, List.drop_drop]
  · rw [if_neg rest, if_neg rest, List.take_take, List.drop_take, List.drop_drop]
    congr 1
    omega

end Slices

section Loop

variable {Z : Type} {lib : ScoreLib Z} (x : ZSetData Z)

/-- The number of items of one member. -/
def itemsOf (withscores : Bool) : Nat := if withscores then 2 else 1

/-- The loop reads the members of its direction up to the limit. -/
theorem zscanLoop_eq (isRev withscores : Bool) (limit seen left i : Nat) :
    zscanLoop isRev withscores (itemsOf withscores * limit) x left i (itemsOf withscores * seen) =
      ((popOrder isRev x).drop i).take (if limit = 0 then left else min left (limit - seen)) := by
  have positive : 0 < itemsOf withscores := by
    cases withscores <;> decide
  induction left generalizing i seen with
  | zero =>
      rw [zscanLoop]
      split <;> simp
  | succ left ih =>
      have read : x.zindex (if isRev then x.hcount + 1 - (i + 1) else i + 1) =
          (popOrder isRev x)[i]? := by
        cases isRev with
        | false => rfl
        | true =>
            rw [if_pos rfl, popOrder, if_pos rfl]
            by_cases inside : i < x.members.length
            · rw [List.getElem?_reverse inside, ZSetData.hcount,
                show x.members.length + 1 - (i + 1) = (x.members.length - 1 - i) + 1 by omega]
              rfl
            · rw [List.getElem?_eq_none (by rw [List.length_reverse]; omega), ZSetData.hcount,
                show x.members.length + 1 - (i + 1) = 0 by omega]
              rfl
      have full : (itemsOf withscores * limit ≠ 0 ∧
          itemsOf withscores * limit ≤ itemsOf withscores * seen) ↔ limit ≠ 0 ∧ limit ≤ seen := by
        rw [Nat.mul_le_mul_left_iff positive, Nat.mul_ne_zero_iff]
        exact and_congr_left fun _ => and_iff_right (by omega)
      rw [zscanLoop, read]
      by_cases ends : limit ≠ 0 ∧ limit ≤ seen
      · rw [if_pos (full.mpr ends), if_neg ends.1, show min (left + 1) (limit - seen) = 0 by omega,
          List.take_zero]
      · rw [if_neg (fun both => ends (full.mp both))]
        cases found : (popOrder isRev x)[i]? with
        | none =>
            rw [List.drop_eq_nil_of_le (List.getElem?_eq_none_iff.mp found), List.take_nil]
        | some zv =>
            obtain ⟨inside, rfl⟩ := List.getElem?_eq_some_iff.mp found
            have next : itemsOf withscores * seen + (if withscores then 2 else 1) =
                itemsOf withscores * (seen + 1) := by
              rw [Nat.mul_add, Nat.mul_one]
              rfl
            dsimp only
            rw [next, ih, List.drop_eq_getElem_cons inside]
            have more : (if limit = 0 then left + 1 else min (left + 1) (limit - seen)) =
                (if limit = 0 then left else min left (limit - (seen + 1))) + 1 := by
              by_cases unlimited : limit = 0
              · rw [if_pos unlimited, if_pos unlimited]
              · rw [if_neg unlimited, if_neg unlimited]
                omega
            rw [more, List.take_succ_cons]

end Loop

section Limit

/-- The number of members that a limit lets through; zero stands for all. A number that is not
positive wraps around. -/
def limitOf (withscores : Bool) (zcnt : Int) : Nat :=
  if 0 ≤ zcnt then zcnt.toNat
  else if withscores then (zcnt + 2 ^ 63).toNat
  else (zcnt + 2 ^ 64).toNat

/-- The limit counts items, which are one or two for each member. -/
theorem sizeT_limit (withscores : Bool) {zcnt : Int} (low : -2 ^ 63 ≤ zcnt) (high : zcnt < 2 ^ 63) :
    sizeT (zcnt * if withscores then 2 else 1) = itemsOf withscores * limitOf withscores zcnt := by
  rw [sizeT, itemsOf, limitOf]
  cases withscores with
  | false =>
      simp only [Bool.false_eq_true, if_false]
      by_cases positive : 0 ≤ zcnt
      · rw [if_pos positive]
        omega
      · rw [if_neg positive]
        omega
  | true =>
      simp only [if_true]
      by_cases positive : 0 ≤ zcnt
      · rw [if_pos positive]
        omega
      · rw [if_neg positive]
        omega

/-- The number of members that are read between two places. -/
def readCount (withscores : Bool) (zcnt : Int) (i j : Nat) : Nat :=
  if limitOf withscores zcnt = 0 then j - i else min (j - i) (limitOf withscores zcnt)

/-- A limit selects the members that it names under the condition only. A limit of zero is no
limit, a negative one wraps around with the scores, and a negative offset reads in front of the
range or wraps around. -/
def LimitFits (withscores : Bool) (base j : Nat) (off n : Int) : Prop :=
  if 0 ≤ off then
    (n = 0 → (j : Int) ≤ base + off) ∧
      (withscores → n < 0 → n ≠ -2 ^ 63 → (j : Int) - (base + off) ≤ n + 2 ^ 63)
  else ((base : Int) + off < 0 ∨ (j : Int) ≤ base + off) ∧ (j ≤ base ∨ (0 ≤ n ∧ off + n ≤ 0))

variable {α : Type} {l : List α} {withscores : Bool} {base j : Nat} {off n : Int}

/-- An offset that is not negative moves the first place. -/
theorem readCount_iff (positive : 0 ≤ off) (low : -2 ^ 63 ≤ n) (small : j < 2 ^ 62) :
    readCount withscores n (base + off.toNat) j =
        (if n < 0 then j - base - off.toNat else min (j - base - off.toNat) n.toNat) ↔
      LimitFits withscores base j off n := by
  have value : (limitOf withscores n : Int) =
      if 0 ≤ n then n else if withscores then n + 2 ^ 63 else n + 2 ^ 64 := by
    rw [limitOf]
    cases withscores <;> split <;> simp <;> omega
  rw [LimitFits, if_pos positive, readCount]
  generalize limitOf withscores n = limit at value
  by_cases negative : n < 0
  · rw [if_neg (by omega)] at value
    rw [if_pos negative]
    cases withscores with
    | false =>
        rw [if_neg Bool.false_ne_true] at value
        rw [if_neg (by omega)]
        simp only [Bool.false_eq_true, false_imp_iff, and_true]
        omega
    | true =>
        rw [if_pos rfl] at value
        simp only [true_imp_iff]
        by_cases least : n = -2 ^ 63
        · rw [if_pos (by omega)]
          omega
        · rw [if_neg (by omega)]
          omega
  · rw [if_pos (by omega)] at value
    rw [if_neg negative]
    by_cases zero : n = 0
    · rw [if_pos (by omega)]
      omega
    · rw [if_neg (by omega)]
      omega

/-- The members that are read are the window of the range under the condition only. -/
theorem limit_iff (nodup : l.Nodup) (low : -2 ^ 63 ≤ n) (offLow : -2 ^ 63 ≤ off)
    (offHigh : off < 2 ^ 63) (inside : j ≤ l.length) (start : base ≤ l.length)
    (small : l.length < 2 ^ 62) :
    (l.drop (sizeT (base + off))).take (readCount withscores n (sizeT (base + off)) j) =
        window off n ((l.drop base).take (j - base)) ↔ LimitFits withscores base j off n := by
  by_cases positive : 0 ≤ off
  · have place : sizeT (base + off) = base + off.toNat := by
      rw [sizeT]
      omega
    rw [place, window_take_drop l positive, ← readCount_iff positive low (by omega)]
    apply Iff.intro
    · intro same
      have lengths := congrArg List.length same
      rw [List.length_take, List.length_take, List.length_drop] at lengths
      have most : readCount withscores n (base + off.toNat) j ≤ j - (base + off.toNat) := by
        rw [readCount]
        split <;> omega
      by_cases negative : n < 0
      · rw [if_pos negative] at lengths ⊢
        omega
      · rw [if_neg negative] at lengths ⊢
        omega
    · intro same
      rw [same]
  · rw [LimitFits, if_neg positive]
    have none : (l.drop (sizeT (base + off))).take (readCount withscores n (sizeT (base + off)) j) =
        [] ↔ ((base : Int) + off < 0 ∨ (j : Int) ≤ base + off) := by
      rw [List.take_eq_nil_iff, List.drop_eq_nil_iff, readCount, sizeT]
      by_cases wraps : (base : Int) + off < 0
      · apply iff_of_true
        · right
          omega
        · exact Or.inl wraps
      · have place : (((base : Int) + off) % 2 ^ 64).toNat = (base + off).toNat := by omega
        rw [place]
        by_cases unlimited : limitOf withscores n = 0
        · rw [if_pos unlimited]
          omega
        · rw [if_neg unlimited]
          omega
    have empty : window off n ((l.drop base).take (j - base)) = [] ↔
        (j ≤ base ∨ (0 ≤ n ∧ off + n ≤ 0)) := by
      rw [window, show off.toNat = 0 by omega, List.drop_zero, List.drop_zero]
      by_cases negative : n < 0
      · rw [if_pos negative, List.take_eq_nil_iff, List.drop_eq_nil_iff]
        omega
      · rw [if_neg negative, List.take_eq_nil_iff, List.take_eq_nil_iff, List.drop_eq_nil_iff]
        omega
    rw [← none, ← empty]
    apply Iff.intro
    · intro same
      -- A member in front of the range is not in its window.
      have noRead : (l.drop (sizeT (base + off))).take
          (readCount withscores n (sizeT (base + off)) j) = [] := by
        by_contra some
        have front : ¬((base : Int) + off < 0 ∨ (j : Int) ≤ base + off) :=
          fun early => some (none.mpr early)
        have place : sizeT (base + off) = (base + off).toNat := by
          rw [sizeT]
          omega
        obtain ⟨first, rest, isRead⟩ := List.exists_cons_of_ne_nil some
        have here : l[(base + off : Int).toNat]? = Option.some first := by
          have head := congrArg List.head? isRead
          rw [place, List.head?_take, List.head?_drop, if_neg] at head
          · exact head
          · intro zero
            rw [place, zero, List.take_zero] at isRead
            cases isRead
        have later : first ∈ l.drop base := by
          have member : first ∈ window off n ((l.drop base).take (j - base)) := by
            rw [← same, isRead]
            exact List.mem_cons_self
          rw [window, show off.toNat = 0 by omega, List.drop_zero, List.drop_zero] at member
          by_cases negative : n < 0
          · rw [if_pos negative] at member
            exact List.mem_of_mem_take member
          · rw [if_neg negative] at member
            exact List.mem_of_mem_take (List.mem_of_mem_take member)
        obtain ⟨k, isLater, there⟩ := List.getElem_of_mem later
        rw [List.getElem_drop] at there
        obtain ⟨isHere, there'⟩ := List.getElem?_eq_some_iff.mp here
        have index := (List.Nodup.getElem_inj_iff nodup).mp (there'.trans there.symm)
        omega
      exact ⟨noRead, same.symm.trans noRead⟩
    · rintro ⟨noRead, noWindow⟩
      rw [noRead, noWindow]

end Limit

section Places

variable {Z : Type} {lib : ScoreLib Z} {x : ZSetData Z}

/-- A search finds a place of a member or the place behind the last one. -/
structure ScoreLib.InRange (lib : ScoreLib Z) : Prop where
  score : ∀ x score above, 1 ≤ lib.zbsearch x score above ∧
    lib.zbsearch x score above ≤ x.hcount + 1
  member : ∀ x member above, 1 ≤ lib.zbsearchAll x member above ∧
    lib.zbsearchAll x member above ≤ x.hcount + 1

/-- The place of the first member of a range. -/
def lowPlace (lib : ScoreLib Z) (isLex : Bool) (x : ZSetData Z) (str : Bytes) : Nat :=
  boundPlace lib isLex .sortedSet x (zbound true str).2 (!(zbound true str).1)

/-- The place behind the last member of a range. -/
def highPlace (lib : ScoreLib Z) (isLex : Bool) (x : ZSetData Z) (str : Bytes) : Nat :=
  boundPlace lib isLex .sortedSet x (zbound true str).2 (zbound true str).1

/-- The places of a removal by member know no signs. -/
def remLow (lib : ScoreLib Z) (isLex : Bool) (x : ZSetData Z) (str : Bytes) : Nat :=
  if isLex then lib.zbsearchAll x (zbound true str).2 (!(zbound true str).1)
  else lib.zbsearch x (lib.parse .sortedSet (zbound true str).2) (!(zbound true str).1)

def remHigh (lib : ScoreLib Z) (isLex : Bool) (x : ZSetData Z) (str : Bytes) : Nat :=
  if isLex then lib.zbsearchAll x (zbound true str).2 (zbound true str).1
  else lib.zbsearch x (lib.parse .sortedSet (zbound true str).2) (zbound true str).1

/-- The reverse commands start from the other inclusion. -/
theorem zbound_false (str : Bytes) :
    zbound false str = (!(zbound true str).1, (zbound true str).2) := by
  unfold zbound
  split <;> rfl

theorem boundPlace_inRange (inRange : lib.InRange) (isLex : Bool) (type : MdType) (str : Bytes)
    (above : Bool) :
    1 ≤ boundPlace lib isLex type x str above ∧
      boundPlace lib isLex type x str above ≤ x.hcount + 1 := by
  rw [boundPlace, lexPlace]
  cases isLex with
  | false => exact inRange.score _ _ _
  | true =>
      by_cases first : str = [45]
      · rw [if_pos rfl, if_pos first]
        omega
      · by_cases last : str = [43]
        · rw [if_pos rfl, if_neg first, if_pos last]
          omega
        · rw [if_pos rfl, if_neg first, if_neg last]
          exact inRange.member _ _ _

theorem remPlaces_inRange (inRange : lib.InRange) (isLex : Bool) (lo hi : Bytes) :
    (1 ≤ remLow lib isLex x lo ∧ remLow lib isLex x lo ≤ x.hcount + 1) ∧
      1 ≤ remHigh lib isLex x hi ∧ remHigh lib isLex x hi ≤ x.hcount + 1 := by
  rw [remLow, remHigh]
  cases isLex with
  | false => exact ⟨inRange.score _ _ _, inRange.score _ _ _⟩
  | true => exact ⟨inRange.member _ _ _, inRange.member _ _ _⟩

theorem countLow_eq (isLex : Bool) (str : Bytes) :
    countLow lib isLex .sortedSet x str =
      if (zbound true str).2 = [45] then 1 else remLow lib isLex x str :=
  rfl

theorem countHigh_eq (isLex : Bool) (str : Bytes) :
    countHigh lib isLex .sortedSet x str =
      if (zbound true str).2 = [43] then x.hcount + 1 else remHigh lib isLex x str :=
  rfl

/-- The lower bound of a count is the one of its range apart from the signs. -/
theorem countLow_cases (isLex : Bool) (str : Bytes) :
    countLow lib isLex .sortedSet x str = lowPlace lib isLex x str ∨
      countLow lib isLex .sortedSet x str = 1 ∨ lowPlace lib isLex x str = x.hcount + 1 := by
  rw [countLow_eq, lowPlace, boundPlace, lexPlace, remLow]
  by_cases first : (zbound true str).2 = [45]
  · exact Or.inr (Or.inl (if_pos first))
  · rw [if_neg first, if_neg first]
    cases isLex with
    | false => exact Or.inl rfl
    | true =>
        by_cases last : (zbound true str).2 = [43]
        · exact Or.inr (Or.inr (by rw [if_pos rfl, if_pos last]))
        · exact Or.inl (by rw [if_pos rfl, if_pos rfl, if_neg last])

/-- The upper bound of a count is the one of its range apart from the signs. -/
theorem countHigh_cases (isLex : Bool) (str : Bytes) :
    countHigh lib isLex .sortedSet x str = highPlace lib isLex x str ∨
      countHigh lib isLex .sortedSet x str = x.hcount + 1 ∨ highPlace lib isLex x str = 1 := by
  rw [countHigh_eq, highPlace, boundPlace, lexPlace, remHigh]
  by_cases last : (zbound true str).2 = [43]
  · exact Or.inr (Or.inl (if_pos last))
  · rw [if_neg last, if_neg last]
    cases isLex with
    | false => exact Or.inl rfl
    | true =>
        by_cases first : (zbound true str).2 = [45]
        · exact Or.inr (Or.inr (by rw [if_pos rfl, if_pos first]))
        · exact Or.inl (by rw [if_pos rfl, if_pos rfl, if_neg first])

/-- Two pairs of places name the same members: the same ones, or both none. -/
def SamePlaces (p q i j : Nat) : Prop := (p < q → i = p ∧ j = q) ∧ (q ≤ p → i = j)

/-- The members between two places. -/
def sliceOf (x : ZSetData Z) (p q : Nat) : List (Bytes × Z) :=
  (x.members.drop (p - 1)).take (q - p)

theorem length_sliceOf {p q : Nat} (low : 1 ≤ p) (high : q ≤ x.hcount + 1) :
    (sliceOf x p q).length = q - p := by
  rw [ZSetData.hcount] at high
  rw [sliceOf, List.length_take, List.length_drop]
  omega

theorem limitOf_zero (withscores : Bool) : limitOf withscores 0 = 0 := rfl

theorem sizeT_natCast {n : Nat} (small : n < 2 ^ 64) : sizeT n = n := by
  rw [sizeT]
  omega

/-- The members between two places in the direction of the command are read. -/
theorem zrangeMembers_eq {cmd : ZRangeCmd} {type : MdType} {args : ZRangeArgs} {i j : Nat}
    (bounds : zrangeBounds lib cmd type x args = some (i, j)) (low : -2 ^ 63 ≤ args.zcnt)
    (high : args.zcnt < 2 ^ 63) :
    zrangeMembers lib cmd type x args =
      some (((popOrder cmd.isRev x).drop i).take (readCount args.withscores args.zcnt i j)) := by
  have scan := zscanLoop_eq x cmd.isRev args.withscores (limitOf args.withscores args.zcnt) 0 (j - i) i
  rw [Nat.mul_zero, Nat.sub_zero] at scan
  rw [zrangeMembers, bounds, sizeT_limit _ low high, readCount, ← scan]
  rfl

/-- A range upwards reads from the place of its lower bound. -/
theorem zrangeBounds_forward (inRange : lib.InRange) {cmd : ZRangeCmd} (isBound : cmd.isRank = false)
    (isForward : cmd.isRev = false) (small : x.hcount < 2 ^ 62) (args : ZRangeArgs) :
    zrangeBounds lib cmd .sortedSet x args =
      some (sizeT ((lowPlace lib cmd.isLex x args.lo - 1 : Nat) + args.zoff),
        highPlace lib cmd.isLex x args.hi - 1) := by
  obtain ⟨lowFirst, -⟩ := @boundPlace_inRange _ _ x inRange cmd.isLex .sortedSet
    (zbound true args.lo).2 (!(zbound true args.lo).1)
  obtain ⟨highFirst, highLast⟩ := @boundPlace_inRange _ _ x inRange cmd.isLex .sortedSet
    (zbound true args.hi).2 (zbound true args.hi).1
  simp only [zrangeBounds, isBound, isForward, Bool.false_eq_true, if_false, reduceCtorEq, and_false,
    Bool.not_false]
  rw [← lowPlace, ← highPlace] at *
  rw [show ((highPlace lib cmd.isLex x args.hi : Nat) : Int) - 1 =
      ((highPlace lib cmd.isLex x args.hi - 1 : Nat) : Int) by omega, sizeT_natCast (by omega),
    show ((lowPlace lib cmd.isLex x args.lo : Nat) : Int) - 1 =
      ((lowPlace lib cmd.isLex x args.lo - 1 : Nat) : Int) by omega]

/-- A range downwards reads from the place of its upper bound, counted from the other end. -/
theorem zrangeBounds_reverse (inRange : lib.InRange) {cmd : ZRangeCmd} (isBound : cmd.isRank = false)
    (isReverse : cmd.isRev) (small : x.hcount < 2 ^ 62) (args : ZRangeArgs) :
    zrangeBounds lib cmd .sortedSet x args =
      some (sizeT ((x.hcount + 1 - highPlace lib cmd.isLex x args.lo : Nat) + args.zoff),
        x.hcount + 1 - lowPlace lib cmd.isLex x args.hi) := by
  obtain ⟨-, lowLast⟩ := @boundPlace_inRange _ _ x inRange cmd.isLex .sortedSet
    (zbound true args.hi).2 (!(zbound true args.hi).1)
  obtain ⟨-, highLast⟩ := @boundPlace_inRange _ _ x inRange cmd.isLex .sortedSet
    (zbound true args.lo).2 (zbound true args.lo).1
  simp only [zrangeBounds, isBound, isReverse, Bool.false_eq_true, if_false, if_true, reduceCtorEq,
    and_false, Bool.not_true, zbound_false, Bool.not_not]
  rw [← lowPlace, ← highPlace] at *
  rw [show (x.hcount : Int) + 1 - ((lowPlace lib cmd.isLex x args.hi : Nat) : Int) =
      ((x.hcount + 1 - lowPlace lib cmd.isLex x args.hi : Nat) : Int) by omega,
    sizeT_natCast (by omega),
    show (x.hcount : Int) + 1 - ((highPlace lib cmd.isLex x args.lo : Nat) : Int) =
      ((x.hcount + 1 - highPlace lib cmd.isLex x args.lo : Nat) : Int) by omega]

end Places

section Reads

variable {Z : Type} {lib : ScoreLib Z} {env : KeyEnv} {cmd : ZRangeCmd} {msg : CommandMsg}
  {args : ZRangeArgs} {arg0 : Bytes} {entry : Option (Entry (ZSetData Z))} {e : Entry (ZSetData Z)}

/-- The members that a range command reads. -/
def readBy (lib : ScoreLib Z) (cmd : ZRangeCmd) (msg : CommandMsg) (e : Entry (ZSetData Z)) :
    List (Bytes × Z) :=
  ((zrangeArgs cmd msg).bind (zrangeMembers lib cmd e.type e.data)).getD []

/-- A sorted set has a range for each command. -/
theorem exists_zrangeMembers (cmd : ZRangeCmd) (x : ZSetData Z) (args : ZRangeArgs) :
    ∃ members, zrangeMembers lib cmd .sortedSet x args = some members := by
  apply Option.isSome_iff_exists.mp
  rw [zrangeMembers, Option.isSome_map, zrangeBounds]
  cases cmd.isRank with
  | true => rfl
  | false =>
      cases cmd.isRev with
      | true => simp
      | false => simp

/-- Nothing is read of a set without members. -/
theorem zrangeMembers_empty {x : ZSetData Z} (empty : x.hcount = 0) {members : List (Bytes × Z)}
    (read : zrangeMembers lib cmd .sortedSet x args = some members) : members = [] := by
  rw [zrangeMembers, Option.map_eq_some_iff] at read
  obtain ⟨⟨i, j⟩, -, rfl⟩ := read
  have none : ∀ k, x.zindex k = none := by
    intro k
    cases k with
    | zero => rfl
    | succ k => exact List.getElem?_eq_none (by rw [ZSetData.hcount] at empty; omega)
  dsimp only
  cases j - i with
  | zero => rfl
  | succ left => simp only [zscanLoop, none, ite_self]

/-- The reply of a range has the members that are read. -/
theorem doZmultiscan_reply (works : env.Works) (isArgs : zrangeArgs cmd msg = some args)
    (isLive : live env entry = some e) (isZset : e.type = .sortedSet) :
    (doZmultiscan lib env cmd msg entry).reply arg0 =
      sendArray (zrangeItems lib e.type args.withscores (readBy lib cmd msg e)) := by
  obtain ⟨members, read⟩ := @exists_zrangeMembers _ lib cmd e.data args
  have isRead : readBy lib cmd msg e = members := by
    rw [readBy, isArgs, Option.bind_some, isZset, read, Option.getD_some]
  rw [doZmultiscan, isArgs, isRead]
  simp only [execKeyFetch, works.fetched, if_true, isLive, isZset, reduceCtorEq, if_false, ne_eq,
    not_true_eq_false, false_and, works.valued, read]
  by_cases empty : e.data.hcount = 0
  · rw [if_pos empty, zrangeMembers_empty empty read, sendItemsOf, if_pos works.validated]
    exact List.append_nil _
  · rw [if_neg empty, sendItemsOf, if_pos works.validated]
    exact List.append_nil _

/-- The reply of a count is the difference of its places. -/
theorem doZread_reply (works : env.Works) {isLex : Bool} {lo hi : Bytes}
    (isLow : msg.getArgStr 2 = some lo) (isHigh : msg.getArgStr 3 = some hi)
    (isLive : live env entry = some e) (isZset : e.type = .sortedSet) :
    (doZread lib env isLex msg entry).reply arg0 =
      sendInt ((countHigh lib isLex .sortedSet e.data hi : Int) -
        countLow lib isLex .sortedSet e.data lo) := by
  rw [doZread, isLow, isHigh]
  simp only [execKeyFetch, works.fetched, if_true, isLive, isZset, reduceCtorEq, if_false, ne_eq,
    not_true_eq_false, false_and, and_false, works.valued, works.validated]
  rfl

/-- The options of a range leave its bounds alone. -/
theorem zrangeOptions_bounds {left i : Nat} {start args : ZRangeArgs}
    (options : zrangeOptions msg left i start = some args) :
    args.lo = start.lo ∧ args.hi = start.hi := by
  induction left generalizing i start with
  | zero =>
      obtain rfl := Option.some.inj options
      exact ⟨rfl, rfl⟩
  | succ left ih =>
      rw [zrangeOptions] at options
      split at options
      · split at options
        · have next := ih options
          exact next
        · split at options
          · have next := ih options
            exact next
          · cases options
        · cases options
      · obtain rfl := Option.some.inj options
        exact ⟨rfl, rfl⟩

/-- The bounds of a range are the arguments behind its key. -/
theorem zrangeArgs_bounds (isBound : cmd.isRank = false) (isArgs : zrangeArgs cmd msg = some args) :
    msg.getArgStr 2 = some args.lo ∧ msg.getArgStr 3 = some args.hi := by
  rw [zrangeArgs, isBound, if_neg Bool.false_ne_true] at isArgs
  cases low : msg.getArgStr 2 with
  | none =>
      rw [low] at isArgs
      cases isArgs
  | some lo =>
      cases high : msg.getArgStr 3 with
      | none =>
          rw [low, high] at isArgs
          cases isArgs
      | some hi =>
          rw [low, high] at isArgs
          obtain ⟨sameLow, sameHigh⟩ := zrangeOptions_bounds isArgs
          rw [sameLow, sameHigh]
          exact ⟨rfl, rfl⟩

end Reads

section Removes

variable {Z : Type} {lib : ScoreLib Z} {env : ZRemEnv} {arg0 key : Bytes} {msg : CommandMsg}
  {entry : Option (Entry (ZSetData Z))} {e : Entry (ZSetData Z)} {range : List (Bytes × Z)}

/-- The members that are not in a range. -/
def withoutRange (x : ZSetData Z) (range : List (Bytes × Z)) : List (Bytes × Z) :=
  x.members.filter fun zv => range.all fun taken => taken.1 ≠ zv.1

theorem notTaken_iff {zv : Bytes × Z} :
    (range.all fun taken => decide (taken.1 ≠ zv.1)) = true ↔ zv.1 ∉ range.map Prod.fst := by
  simp only [List.all_eq_true, decide_eq_true_eq, List.mem_map, not_exists, not_and]

/-- A removal takes exactly the members of a range and replies their number. A key without members
is gone. -/
structure Removes (e : Entry (ZSetData Z)) (range : List (Bytes × Z)) (arg0 : Bytes)
    (run : KeyRun (ZSetData Z)) : Prop where
  reply : run.reply arg0 = sendInt range.length
  gone : range ≠ [] → withoutRange e.data range = [] → run.settle .sortedSet = none
  stays : range = [] ∨ withoutRange e.data range ≠ [] → ∃ e', run.settle .sortedSet = some e' ∧
    e'.type = e.type ∧ e'.exp = e.exp ∧ e'.data.members = withoutRange e.data range

/-- A sorted set without a slice is the part in front of it and the part behind it. -/
theorem withoutRange_slice (x : ZSetData Z) {i j : Nat} (low : i ≤ j) :
    withoutRange x ((x.members.drop i).take (j - i)) = x.members.take i ++ x.members.drop j := by
  have behind : (x.members.drop i).drop (j - i) = x.members.drop j := by
    rw [List.drop_drop, Nat.add_sub_cancel' low]
  have split : x.members = x.members.take i ++ ((x.members.drop i).take (j - i) ++
      x.members.drop j) := by
    rw [← behind, List.take_append_drop, List.take_append_drop]
  have nodup := x.nodup
  rw [split, List.map_append, List.map_append, List.nodup_append, List.nodup_append] at nodup
  obtain ⟨-, ⟨-, -, disjoint⟩, disjoint'⟩ := nodup
  generalize (x.members.drop i).take (j - i) = piece at *
  have front : (x.members.take i).filter (fun zv => piece.all fun taken => decide (taken.1 ≠ zv.1)) =
      x.members.take i := by
    rw [List.filter_eq_self]
    intro zv member
    rw [notTaken_iff]
    intro inside
    exact disjoint' zv.1 (List.mem_map_of_mem member) zv.1 (List.mem_append_left _ inside) rfl
  have middle : piece.filter (fun zv => piece.all fun taken => decide (taken.1 ≠ zv.1)) = [] := by
    rw [List.filter_eq_nil_iff]
    intro zv member
    rw [notTaken_iff]
    exact fun outside => outside (List.mem_map_of_mem member)
  have back : (x.members.drop j).filter (fun zv => piece.all fun taken => decide (taken.1 ≠ zv.1)) =
      x.members.drop j := by
    rw [List.filter_eq_self]
    intro zv member
    rw [notTaken_iff]
    intro inside
    exact disjoint zv.1 inside zv.1 (List.mem_map_of_mem member) rfl
  rw [withoutRange]
  conv_lhs => rw [split]
  rw [List.filter_append, List.filter_append, front, middle, back, List.nil_append]

/-- A removal between places that cross takes nothing and replies a negative number. -/
theorem zremMembers_crossing (found : Fetched (ZSetData Z)) (status : ExecStatus) (out : Bytes)
    {i j : Int} (crossing : j < i) :
    zremMembers env found e status out i j =
      { found.stop status with entry := some e, out := out, ival := j - i } := by
  rw [zremMembers]
  simp only [if_neg (show ¬j - i = (e.data.hcount : Int) by omega),
    show (j - i).toNat = 0 by omega, zremLoop]
  rw [if_neg (fun both => absurd both.1 (by omega))]

/-- The slice between two places that do not cross. -/
theorem withoutRange_sliceOf (x : ZSetData Z) {p q : Nat} (positive : 1 ≤ p) (low : p ≤ q) :
    withoutRange x (sliceOf x p q) = x.members.take (p - 1) ++ x.members.drop (q - 1) := by
  rw [sliceOf, show q - p = (q - 1) - (p - 1) by omega]
  exact withoutRange_slice x (by omega)

/-- Nothing is taken by an empty range. -/
theorem withoutRange_nil (x : ZSetData Z) : withoutRange x [] = x.members := by
  rw [withoutRange, List.filter_eq_self]
  intro zv _
  simp

/-- Two pieces of a sorted set are the same when the same members are left. -/
theorem places_of_withoutRange (x : ZSetData Z) {p q i j : Nat} (first : 1 ≤ p) (some : p < q)
    (last : q ≤ x.hcount + 1) (low : 1 ≤ i) (order : i ≤ j)
    (same : x.members.take (i - 1) ++ x.members.drop (j - 1) = withoutRange x (sliceOf x p q)) :
    i ≤ p ∧ q ≤ j := by
  rw [ZSetData.hcount] at last
  have nodup : x.members.Nodup := List.Nodup.of_map Prod.fst x.nodup
  have outside : ∀ k (inside : k < x.members.length), p - 1 ≤ k → k < q - 1 →
      x.members[k] ∉ x.members.take (i - 1) ++ x.members.drop (j - 1) := by
    intro k inside above below
    rw [same, withoutRange, List.mem_filter, notTaken_iff]
    rintro ⟨-, missing⟩
    apply missing
    apply List.mem_map_of_mem
    rw [sliceOf, List.mem_iff_getElem]
    refine ⟨k - (p - 1), by rw [List.length_take, List.length_drop]; omega, ?_⟩
    rw [List.getElem_take, List.getElem_drop]
    congr 1
    omega
  have between : ∀ k (inside : k < x.members.length), p - 1 ≤ k → k < q - 1 →
      i - 1 ≤ k ∧ k < j - 1 := by
    intro k inside above below
    have missing := outside k inside above below
    rw [List.mem_append, not_or] at missing
    apply And.intro
    · by_contra early
      apply missing.1
      rw [List.mem_take_iff_getElem]
      exact ⟨k, by omega, rfl⟩
    · by_contra late
      apply missing.2
      rw [List.mem_drop_iff_getElem]
      exact ⟨k - (j - 1), by omega, by congr 1; omega⟩
  have start := between (p - 1) (by omega) (Nat.le_refl _) (by omega)
  have stop := between (q - 2) (by omega) (by omega) (by omega)
  omega

/-- A removal between two places is the removal of a range exactly if they name its members. -/
theorem removes_zremMembers_iff (works : env.Works) {found : Fetched (ZSetData Z)}
    (old : found.isNew = false) {p q i j : Nat} (first : 1 ≤ p) (last : q ≤ e.data.hcount + 1)
    (low : 1 ≤ i) (start : i ≤ e.data.hcount + 1) (some : 1 ≤ j) (high : j ≤ e.data.hcount + 1) :
    Removes e (sliceOf e.data p q) arg0
        (zremMembers env found e .execSendInt [] ((i : Int) - 1) ((j : Int) - 1)) ↔
      SamePlaces p q i j := by
  have length := length_sliceOf first last
  rw [show (i : Int) - 1 = ((i - 1 : Nat) : Int) by omega,
    show (j : Int) - 1 = ((j - 1 : Nat) : Int) by omega]
  by_cases crossing : j < i
  · apply iff_of_false
    · intro removes
      have reply := removes.reply
      rw [zremMembers_crossing _ _ _ (by omega), KeyRun.reply, List.nil_append] at reply
      have number := sendInt_injective (show sendInt _ = sendInt _ from reply)
      dsimp only at number
      omega
    · rw [SamePlaces]
      omega
  · obtain ⟨status, out, ival, isNew, leaves⟩ := @zremMembers_spec _ _ e works found .execSendInt []
      (i - 1) (j - 1) (by omega) (by omega)
    have settled := KeyRun.settle_of_not_isNew (isNew.trans old) .sortedSet
    have reply : (zremMembers env found e .execSendInt [] ((i - 1 : Nat) : Int)
        ((j - 1 : Nat) : Int)).reply arg0 = sendInt (((j - 1 : Nat) : Int) - ((i - 1 : Nat) : Int)) := by
      rw [KeyRun.reply, status, out, ival]
      rfl
    apply Iff.intro
    · intro removes
      have number := sendInt_injective (reply.symm.trans removes.reply)
      rw [length] at number
      rw [SamePlaces]
      by_cases none : q ≤ p
      · omega
      · have some : sliceOf e.data p q ≠ [] := by
          intro empty
          rw [empty, List.length_nil] at length
          omega
        by_cases all : i - 1 < j - 1 ∧ j - 1 - (i - 1) = e.data.hcount
        · omega
        · rw [if_neg all] at leaves
          obtain ⟨x, isEntry, members⟩ := leaves
          by_cases rest : withoutRange e.data (sliceOf e.data p q) = []
          · have gone := removes.gone some rest
            rw [settled, isEntry] at gone
            cases gone
          · obtain ⟨e', isEntry', -, -, members'⟩ := removes.stays (Or.inr rest)
            rw [settled, isEntry] at isEntry'
            rw [← Option.some.inj isEntry'] at members'
            have places := places_of_withoutRange e.data first (by omega) last low (by omega)
              (members.symm.trans members')
            omega
    · intro same
      have counts : j - i = q - p := by
        rw [SamePlaces] at same
        omega
      have rest : e.data.members.take (i - 1) ++ e.data.members.drop (j - 1) =
          withoutRange e.data (sliceOf e.data p q) := by
        rw [SamePlaces] at same
        by_cases none : q ≤ p
        · rw [same.2 none, List.take_append_drop, sliceOf, show q - p = 0 by omega, List.take_zero,
            withoutRange_nil]
        · obtain ⟨rfl, rfl⟩ := same.1 (by omega)
          exact (withoutRange_sliceOf e.data first (by omega)).symm
      have size := congrArg List.length rest
      rw [List.length_append, List.length_take, List.length_drop] at size
      rw [ZSetData.hcount] at *
      refine ⟨?_, ?_, ?_⟩
      · rw [reply, length]
        congr 1
        omega
      · intro some none
        have positive := List.length_pos_iff.mpr some
        rw [none, List.length_nil] at size
        rw [if_pos (by omega)] at leaves
        rw [settled, leaves]
      · intro stays
        have more : ¬(i - 1 < j - 1 ∧ j - 1 - (i - 1) = e.data.members.length) := by
          rintro ⟨less, all⟩
          rcases stays with empty | more
          · rw [empty, List.length_nil] at length
            omega
          · apply more
            apply List.eq_nil_of_length_eq_zero
            rw [← size]
            omega
        rw [if_neg more] at leaves
        obtain ⟨x, isEntry, members⟩ := leaves
        exact ⟨_, settled.trans isEntry, rfl, rfl, members.trans rest⟩

end Removes

section Bounds

variable {Z : Type} {lib : ScoreLib Z} {x : ZSetData Z} {isLex : Bool} {lo hi : Bytes}

/-- The bounds of a range name the same members for all commands: the minimum is not above the
maximum, a sign means the same to all, or a search for the signs finds one place. -/
def PlacesFit (lib : ScoreLib Z) (x : ZSetData Z) (isLex : Bool) (lo hi : Bytes) : Prop :=
  if lowPlace lib isLex x lo ≤ highPlace lib isLex x hi then
    remLow lib isLex x lo = lowPlace lib isLex x lo ∧
      remHigh lib isLex x hi = highPlace lib isLex x hi ∧
      ((zbound true lo).2 = [45] → lowPlace lib isLex x lo = 1) ∧
      ((zbound true hi).2 = [43] → highPlace lib isLex x hi = x.hcount + 1)
  else remLow lib isLex x lo = remHigh lib isLex x hi

/-- A removal by score searches the bounds of its range. -/
theorem lowPlace_score (str : Bytes) : lowPlace lib false x str = remLow lib false x str := rfl

theorem highPlace_score (str : Bytes) : highPlace lib false x str = remHigh lib false x str := rfl

/-- A removal by member searches the bounds of its range apart from the signs. -/
theorem lowPlace_lex (str : Bytes) :
    lowPlace lib true x str =
      if (zbound true str).2 = [45] then 1
      else if (zbound true str).2 = [43] then x.hcount + 1
      else remLow lib true x str :=
  rfl

theorem highPlace_lex (str : Bytes) :
    highPlace lib true x str =
      if (zbound true str).2 = [45] then 1
      else if (zbound true str).2 = [43] then x.hcount + 1
      else remHigh lib true x str :=
  rfl

/-- Counts and removals have the places of the range under the condition only. -/
theorem samePlaces_iff (inRange : lib.InRange) :
    SamePlaces (lowPlace lib isLex x lo) (highPlace lib isLex x hi) (countLow lib isLex .sortedSet x lo)
          (countHigh lib isLex .sortedSet x hi) ∧
        SamePlaces (lowPlace lib isLex x lo) (highPlace lib isLex x hi) (remLow lib isLex x lo)
          (remHigh lib isLex x hi) ↔
      PlacesFit lib x isLex lo hi := by
  obtain ⟨⟨lowFirst, lowLast⟩, highFirst, highLast⟩ := @remPlaces_inRange _ _ x inRange isLex lo hi
  rw [countLow_eq, countHigh_eq, PlacesFit, SamePlaces, SamePlaces]
  cases isLex with
  | false =>
      rw [lowPlace_score, highPlace_score]
      by_cases first : (zbound true lo).2 = [45]
      · by_cases last : (zbound true hi).2 = [43]
        · simp only [first, last, if_true, true_imp_iff, true_and, and_true, implies_true]
          split_ifs <;> omega
        · simp only [first, last, if_true, if_false, true_imp_iff, false_imp_iff, true_and,
            and_true, implies_true]
          split_ifs <;> omega
      · by_cases last : (zbound true hi).2 = [43]
        · simp only [first, last, if_true, if_false, true_imp_iff, false_imp_iff, true_and,
            and_true, implies_true]
          split_ifs <;> omega
        · simp only [first, last, if_false, false_imp_iff, true_and, and_true, implies_true]
          split_ifs with ordered
          · rw [iff_true]
            omega
          · omega
  | true =>
      rw [lowPlace_lex, highPlace_lex]
      generalize remLow lib true x lo = low at *
      generalize remHigh lib true x hi = high at *
      have apart : ([43] : Bytes) ≠ [45] := by decide
      by_cases first : (zbound true lo).2 = [45]
      · by_cases last : (zbound true hi).2 = [43]
        · simp only [first, last, if_true, true_and, and_true, implies_true, if_neg apart]
          split_ifs <;> omega
        · simp only [first, last, if_true, if_false, false_imp_iff, true_and, and_true,
            implies_true]
          split_ifs <;> omega
      · by_cases last : (zbound true hi).2 = [43]
        · simp only [first, last, if_true, if_false, false_imp_iff, and_true, implies_true,
            if_neg apart]
          split_ifs <;> omega
        · simp only [first, last, if_false, false_imp_iff, and_true]
          split_ifs <;> omega

end Bounds

section Agree

variable {Z : Type} {lib : ScoreLib Z} {env : ZRemEnv} {arg0 key : Bytes} {isLex : Bool}
  {cmd : ZRangeCmd} {msg : CommandMsg} {args : ZRangeArgs} {members : List (Bytes × Z)}
  {entry : Option (Entry (ZSetData Z))} {e : Entry (ZSetData Z)}

def forwardCmd (isLex : Bool) : ZRangeCmd := if isLex then .zrangebylex else .zrangebyscore

def reverseCmd (isLex : Bool) : ZRangeCmd := if isLex then .zrevrangebylex else .zrevrangebyscore

def remCmd (isLex : Bool) : ZRemCmd := if isLex then .zremrangebylex else .zremrangebyscore

/-- All commands are asked for the members between two bounds: the range in both directions, with
and without a limit, its count and its removal. -/
structure BoundAsk (isLex : Bool) where
  lo : Bytes
  hi : Bytes
  withscores : Bool
  off : Int
  n : Int
  offFits : InInt64 off
  countFits : InInt64 n
  plain : CommandMsg
  rev : CommandMsg
  limited : CommandMsg
  limitedRev : CommandMsg
  count : CommandMsg
  rem : CommandMsg
  isPlain : zrangeArgs (forwardCmd isLex) plain =
    some { lo := lo, hi := hi, withscores := withscores }
  isRev : zrangeArgs (reverseCmd isLex) rev =
    some { lo := hi, hi := lo, withscores := withscores }
  isLimited : zrangeArgs (forwardCmd isLex) limited =
    some { lo := lo, hi := hi, zoff := off, zcnt := n, withscores := withscores }
  isLimitedRev : zrangeArgs (reverseCmd isLex) limitedRev =
    some { lo := hi, hi := lo, zoff := off, zcnt := n, withscores := withscores }
  countLow : count.getArgStr 2 = some lo
  countHigh : count.getArgStr 3 = some hi
  isRem : zremArgs (remCmd isLex) rem = some { lo := lo, hi := hi }

/-- A range command reads these members and replies them. -/
structure Reads (lib : ScoreLib Z) (env : KeyEnv) (cmd : ZRangeCmd) (msg : CommandMsg)
    (arg0 : Bytes) (withscores : Bool) (entry : Option (Entry (ZSetData Z)))
    (e : Entry (ZSetData Z)) (members : List (Bytes × Z)) : Prop where
  isRead : readBy lib cmd msg e = members
  reply : (doZmultiscan lib env cmd msg entry).reply arg0 =
    sendArray (zrangeItems lib e.type withscores members)

/-- The members that the plain range upwards reads. -/
def BoundAsk.read (ask : BoundAsk isLex) (lib : ScoreLib Z) (e : Entry (ZSetData Z)) :
    List (Bytes × Z) :=
  readBy lib (forwardCmd isLex) ask.plain e

/-- The commands agree about the members between two bounds. -/
structure BoundsAgree (lib : ScoreLib Z) (env : ZRemEnv) (ask : BoundAsk isLex) (key arg0 : Bytes)
    (entry : Option (Entry (ZSetData Z))) (e : Entry (ZSetData Z)) : Prop where
  range : Reads lib env.table (forwardCmd isLex) ask.plain arg0 ask.withscores entry e
    (ask.read lib e)
  reverse : Reads lib env.table (reverseCmd isLex) ask.rev arg0 ask.withscores entry e
    (ask.read lib e).reverse
  limit : Reads lib env.table (forwardCmd isLex) ask.limited arg0 ask.withscores entry e
    (window ask.off ask.n (ask.read lib e))
  limitReverse : Reads lib env.table (reverseCmd isLex) ask.limitedRev arg0 ask.withscores entry e
    (window ask.off ask.n (ask.read lib e).reverse)
  count : (doZread lib env.table isLex ask.count entry).reply arg0 =
    sendInt (ask.read lib e).length
  removes : Removes e (ask.read lib e) arg0 (doZremrange lib env (remCmd isLex) ask.rem key entry)

/-- The bounds name the same members everywhere, and the limit is one that selects. -/
structure BoundsFit (lib : ScoreLib Z) (x : ZSetData Z) (ask : BoundAsk isLex) : Prop where
  places : PlacesFit lib x isLex ask.lo ask.hi
  limit : LimitFits ask.withscores (lowPlace lib isLex x ask.lo - 1)
    (highPlace lib isLex x ask.hi - 1) ask.off ask.n
  limitReverse : LimitFits ask.withscores (x.hcount + 1 - highPlace lib isLex x ask.hi)
    (x.hcount + 1 - lowPlace lib isLex x ask.lo) ask.off ask.n

/-- A range command replies what it reads. -/
theorem reads_iff (works : env.table.Works) (isArgs : zrangeArgs cmd msg = some args)
    (isLive : live env.table entry = some e) (isZset : e.type = .sortedSet) :
    Reads lib env.table cmd msg arg0 args.withscores entry e members ↔
      readBy lib cmd msg e = members := by
  apply Iff.intro
  · exact fun reads => reads.isRead
  · intro read
    exact ⟨read, by rw [doZmultiscan_reply works isArgs isLive isZset, read]⟩

/-- The members that a command reads are a piece of the set in its direction. -/
theorem readBy_eq {i j : Nat} (isArgs : zrangeArgs cmd msg = some args)
    (isZset : e.type = .sortedSet) (fits : InInt64 args.zcnt)
    (bounds : zrangeBounds lib cmd .sortedSet e.data args = some (i, j)) :
    readBy lib cmd msg e =
      ((popOrder cmd.isRev e.data).drop i).take (readCount args.withscores args.zcnt i j) := by
  rw [readBy, isArgs, Option.bind_some, isZset, zrangeMembers_eq bounds fits.1 fits.2,
    Option.getD_some]

variable (ask : BoundAsk isLex)

theorem forwardCmd_bound (isLex : Bool) :
    (forwardCmd isLex).isRank = false ∧ (forwardCmd isLex).isRev = false ∧
      (forwardCmd isLex).isLex = isLex := by
  cases isLex <;> decide

theorem reverseCmd_bound (isLex : Bool) :
    (reverseCmd isLex).isRank = false ∧ (reverseCmd isLex).isRev ∧
      (reverseCmd isLex).isLex = isLex := by
  cases isLex <;> decide

/-- A range upwards reads between the places of its bounds. -/
theorem readBy_forward (inRange : lib.InRange)
    (isArgs : zrangeArgs (forwardCmd isLex) msg = some args) (isZset : e.type = .sortedSet)
    (small : e.data.hcount < 2 ^ 62) (fits : InInt64 args.zcnt) :
    readBy lib (forwardCmd isLex) msg e =
      (e.data.members.drop (sizeT ((lowPlace lib isLex e.data args.lo - 1 : Nat) + args.zoff))).take
        (readCount args.withscores args.zcnt
          (sizeT ((lowPlace lib isLex e.data args.lo - 1 : Nat) + args.zoff))
          (highPlace lib isLex e.data args.hi - 1)) := by
  obtain ⟨isBound, isForward, sameLex⟩ := forwardCmd_bound isLex
  have bounds := zrangeBounds_forward inRange isBound isForward small args
  rw [sameLex] at bounds
  rw [readBy_eq isArgs isZset fits bounds, isForward]
  rfl

/-- A range downwards reads between the same places from the other end. -/
theorem readBy_reverse (inRange : lib.InRange)
    (isArgs : zrangeArgs (reverseCmd isLex) msg = some args) (isZset : e.type = .sortedSet)
    (small : e.data.hcount < 2 ^ 62) (fits : InInt64 args.zcnt) :
    readBy lib (reverseCmd isLex) msg e =
      (e.data.members.reverse.drop
          (sizeT ((e.data.hcount + 1 - highPlace lib isLex e.data args.lo : Nat) + args.zoff))).take
        (readCount args.withscores args.zcnt
          (sizeT ((e.data.hcount + 1 - highPlace lib isLex e.data args.lo : Nat) + args.zoff))
          (e.data.hcount + 1 - lowPlace lib isLex e.data args.hi)) := by
  obtain ⟨isBound, isReverse, sameLex⟩ := reverseCmd_bound isLex
  have bounds := zrangeBounds_reverse inRange isBound isReverse small args
  rw [sameLex] at bounds
  rw [readBy_eq isArgs isZset fits bounds, isReverse]
  rfl

theorem zeroFits : InInt64 0 := by decide

/-- The range upwards reads the members between the places of its bounds. -/
theorem read_eq (inRange : lib.InRange) (isZset : e.type = .sortedSet)
    (small : e.data.hcount < 2 ^ 62) :
    ask.read lib e =
      sliceOf e.data (lowPlace lib isLex e.data ask.lo) (highPlace lib isLex e.data ask.hi) := by
  obtain ⟨lowFirst, lowLast⟩ := @boundPlace_inRange _ _ e.data inRange isLex .sortedSet
    (zbound true ask.lo).2 (!(zbound true ask.lo).1)
  rw [← lowPlace] at lowFirst lowLast
  rw [BoundAsk.read, readBy_forward inRange ask.isPlain isZset small zeroFits]
  dsimp only
  rw [Int.add_zero, sizeT_natCast (by omega), readCount, limitOf_zero, if_pos rfl, sliceOf]
  congr 1
  omega

/-- The range downwards reads the same members from the other end. -/
theorem reverse_read (inRange : lib.InRange) (isZset : e.type = .sortedSet)
    (small : e.data.hcount < 2 ^ 62) :
    (ask.read lib e).reverse =
      (e.data.members.reverse.drop
          (e.data.hcount + 1 - highPlace lib isLex e.data ask.hi)).take
        (e.data.hcount + 1 - lowPlace lib isLex e.data ask.lo -
          (e.data.hcount + 1 - highPlace lib isLex e.data ask.hi)) := by
  obtain ⟨lowFirst, lowLast⟩ := @boundPlace_inRange _ _ e.data inRange isLex .sortedSet
    (zbound true ask.lo).2 (!(zbound true ask.lo).1)
  obtain ⟨highFirst, highLast⟩ := @boundPlace_inRange _ _ e.data inRange isLex .sortedSet
    (zbound true ask.hi).2 (zbound true ask.hi).1
  rw [← lowPlace] at lowFirst lowLast
  rw [← highPlace] at highFirst highLast
  rw [read_eq ask inRange isZset small, sliceOf]
  generalize lowPlace lib isLex e.data ask.lo = p at *
  generalize highPlace lib isLex e.data ask.hi = q at *
  rw [ZSetData.hcount] at *
  by_cases none : q ≤ p
  · rw [Nat.sub_eq_zero_of_le none, List.take_zero, List.reverse_nil,
      show e.data.members.length + 1 - p - (e.data.members.length + 1 - q) = 0 by omega,
      List.take_zero]
  · rw [reverse_take_drop _ (by omega),
      show e.data.members.length - (p - 1 + (q - p)) = e.data.members.length + 1 - q by omega,
      show e.data.members.length + 1 - p - (e.data.members.length + 1 - q) = q - p by omega]

theorem readBy_rev (inRange : lib.InRange) (isZset : e.type = .sortedSet)
    (small : e.data.hcount < 2 ^ 62) :
    readBy lib (reverseCmd isLex) ask.rev e = (ask.read lib e).reverse := by
  obtain ⟨highFirst, -⟩ := @boundPlace_inRange _ _ e.data inRange isLex .sortedSet
    (zbound true ask.hi).2 (zbound true ask.hi).1
  rw [← highPlace] at highFirst
  rw [reverse_read ask inRange isZset small,
    readBy_reverse inRange ask.isRev isZset small zeroFits]
  dsimp only
  rw [Int.add_zero, sizeT_natCast (by omega), readCount, limitOf_zero, if_pos rfl]

/-- A limit selects a window of the range under the condition only. -/
theorem readBy_limited_iff (inRange : lib.InRange) (isZset : e.type = .sortedSet)
    (small : e.data.hcount < 2 ^ 62) :
    readBy lib (forwardCmd isLex) ask.limited e = window ask.off ask.n (ask.read lib e) ↔
      LimitFits ask.withscores (lowPlace lib isLex e.data ask.lo - 1)
        (highPlace lib isLex e.data ask.hi - 1) ask.off ask.n := by
  obtain ⟨lowFirst, lowLast⟩ := @boundPlace_inRange _ _ e.data inRange isLex .sortedSet
    (zbound true ask.lo).2 (!(zbound true ask.lo).1)
  obtain ⟨-, highLast⟩ := @boundPlace_inRange _ _ e.data inRange isLex .sortedSet
    (zbound true ask.hi).2 (zbound true ask.hi).1
  rw [← lowPlace] at lowFirst lowLast
  rw [← highPlace] at highLast
  rw [read_eq ask inRange isZset small, sliceOf,
    readBy_forward inRange ask.isLimited isZset small ask.countFits]
  dsimp only
  rw [show highPlace lib isLex e.data ask.hi - lowPlace lib isLex e.data ask.lo =
    highPlace lib isLex e.data ask.hi - 1 - (lowPlace lib isLex e.data ask.lo - 1) by omega]
  rw [ZSetData.hcount] at *
  exact limit_iff (List.Nodup.of_map Prod.fst e.data.nodup) ask.countFits.1 ask.offFits.1
    ask.offFits.2 (by omega) (by omega) small

theorem readBy_limitedRev_iff (inRange : lib.InRange) (isZset : e.type = .sortedSet)
    (small : e.data.hcount < 2 ^ 62) :
    readBy lib (reverseCmd isLex) ask.limitedRev e =
        window ask.off ask.n (ask.read lib e).reverse ↔
      LimitFits ask.withscores (e.data.hcount + 1 - highPlace lib isLex e.data ask.hi)
        (e.data.hcount + 1 - lowPlace lib isLex e.data ask.lo) ask.off ask.n := by
  obtain ⟨lowFirst, -⟩ := @boundPlace_inRange _ _ e.data inRange isLex .sortedSet
    (zbound true ask.lo).2 (!(zbound true ask.lo).1)
  obtain ⟨highFirst, -⟩ := @boundPlace_inRange _ _ e.data inRange isLex .sortedSet
    (zbound true ask.hi).2 (zbound true ask.hi).1
  rw [← lowPlace] at lowFirst
  rw [← highPlace] at highFirst
  rw [reverse_read ask inRange isZset small,
    readBy_reverse inRange ask.isLimitedRev isZset small ask.countFits]
  dsimp only
  have length : e.data.members.reverse.length = e.data.members.length := List.length_reverse
  rw [ZSetData.hcount] at *
  exact limit_iff (List.nodup_reverse.mpr (List.Nodup.of_map Prod.fst e.data.nodup))
    ask.countFits.1 ask.offFits.1 ask.offFits.2 (by omega) (by omega) (by omega)

/-- The count is the number of the members under the condition only. -/
theorem count_iff (works : env.table.Works) (inRange : lib.InRange)
    (isLive : live env.table entry = some e) (isZset : e.type = .sortedSet)
    (small : e.data.hcount < 2 ^ 62) :
    (doZread lib env.table isLex ask.count entry).reply arg0 = sendInt (ask.read lib e).length ↔
      SamePlaces (lowPlace lib isLex e.data ask.lo) (highPlace lib isLex e.data ask.hi)
        (countLow lib isLex .sortedSet e.data ask.lo)
        (countHigh lib isLex .sortedSet e.data ask.hi) := by
  obtain ⟨⟨lowFirst, lowLast⟩, highFirst, highLast⟩ :=
    @remPlaces_inRange _ _ e.data inRange isLex ask.lo ask.hi
  obtain ⟨lowFirst', lowLast'⟩ := @boundPlace_inRange _ _ e.data inRange isLex .sortedSet
    (zbound true ask.lo).2 (!(zbound true ask.lo).1)
  obtain ⟨highFirst', highLast'⟩ := @boundPlace_inRange _ _ e.data inRange isLex .sortedSet
    (zbound true ask.hi).2 (zbound true ask.hi).1
  rw [← lowPlace] at lowFirst' lowLast'
  rw [← highPlace] at highFirst' highLast'
  have low := @countLow_cases _ lib e.data isLex ask.lo
  have high := @countHigh_cases _ lib e.data isLex ask.hi
  have lowRange : 1 ≤ countLow lib isLex .sortedSet e.data ask.lo := by
    rw [countLow_eq]
    split <;> omega
  have highRange : countHigh lib isLex .sortedSet e.data ask.hi ≤ e.data.hcount + 1 := by
    rw [countHigh_eq]
    split <;> omega
  rw [doZread_reply works ask.countLow ask.countHigh isLive isZset, read_eq ask inRange isZset small,
    length_sliceOf lowFirst' highLast', SamePlaces]
  apply Iff.intro
  · intro same
    have number := sendInt_injective same
    omega
  · intro same
    congr 1
    omega

/-- The removal takes the members of the range under the condition only. -/
theorem removes_iff (works : env.Works) (inRange : lib.InRange)
    (isLive : live env.table entry = some e) (isZset : e.type = .sortedSet)
    (small : e.data.hcount < 2 ^ 62) :
    Removes e (ask.read lib e) arg0 (doZremrange lib env (remCmd isLex) ask.rem key entry) ↔
      SamePlaces (lowPlace lib isLex e.data ask.lo) (highPlace lib isLex e.data ask.hi)
        (remLow lib isLex e.data ask.lo) (remHigh lib isLex e.data ask.hi) := by
  obtain ⟨⟨lowFirst, lowLast⟩, highFirst, highLast⟩ :=
    @remPlaces_inRange _ _ e.data inRange isLex ask.lo ask.hi
  obtain ⟨lowFirst', lowLast'⟩ := @boundPlace_inRange _ _ e.data inRange isLex .sortedSet
    (zbound true ask.lo).2 (!(zbound true ask.lo).1)
  obtain ⟨highFirst', highLast'⟩ := @boundPlace_inRange _ _ e.data inRange isLex .sortedSet
    (zbound true ask.hi).2 (zbound true ask.hi).1
  rw [← lowPlace] at lowFirst' lowLast'
  rw [← highPlace] at highFirst' highLast'
  have isPop : (remCmd isLex).isPop = false := by
    cases isLex <;> rfl
  have bounds : zremBounds lib (remCmd isLex) e.type e.data { lo := ask.lo, hi := ask.hi } =
      some (some ((remLow lib isLex e.data ask.lo : Int) - 1,
        (remHigh lib isLex e.data ask.hi : Int) - 1)) := by
    rw [isZset]
    cases isLex <;> rfl
  rw [doZremrange_ranked works ask.isRem isLive (Or.inl isZset), zremOpened, bounds, isPop,
    read_eq ask inRange isZset small]
  by_cases empty : e.data.hcount = 0
  · rw [if_pos empty]
    apply iff_of_true
    · have none : sliceOf e.data (lowPlace lib isLex e.data ask.lo)
          (highPlace lib isLex e.data ask.hi) = [] := by
        apply List.eq_nil_of_length_eq_zero
        rw [length_sliceOf lowFirst' highLast']
        omega
      rw [none]
      refine ⟨?_, fun some => absurd rfl some,
        fun _ => ⟨e, KeyRun.settle_of_not_isNew rfl _, rfl, rfl, ?_⟩⟩
      · rw [ZRemCmd.nothing, isPop]
        rfl
      · rw [withoutRange_nil]
    · rw [SamePlaces]
      omega
  · rw [if_neg empty]
    exact removes_zremMembers_iff works rfl lowFirst' highLast' lowFirst lowLast highFirst highLast

/-- The commands agree about the members between two bounds under the condition only. -/
theorem boundsAgree_iff (works : env.Works) (inRange : lib.InRange)
    (isLive : live env.table entry = some e) (isZset : e.type = .sortedSet)
    (small : e.data.hcount < 2 ^ 62) :
    BoundsAgree lib env ask key arg0 entry e ↔ BoundsFit lib e.data ask := by
  apply Iff.intro
  · intro agree
    exact
      { places := (samePlaces_iff inRange).mp
          ⟨(count_iff ask works.table inRange isLive isZset small).mp agree.count,
            (removes_iff ask works inRange isLive isZset small).mp agree.removes⟩
        limit := (readBy_limited_iff ask inRange isZset small).mp agree.limit.isRead
        limitReverse := (readBy_limitedRev_iff ask inRange isZset small).mp
          agree.limitReverse.isRead }
  · intro fit
    obtain ⟨count, removes⟩ := (samePlaces_iff inRange).mpr fit.places
    exact
      { range := (reads_iff works.table ask.isPlain isLive isZset).mpr rfl
        reverse := (reads_iff works.table ask.isRev isLive isZset).mpr
          (readBy_rev ask inRange isZset small)
        limit := (reads_iff works.table ask.isLimited isLive isZset).mpr
          ((readBy_limited_iff ask inRange isZset small).mpr fit.limit)
        limitReverse := (reads_iff works.table ask.isLimitedRev isLive isZset).mpr
          ((readBy_limitedRev_iff ask inRange isZset small).mpr fit.limitReverse)
        count := (count_iff ask works.table inRange isLive isZset small).mpr count
        removes := (removes_iff ask works inRange isLive isZset small).mpr removes }

end Agree

section Ranks

variable {Z : Type} {lib : ScoreLib Z} {env : ZRemEnv} {arg0 key : Bytes}
  {entry : Option (Entry (ZSetData Z))} {e : Entry (ZSetData Z)}

/-- The members are asked for by their ranks, and by the ranks from the other end. -/
structure RankAsk where
  i : Int
  j : Int
  withscores : Bool
  lowFits : InInt64 i
  highFits : InInt64 j
  range : CommandMsg
  rev : CommandMsg
  rem : CommandMsg
  isRange : zrangeArgs .zrange range =
    some { ival := -j - 1, jval := -i - 1, withscores := withscores }
  isRev : zrangeArgs .zrevrange rev = some { ival := i, jval := j, withscores := withscores }
  isRem : zremArgs .zremrangebyrank rem = some { ival := -j - 1, jval := -i - 1 }

def RankAsk.read (ask : RankAsk) (lib : ScoreLib Z) (e : Entry (ZSetData Z)) : List (Bytes × Z) :=
  readBy lib .zrange ask.range e

/-- The commands agree about the members between two ranks. -/
structure RanksAgree (lib : ScoreLib Z) (env : ZRemEnv) (ask : RankAsk) (key arg0 : Bytes)
    (entry : Option (Entry (ZSetData Z))) (e : Entry (ZSetData Z)) : Prop where
  range : Reads lib env.table .zrange ask.range arg0 ask.withscores entry e (ask.read lib e)
  reverse : Reads lib env.table .zrevrange ask.rev arg0 ask.withscores entry e
    (ask.read lib e).reverse
  removes : Removes e (ask.read lib e) arg0 (execZremrangebyrank lib env ask.rem key entry)

/-- The first rank of a range, counted from the front. -/
def rankStart (count : Nat) (i : Int) : Nat :=
  min count (if i < 0 then count + i else i).toNat

/-- The rank behind the last one of a range. -/
def rankStop (count : Nat) (j : Int) : Nat :=
  min count ((if j < 0 then count + j else j) + 1).toNat

/-- The rank behind the highest number is in front of all. -/
def rankEnd (count : Nat) (j : Int) : Nat := if j = 2 ^ 63 - 1 then 0 else rankStop count j

/-- The last rank of a range is not the highest number, from either end, unless there are no members
between the ranks. -/
def RanksFit (count : Nat) (i j : Int) : Prop :=
  (j = 2 ^ 63 - 1 ↔ i = -2 ^ 63) ∨ rankStop count j ≤ rankStart count i

/-- A range of ranks ends behind its last rank. -/
theorem rankBounds_eq {count : Nat} {i j : Int} (small : count < 2 ^ 62) (low : InInt64 i)
    (high : InInt64 j) :
    rankBounds count i j = ((rankStart count i : Int), (rankEnd count j : Int)) := by
  rw [InInt64] at low high
  have start : (if i < 0 then toInt64 (count + i) else i) = if i < 0 then count + i else i := by
    by_cases negative : i < 0
    · rw [if_pos negative, if_pos negative, toInt64_of_inInt64]
      rw [InInt64]
      omega
    · rw [if_neg negative, if_neg negative]
  have stop : (if j < 0 then toInt64 (count + j) else j) = if j < 0 then count + j else j := by
    by_cases negative : j < 0
    · rw [if_pos negative, if_pos negative, toInt64_of_inInt64]
      rw [InInt64]
      omega
    · rw [if_neg negative, if_neg negative]
  simp only [rankBounds, start, stop]
  rw [rankStart, rankEnd, rankStop, Prod.mk.injEq]
  apply And.intro
  · split <;> omega
  · by_cases highest : j = 2 ^ 63 - 1
    · subst highest
      have wraps : toInt64 ((if (2 ^ 63 - 1 : Int) < 0 then (count : Int) + (2 ^ 63 - 1)
          else 2 ^ 63 - 1) + 1) = -2 ^ 63 := by
        rw [if_neg (by decide)]
        decide
      rw [wraps, if_pos rfl]
      omega
    · rw [if_neg highest, toInt64_of_inInt64]
      · split <;> omega
      · rw [InInt64]
        split <;> omega

theorem rankStart_le (count : Nat) (i : Int) : rankStart count i ≤ count := by
  rw [rankStart]
  omega

theorem rankEnd_le (count : Nat) (j : Int) : rankEnd count j ≤ count := by
  rw [rankEnd, rankStop]
  split <;> omega

/-- A rank from the other end is as far from that end. -/
theorem rankStop_mirror (count : Nat) (j : Int) :
    rankStop count j = count - rankStart count (-j - 1) := by
  rw [rankStop, rankStart]
  split <;> split <;> omega

/-- The members between two ranks are read in the direction of the command. -/
theorem readBy_rank {cmd : ZRangeCmd} {msg : CommandMsg} {args : ZRangeArgs}
    (isRank : cmd.isRank) (isArgs : zrangeArgs cmd msg = some args) (noLimit : args.zcnt = 0)
    (isZset : e.type = .sortedSet) (small : e.data.hcount < 2 ^ 62) (low : InInt64 args.ival)
    (high : InInt64 args.jval) :
    readBy lib cmd msg e =
      ((popOrder cmd.isRev e.data).drop (rankStart e.data.hcount args.ival)).take
        (rankEnd e.data.hcount args.jval - rankStart e.data.hcount args.ival) := by
  have bounds : zrangeBounds lib cmd .sortedSet e.data args =
      some (rankStart e.data.hcount args.ival, rankEnd e.data.hcount args.jval) := by
    rw [zrangeBounds, if_pos isRank, rankBounds_eq small low high]
    rfl
  have fits : InInt64 args.zcnt := by
    rw [noLimit]
    exact zeroFits
  rw [readBy_eq isArgs isZset fits bounds, readCount, noLimit, limitOf_zero, if_pos rfl]

variable (ask : RankAsk)

/-- The ranks from the other end are numbers of 64 bits too. -/
theorem RankAsk.mirrorFits : InInt64 (-ask.j - 1) ∧ InInt64 (-ask.i - 1) := by
  obtain ⟨lowLow, lowHigh⟩ := ask.lowFits
  obtain ⟨highLow, highHigh⟩ := ask.highFits
  rw [InInt64, InInt64]
  omega

/-- The range of ranks as a slice. -/
theorem read_rank (isZset : e.type = .sortedSet) (small : e.data.hcount < 2 ^ 62) :
    ask.read lib e =
      sliceOf e.data (rankStart e.data.hcount (-ask.j - 1) + 1)
        (rankEnd e.data.hcount (-ask.i - 1) + 1) := by
  obtain ⟨low, high⟩ := ask.mirrorFits
  rw [RankAsk.read, readBy_rank rfl ask.isRange rfl isZset small low high, sliceOf,
    Nat.add_sub_cancel, Nat.add_sub_add_right]
  rfl

/-- The ranks from the other end read the reverse under the condition only. -/
theorem readBy_zrevrange_iff (isZset : e.type = .sortedSet) (small : e.data.hcount < 2 ^ 62) :
    readBy lib .zrevrange ask.rev e = (ask.read lib e).reverse ↔
      RanksFit e.data.hcount ask.i ask.j := by
  have start := rankStart_le e.data.hcount ask.i
  have mirror := rankStart_le e.data.hcount (-ask.j - 1)
  have behind := rankStop_mirror e.data.hcount ask.j
  have behind' := rankStop_mirror e.data.hcount (-ask.i - 1)
  rw [show -(-ask.i - 1) - 1 = ask.i by omega] at behind'
  rw [readBy_rank rfl ask.isRev rfl isZset small ask.lowFits ask.highFits,
    read_rank ask isZset small, sliceOf, Nat.add_sub_cancel, Nat.add_sub_add_right, RanksFit,
    rankEnd, rankEnd, behind, behind']
  dsimp only
  generalize rankStart e.data.hcount ask.i = first at *
  generalize rankStart e.data.hcount (-ask.j - 1) = last at *
  rw [show popOrder ZRangeCmd.zrevrange.isRev e.data = e.data.members.reverse from rfl]
  rw [ZSetData.hcount] at *
  have lengths : (List.take ((if ask.j = 2 ^ 63 - 1 then 0 else e.data.members.length - last) - first)
        (List.drop first e.data.members.reverse)).length =
      (if ask.j = 2 ^ 63 - 1 then 0 else e.data.members.length - last) - first := by
    rw [List.length_take, List.length_drop, List.length_reverse]
    split <;> omega
  have lengths' : (List.take
        ((if -ask.i - 1 = 2 ^ 63 - 1 then 0 else e.data.members.length - first) - last)
        (List.drop last e.data.members)).length =
      (if -ask.i - 1 = 2 ^ 63 - 1 then 0 else e.data.members.length - first) - last := by
    rw [List.length_take, List.length_drop]
    split <;> omega
  apply Iff.intro
  · intro same
    have sizes := congrArg List.length same
    rw [List.length_reverse, lengths, lengths'] at sizes
    split at sizes <;> split at sizes <;> omega
  · intro fits
    by_cases none : e.data.members.length - last ≤ first
    · rw [List.eq_nil_of_length_eq_zero (lengths.trans (by split <;> omega)),
        List.eq_nil_of_length_eq_zero (lengths'.trans (by split <;> omega)), List.reverse_nil]
    · by_cases highest : ask.j = 2 ^ 63 - 1
      · rw [if_pos highest, if_pos (by omega), Nat.zero_sub, Nat.zero_sub, List.take_zero,
          List.take_zero, List.reverse_nil]
      · rw [if_neg highest, if_neg (by omega), reverse_take_drop _ (by omega)]
        congr 1
        · omega
        · congr 1
          omega

/-- The removal takes the members between the ranks. -/
theorem removes_zremrangebyrank (works : env.Works) (isLive : live env.table entry = some e)
    (isZset : e.type = .sortedSet) (small : e.data.hcount < 2 ^ 62) :
    Removes e (ask.read lib e) arg0 (execZremrangebyrank lib env ask.rem key entry) := by
  obtain ⟨low, high⟩ := ask.mirrorFits
  have first := rankStart_le e.data.hcount (-ask.j - 1)
  have last := rankEnd_le e.data.hcount (-ask.i - 1)
  rw [execZremrangebyrank, doZremrange_ranked works ask.isRem isLive (Or.inl isZset), zremOpened,
    read_rank ask isZset small, zremBounds, rankBounds_eq small low high]
  dsimp only
  by_cases none : rankEnd e.data.hcount (-ask.i - 1) ≤ rankStart e.data.hcount (-ask.j - 1)
  · have empty : sliceOf e.data (rankStart e.data.hcount (-ask.j - 1) + 1)
        (rankEnd e.data.hcount (-ask.i - 1) + 1) = [] := by
      apply List.eq_nil_of_length_eq_zero
      rw [length_sliceOf (by omega) (by omega)]
      omega
    have stops : Removes e [] arg0
        ((⟨some .keyOk, some e, false, e.type⟩ : Fetched (ZSetData Z)).stop .execSendZero) :=
      { reply := rfl
        gone := fun some => absurd rfl some
        stays := fun _ => ⟨e, KeyRun.settle_of_not_isNew rfl _, rfl, rfl, by rw [withoutRange_nil]⟩ }
    rw [empty]
    by_cases zero : e.data.hcount = 0
    · rw [if_pos zero]
      exact stops
    · rw [if_neg zero, if_pos (by omega)]
      exact stops
  · rw [if_neg (by omega), if_neg (by omega)]
    have places := @removes_zremMembers_iff _ env arg0 e works ⟨some .keyOk, some e, false, e.type⟩
      rfl (rankStart e.data.hcount (-ask.j - 1) + 1) (rankEnd e.data.hcount (-ask.i - 1) + 1)
      (rankStart e.data.hcount (-ask.j - 1) + 1) (rankEnd e.data.hcount (-ask.i - 1) + 1)
      (by omega) (by omega) (by omega) (by omega) (by omega) (by omega)
    rw [Int.natCast_add, Int.natCast_add, Int.natCast_one, Int.add_sub_cancel,
      Int.add_sub_cancel] at places
    apply places.mpr
    rw [SamePlaces]
    omega

/-- The commands agree about the members between two ranks under the condition only. -/
theorem ranksAgree_iff (works : env.Works) (isLive : live env.table entry = some e)
    (isZset : e.type = .sortedSet) (small : e.data.hcount < 2 ^ 62) :
    RanksAgree lib env ask key arg0 entry e ↔ RanksFit e.data.hcount ask.i ask.j := by
  apply Iff.intro
  · intro agree
    exact (readBy_zrevrange_iff ask isZset small).mp agree.reverse.isRead
  · intro fit
    exact
      { range := (reads_iff works.table ask.isRange isLive isZset).mpr rfl
        reverse := (reads_iff works.table ask.isRev isLive isZset).mpr
          ((readBy_zrevrange_iff ask isZset small).mpr fit)
        removes := removes_zremrangebyrank ask works isLive isZset small }

end Ranks

section Exact

variable {Z : Type} {lib : ScoreLib Z} {env : ZRemEnv} {arg0 key : Bytes}
  {entry : Option (Entry (ZSetData Z))} {e : Entry (ZSetData Z)}

/-- The ranges of a sorted set by rank, by score and by member agree in both directions, with their
counts, their limits and their removals under the conditions only. -/
theorem sortedRanges_exact (works : env.Works) (inRange : lib.InRange)
    (isLive : live env.table entry = some e) (isZset : e.type = .sortedSet)
    (small : e.data.hcount < 2 ^ 62) (ranks : RankAsk) (scores : BoundAsk false)
    (members : BoundAsk true) :
    (RanksAgree lib env ranks key arg0 entry e ∧ BoundsAgree lib env scores key arg0 entry e ∧
        BoundsAgree lib env members key arg0 entry e) ↔
      RanksFit e.data.hcount ranks.i ranks.j ∧ BoundsFit lib e.data scores ∧
        BoundsFit lib e.data members := by
  rw [ranksAgree_iff ranks works isLive isZset small,
    boundsAgree_iff scores works inRange isLive isZset small,
    boundsAgree_iff members works inRange isLive isZset small]

end Exact

section Samples

/-- The searches of the samples count members. -/
theorem numberScores_inRange : numberScores.InRange :=
  { score := fun _ _ _ => ⟨Nat.le_add_left _ _, Nat.succ_le_succ (List.length_filter_le _ _)⟩
    member := fun _ _ _ => ⟨Nat.le_add_left _ _, Nat.succ_le_succ (List.length_filter_le _ _)⟩ }

def rangeMsg (words : List String) : CommandMsg :=
  ⟨commandWords ("z" :: words.take 8), by simp [commandWords]; omega⟩

/-- A message with a limit behind its bounds. -/
theorem zrangeArgs_limit {cmd : ZRangeCmd} {msg : CommandMsg} {lo hi : Bytes} {off n : Int}
    (isBound : cmd.isRank = false) (low : msg.getArgStr 2 = some lo)
    (high : msg.getArgStr 3 = some hi)
    (isLimit : msg.matchArg 4 [text "withscores", text "limit"] = 2)
    (first : msg.getArgInt 5 = some off) (second : msg.getArgInt 6 = some n) (size : msg.argc = 7) :
    zrangeArgs cmd msg = some { lo := lo, hi := hi, zoff := off, zcnt := n } := by
  rw [zrangeArgs, isBound, low, high, size, if_neg Bool.false_ne_true]
  dsimp only
  rw [zrangeOptions, if_pos (by omega)]
  simp only [isLimit, Nat.reduceAdd, first, second]
  rw [zrangeOptions, if_neg (by omega)]

/-- The last member of a set. -/
def lastRank : RankAsk where
  i := 0
  j := 0
  withscores := false
  lowFits := by decide
  highFits := by decide
  range := rangeMsg ["k", "-1", "-1"]
  rev := rangeMsg ["k", "0", "0"]
  rem := rangeMsg ["k", "-1", "-1"]
  isRange := by decide
  isRev := by decide
  isRem := by decide

/-- The members with a score of one. -/
def scoreOne : BoundAsk false where
  lo := text "1"
  hi := text "1"
  withscores := false
  off := 0
  n := 1
  offFits := by decide
  countFits := by decide
  plain := rangeMsg ["k", "1", "1"]
  rev := rangeMsg ["k", "1", "1"]
  limited := rangeMsg ["k", "1", "1", "limit", "0", "1"]
  limitedRev := rangeMsg ["k", "1", "1", "limit", "0", "1"]
  count := rangeMsg ["k", "1", "1"]
  rem := rangeMsg ["k", "1", "1"]
  isPlain := by decide
  isRev := by decide
  isLimited := zrangeArgs_limit rfl (by decide) (by decide) (by decide) (by decide) (by decide) rfl
  isLimitedRev :=
    zrangeArgs_limit rfl (by decide) (by decide) (by decide) (by decide) (by decide) rfl
  countLow := by decide
  countHigh := by decide
  isRem := by decide

/-- The minimum is above the maximum. -/
def scoresCrossing : BoundAsk false where
  lo := text "2"
  hi := text "0"
  withscores := false
  off := 0
  n := 1
  offFits := by decide
  countFits := by decide
  plain := rangeMsg ["k", "2", "0"]
  rev := rangeMsg ["k", "0", "2"]
  limited := rangeMsg ["k", "2", "0", "limit", "0", "1"]
  limitedRev := rangeMsg ["k", "0", "2", "limit", "0", "1"]
  count := rangeMsg ["k", "2", "0"]
  rem := rangeMsg ["k", "2", "0"]
  isPlain := by decide
  isRev := by decide
  isLimited := zrangeArgs_limit rfl (by decide) (by decide) (by decide) (by decide) (by decide) rfl
  isLimitedRev :=
    zrangeArgs_limit rfl (by decide) (by decide) (by decide) (by decide) (by decide) rfl
  countLow := by decide
  countHigh := by decide
  isRem := by decide

/-- The members behind the first one. -/
def membersBehind : BoundAsk true where
  lo := text "(a"
  hi := text "[b"
  withscores := false
  off := 0
  n := 1
  offFits := by decide
  countFits := by decide
  plain := rangeMsg ["k", "(a", "[b"]
  rev := rangeMsg ["k", "[b", "(a"]
  limited := rangeMsg ["k", "(a", "[b", "limit", "0", "1"]
  limitedRev := rangeMsg ["k", "[b", "(a", "limit", "0", "1"]
  count := rangeMsg ["k", "(a", "[b"]
  rem := rangeMsg ["k", "(a", "[b"]
  isPlain := by decide
  isRev := by decide
  isLimited := zrangeArgs_limit rfl (by decide) (by decide) (by decide) (by decide) (by decide) rfl
  isLimitedRev :=
    zrangeArgs_limit rfl (by decide) (by decide) (by decide) (by decide) (by decide) rfl
  countLow := by decide
  countHigh := by decide
  isRem := by decide

theorem sortedRanges_exact_two :
    RanksAgree numberScores quietRemEnv lastRank (text "k") [] (some twoScores) twoScores ∧
      BoundsAgree numberScores quietRemEnv scoreOne (text "k") [] (some twoScores) twoScores ∧
      BoundsAgree numberScores quietRemEnv membersBehind (text "k") [] (some twoScores) twoScores :=
  (sortedRanges_exact quietRemEnv_works numberScores_inRange rfl rfl (by decide) lastRank scoreOne
    membersBehind).mpr
    ⟨Or.inl (by decide),
      { places := by rw [PlacesFit]; decide
        limit := by rw [LimitFits]; decide
        limitReverse := by rw [LimitFits]; decide },
      { places := by rw [PlacesFit]; decide
        limit := by rw [LimitFits]; decide
        limitReverse := by rw [LimitFits]; decide }⟩

/-- Bounds that cross have no members, and their count is a negative number. -/
theorem not_sortedRanges_exact :
    ¬(RanksAgree numberScores quietRemEnv lastRank (text "k") [] (some twoScores) twoScores ∧
      BoundsAgree numberScores quietRemEnv scoresCrossing (text "k") [] (some twoScores) twoScores ∧
      BoundsAgree numberScores quietRemEnv membersBehind (text "k") [] (some twoScores)
        twoScores) := by
  rintro ⟨-, agree, -⟩
  have same := (count_iff scoresCrossing quietRemEnv_works.table numberScores_inRange rfl rfl
    (by decide)).mp agree.count
  have crossing := same.2 (by decide)
  exact absurd crossing (by decide)

end Samples

end Raids.Key
