import Raids.Construction.Collection.SetBits
import Raids.Library.Machine
import Raids.Library.SetWalk

namespace Raids.SetBits
open Machine SetWalk

section Members

variable {s : SetBits} {i j k : Nat}

/-- The cleared words have a bit at an offset. -/
def isSet (s : SetBits) (i : Nat) : Bool :=
  decide (i / 64 ≤ s.last) && (s.bits (i / 64)).getLsbD (i % 64)

/-- The offsets with a bit. -/
def members (s : SetBits) : Finset Nat :=
  (Finset.range (64 * (s.last + 1))).filter fun i => s.isSet i

theorem isSet_iff :
    s.isSet i = true ↔ i / 64 ≤ s.last ∧ (s.bits (i / 64)).getLsbD (i % 64) = true := by
  rw [isSet, Bool.and_eq_true, decide_eq_true_eq]

@[simp] theorem mem_members : i ∈ s.members ↔ s.isSet i = true := by
  rw [members, Finset.mem_filter, Finset.mem_range]
  apply and_iff_right_of_imp
  intro found
  have inside := (isSet_iff.mp found).1
  omega

/-- The mask of an offset has one bit. -/
theorem getLsbD_mask {b : Nat} (inside : b < 64) :
    (mask j).getLsbD b = decide (b = j % 64) := by
  rw [mask, BitVec.getLsbD_shiftLeft, BitVec.getLsbD_one, Bool.eq_iff_iff]
  simp only [inside, decide_true, Bool.true_and, Bool.and_eq_true, Bool.not_eq_true',
    decide_eq_false_iff_not, decide_eq_true_eq]
  omega

theorem and_mask_ne_zero (w : BitVec 64) : w &&& mask j ≠ 0 ↔ w.getLsbD (j % 64) = true := by
  have inside : j % 64 < 64 := Nat.mod_lt _ (by decide)
  apply Iff.intro
  · intro some
    by_contra missing
    apply some
    apply BitVec.eq_of_getLsbD_eq
    intro b below
    rw [BitVec.getLsbD_and, getLsbD_mask below]
    by_cases same : b = j % 64
    · rw [same]
      simpa using missing
    · simp [same]
  · intro found zero
    have bits := congrArg (fun v => BitVec.getLsbD v (j % 64)) zero
    rw [BitVec.getLsbD_and, getLsbD_mask inside, found] at bits
    simp at bits

/-- The set of an extended set of bits gains the offset that is set. -/
theorem isSet_update (inside : j / 64 ≤ s.last) :
    isSet { s with bits := Function.update s.bits (j / 64) (s.bits (j / 64) ||| mask j) } i =
      (decide (i = j) || s.isSet i) := by
  have below : i % 64 < 64 := Nat.mod_lt _ (by decide)
  rw [isSet, isSet]
  by_cases word : i / 64 = j / 64
  · have here : i / 64 ≤ s.last := by omega
    simp only [word, Function.update_self, BitVec.getLsbD_or, getLsbD_mask below]
    by_cases same : i % 64 = j % 64
    · have equal : i = j := by omega
      simp [equal, inside]
    · have different : i ≠ j := fun equal => same (by rw [equal])
      simp [same, different]
  · have different : i ≠ j := fun equal => word (by rw [equal])
    simp [Function.update_of_ne word, different]

end Members

section Extend

variable {heap : Nat → Bool} {s : SetBits} {off : Nat}

/-- A word is allocated already, or the heap has a block that is rounded up to hold it. -/
def Fits (heap : Nat → Bool) (s : SetBits) (off : Nat) : Prop :=
  off < s.size ∨ off &&& (off - 1) ≠ 0 ∧ heap (allocSize off) = true

theorem lt_allocSize (rounded : off &&& (off - 1) ≠ 0) : off < allocSize off := by
  rw [allocSize, if_pos rounded, Nat.one_shiftLeft]
  exact Nat.lt_size_self off

theorem allocSize_of_power (power : off &&& (off - 1) = 0) : allocSize off = off := by
  rw [allocSize, if_neg (not_not.mpr power)]

/-- Words that are cleared have no bits. -/
theorem clearWords_inside (inside : s.last < s.size) (fits : off < s.size) :
    ∃ t, s.clearWords off = some t ∧ t.last < t.size ∧ off ≤ t.last ∧
      ∀ i, t.isSet i = s.isSet i := by
  rw [clearWords]
  by_cases longer : s.last < off
  · rw [if_pos longer, if_pos fits]
    refine ⟨_, rfl, fits, Nat.le_refl _, ?_⟩
    intro i
    rw [isSet, isSet]
    by_cases old : i / 64 ≤ s.last
    · have notCleared : ¬s.last < i / 64 := by omega
      have within : i / 64 ≤ off := by omega
      simp [old, notCleared, within]
    · by_cases cleared : i / 64 ≤ off
      · have new : s.last < i / 64 := by omega
        simp [old, cleared, new]
      · simp [old, cleared]
  · rw [if_neg longer]
    exact ⟨s, rfl, inside, by omega, fun _ => rfl⟩

/-- A set of bits that is extended has the same members. -/
theorem extend_fits (inside : s.last < s.size) (fits : Fits heap s off) :
    ∃ t, s.extend heap off = some (true, t) ∧ t.last < t.size ∧ off ≤ t.last ∧
      ∀ i, t.isSet i = s.isSet i := by
  rw [extend]
  by_cases grows : s.size ≤ off
  · have rounded := fits.resolve_left (by omega)
    have room : off < allocSize off := lt_allocSize rounded.1
    obtain ⟨t, cleared, below, within, same⟩ := @clearWords_inside
      { s with size := allocSize off } off (show s.last < allocSize off by omega) room
    refine ⟨t, ?_, below, within, same⟩
    rw [if_pos grows, alloc, if_pos rounded.2]
    simp [cleared]
  · obtain ⟨t, cleared, below, within, same⟩ := @clearWords_inside s off inside (by omega)
    refine ⟨t, ?_, below, within, same⟩
    rw [if_neg grows]
    simp [cleared]

/-- A word that does not fit is refused, or it is written outside the allocation. -/
theorem extend_not_fits (inside : s.last < s.size) (tooLarge : ¬Fits heap s off) :
    s.extend heap off = none ∨ s.extend heap off = some (false, s) := by
  have grows : s.size ≤ off := Nat.le_of_not_lt fun fits => tooLarge (Or.inl fits)
  rw [extend, if_pos grows, alloc]
  by_cases granted : heap (allocSize off) = true
  · have power : off &&& (off - 1) = 0 := by
      by_contra rounded
      exact tooLarge (Or.inr ⟨rounded, granted⟩)
    have longer : s.last < off := by omega
    rw [if_pos granted, allocSize_of_power power]
    simp [clearWords, longer]
  · rw [if_neg granted]
    simp

end Extend

section Words

variable {w : BitVec 64} {upto k b : Nat}

theorem ffsl_eq_zero : ffsl w = 0 ↔ w = 0 := by
  rw [ffsl]
  split
  · rename_i zero
    simp [zero]
  · rename_i some
    simpa using some

/-- The lowest bit of a word is its first one. -/
theorem ffsl_lowest (some : ffsl w ≠ 0) :
    w.getLsbD (ffsl w - 1) = true ∧ ∀ b < ffsl w - 1, w.getLsbD b = false := by
  have nonzero : w ≠ 0 := fun zero => some (ffsl_eq_zero.mpr zero)
  rw [ffsl, if_neg nonzero, Nat.add_sub_cancel]
  exact ⟨BitVec.getLsbD_true_ctz_of_ne_zero nonzero,
    fun b low => BitVec.getLsbD_false_of_lt_ctz low⟩

/-- The highest bit of a word is its last one. -/
theorem clzl_highest (some : w ≠ 0) :
    clzl w < 64 ∧ w.getLsbD (63 - clzl w) = true ∧ ∀ b, 63 - clzl w < b → w.getLsbD b = false := by
  have below : clzl w < 64 := BitVec.lt_def.mp (BitVec.clz_lt_iff_ne_zero.mpr some)
  refine ⟨below, ?_, ?_⟩
  · exact BitVec.getLsbD_true_clz_of_ne_zero (by decide) some
  · intro b high
    have small := @BitVec.toNat_lt_two_pow_sub_clz 64 w
    apply Nat.testBit_lt_two_pow
    apply lt_of_lt_of_le small
    apply Nat.pow_le_pow_right (by decide)
    rw [clzl] at high below
    omega

/-- The bits of a word below the end are complemented, and the others of the last word are lost. -/
theorem getLsbD_flipWord (inside : b < 64) (word : k * 64 < upto) :
    (flipWord upto k w).getLsbD b = (!w.getLsbD b && decide (k * 64 + b < upto)) := by
  have notted : (~~~w).getLsbD b = !w.getLsbD b := by
    rw [BitVec.getLsbD_not]
    simp [inside]
  rw [flipWord]
  by_cases last : upto < (k + 1) * 64
  · have size : (1#64 <<< (upto % 64) - 1#64).getLsbD b = decide (b < upto % 64) := by
      have small : 2 ^ (upto % 64) < 2 ^ 64 :=
        Nat.pow_lt_pow_right (by decide) (Nat.mod_lt _ (by decide))
      have value : (1#64 <<< (upto % 64) - 1#64).toNat = 2 ^ (upto % 64) - 1 := by
        have positive : 0 < 2 ^ (upto % 64) := Nat.two_pow_pos _
        have shifted : (1#64 <<< (upto % 64)).toNat = 2 ^ (upto % 64) := by
          rw [BitVec.toNat_shiftLeft, Nat.shiftLeft_eq]
          simp only [BitVec.toNat_ofNat]
          omega
        rw [BitVec.toNat_sub, shifted]
        simp only [BitVec.toNat_ofNat]
        omega
      rw [← BitVec.testBit_toNat, value, Nat.testBit_two_pow_sub_one]
    have same : k * 64 + b < upto ↔ b < upto % 64 := by omega
    rw [if_pos last, BitVec.getLsbD_and, notted, size, decide_eq_decide.mpr same]
  · have all : k * 64 + b < upto := by omega
    rw [if_neg last, notted, decide_eq_true all, Bool.and_true]

end Words

section Set

variable {heap : Nat → Bool} {s : SetBits} {j : Nat}

theorem members_update (inside : j / 64 ≤ s.last) :
    members { s with bits := Function.update s.bits (j / 64) (s.bits (j / 64) ||| mask j) } =
      insert j s.members := by
  ext i
  rw [mem_members, isSet_update inside, Finset.mem_insert, mem_members, Bool.or_eq_true,
    decide_eq_true_eq]

theorem members_congr {t : SetBits} (same : ∀ i, t.isSet i = s.isSet i) :
    t.members = s.members := by
  ext i
  rw [mem_members, mem_members, same]

/-- An offset whose word fits is a member after it is set. -/
theorem set_meets (inside : s.last < s.size) (fits : Fits heap s (j / 64)) :
    ∃ t, s.set heap j = some (true, t) ∧ t.last < t.size ∧ j / 64 ≤ t.last ∧
      t.members = insert j s.members := by
  obtain ⟨t, extended, below, reached, same⟩ := extend_fits inside fits
  have written : s.set heap j = some (true, { t with
      bits := Function.update t.bits (j / 64) (t.bits (j / 64) ||| mask j) }) := by
    rw [set, extended]
    rfl
  refine ⟨_, written, below, reached, ?_⟩
  rw [members_update reached, members_congr same]

/-- The test of an offset whose word fits tells whether it was a member. -/
theorem testSet_meets (inside : s.last < s.size) (fits : Fits heap s (j / 64)) :
    ∃ t, s.testSet heap j = some (s.isSet j, t) ∧ t.last < t.size ∧ j / 64 ≤ t.last ∧
      t.members = insert j s.members := by
  obtain ⟨t, extended, below, reached, same⟩ := extend_fits inside fits
  have bits : t.isSet j = (t.bits (j / 64)).getLsbD (j % 64) := by
    simp [isSet, reached]
  by_cases there : t.isSet j = true
  · have tested : s.testSet heap j = some (true, t) := by
      rw [testSet, extended]
      simp only [Option.bind_eq_bind, Option.bind_some]
      have found : ¬t.bits (j / 64) &&& mask j = 0#64 := and_mask_ne_zero _ |>.mpr (bits ▸ there)
      simp [found]
    refine ⟨t, ?_, below, reached, ?_⟩
    · rw [tested, ← same, there]
    · rw [← members_congr same, Finset.insert_eq_of_mem (mem_members.mpr there)]
  · have written : s.testSet heap j = some (s.isSet j, { t with
        bits := Function.update t.bits (j / 64) (t.bits (j / 64) ||| mask j) }) := by
      rw [testSet, extended, ← same, Bool.eq_false_iff.mpr there]
      simp only [Option.bind_eq_bind, Option.bind_some]
      rw [bits, ← and_mask_ne_zero, not_not] at there
      simp [there]
    refine ⟨_, written, below, reached, ?_⟩
    rw [members_update reached, members_congr same]

theorem fits_of_set (inside : s.last < s.size) {t : SetBits}
    (written : s.set heap j = some (true, t)) : Fits heap s (j / 64) := by
  by_contra tooLarge
  rcases extend_not_fits inside tooLarge with refused | refused
  · rw [set, refused] at written
    cases written
  · rw [set, refused] at written
    simp at written

theorem fits_of_testSet (inside : s.last < s.size) {t : SetBits} {isFound : Bool}
    (tested : s.testSet heap j = some (isFound, t)) (inserted : t.members = insert j s.members) :
    Fits heap s (j / 64) := by
  by_contra tooLarge
  rcases extend_not_fits inside tooLarge with refused | refused
  · rw [testSet, refused] at tested
    cases tested
  · rw [testSet, refused] at tested
    simp only [Option.bind_eq_bind, Option.bind_some, Bool.not_false, if_true, Option.pure_def,
      Option.some.injEq, Prod.mk.injEq] at tested
    have member : j ∈ s.members := by
      rw [tested.2, inserted]
      exact Finset.mem_insert_self j _
    have word := (isSet_iff.mp (mem_members.mp member)).1
    exact tooLarge (Or.inl (by omega))

end Set

section Flip

variable {heap : Nat → Bool} {s : SetBits} {upto : Nat}

/-- The word of the end is complemented with an `int` mask, and no bit at the end or behind it is in
that word. -/
def FlipsEnd (s : SetBits) (upto : Nat) : Prop :=
  upto % 64 = 0 ∨
    upto % 64 < 31 ∧ ∀ i, upto ≤ i → i / 64 = upto / 64 → s.isSet i = false

/-- The bits in the words up to the end, without those in the last word that are behind it. -/
theorem isSet_flipWords (reached : upto / 64 ≤ s.last) (i : Nat) :
    isSet { s with bits := fun k =>
        if k * 64 < upto then flipWord upto k (s.bits k) else s.bits k } i =
      if i / 64 * 64 < upto then !s.isSet i && decide (i < upto) else s.isSet i := by
  rw [isSet, isSet]
  by_cases word : i / 64 * 64 < upto
  · have inside : i / 64 ≤ s.last := by omega
    have offset : i / 64 * 64 + i % 64 = i := by omega
    simp [word, inside, getLsbD_flipWord (Nat.mod_lt i (by decide)) word, offset]
  · simp [word]

theorem flip_fits (inside : s.last < s.size) (fits : Fits heap s (upto / 64))
    (defined : upto % 64 < 31) :
    ∃ t, s.flip heap upto = some (true, t) ∧ t.last < t.size ∧ upto / 64 ≤ t.last ∧
      ∀ i, t.isSet i =
        if i / 64 * 64 < upto then !s.isSet i && decide (i < upto) else s.isSet i := by
  obtain ⟨t, extended, below, reached, same⟩ := extend_fits inside fits
  have flipped : s.flip heap upto = some (true, { t with
      bits := fun k => if k * 64 < upto then flipWord upto k (t.bits k) else t.bits k }) := by
    rw [flip, extended]
    simp [Nat.not_le_of_lt defined]
  refine ⟨_, flipped, below, reached, ?_⟩
  intro i
  rw [isSet_flipWords reached, same]

/-- A set is complemented where the word of the end keeps its bits behind the end. -/
theorem flip_meets (inside : s.last < s.size) (fits : Fits heap s (upto / 64))
    (ends : FlipsEnd s upto) :
    ∃ t, s.flip heap upto = some (true, t) ∧ t.last < t.size ∧ upto / 64 ≤ t.last ∧
      t.members = symmDiff s.members (Finset.range upto) := by
  have defined : upto % 64 < 31 := by
    rcases ends with whole | ⟨small, -⟩
    · omega
    · exact small
  obtain ⟨t, flipped, below, reached, bits⟩ := flip_fits inside fits defined
  refine ⟨t, flipped, below, reached, ?_⟩
  ext i
  rw [Finset.mem_symmDiff, mem_members, mem_members, Finset.mem_range, bits]
  by_cases low : i < upto
  · have word : i / 64 * 64 < upto := by omega
    simp [word, low]
  · by_cases word : i / 64 * 64 < upto
    · have last : i / 64 = upto / 64 := by omega
      have missing : s.isSet i = false := by
        rcases ends with whole | ⟨-, none⟩
        · omega
        · exact none i (by omega) last
      simp [word, low, missing]
    · simp [word, low]

/-- A set that is complemented has its last word allocated and no bits behind the end in it. -/
theorem meets_of_flip (inside : s.last < s.size) {t : SetBits}
    (flipped : s.flip heap upto = some (true, t))
    (complement : t.members = symmDiff s.members (Finset.range upto)) :
    Fits heap s (upto / 64) ∧ FlipsEnd s upto := by
  by_cases fits : Fits heap s (upto / 64)
  · apply And.intro fits
    by_cases whole : upto % 64 = 0
    · exact Or.inl whole
    · by_cases defined : upto % 64 < 31
      · obtain ⟨t', flipped', -, -, bits⟩ := flip_fits inside fits defined
        rw [flipped, Option.some.injEq, Prod.mk.injEq] at flipped'
        refine Or.inr ⟨defined, ?_⟩
        intro i behind last
        by_contra member
        rw [Bool.not_eq_false] at member
        have kept : i ∈ symmDiff s.members (Finset.range upto) := by
          rw [Finset.mem_symmDiff, mem_members, Finset.mem_range]
          exact Or.inl ⟨member, by omega⟩
        rw [← complement, mem_members, flipped'.2, bits, if_pos (by omega)] at kept
        simp only [Bool.and_eq_true, decide_eq_true_eq] at kept
        omega
      · obtain ⟨t', extended, -, -, -⟩ := extend_fits inside fits
        rw [flip, extended] at flipped
        simp [Nat.le_of_not_lt defined] at flipped
  · rcases extend_not_fits inside fits with refused | refused
    · rw [flip, refused] at flipped
      cases flipped
    · rw [flip, refused] at flipped
      simp at flipped

end Flip

section Iteration

variable {s : SetBits} {t : Finset Nat} {i j k : Nat}

/-- The first member from an offset on, if there is one. -/
def IsNext (t : Finset Nat) (j : Nat) : Option Nat → Prop
  | some i => i ∈ t ∧ j ≤ i ∧ ∀ b ∈ t, j ≤ b → i ≤ b
  | none => ∀ b ∈ t, b < j

/-- The last member below an offset, if there is one. -/
def IsPrev (t : Finset Nat) (j : Nat) : Option Nat → Prop
  | some i => i ∈ t ∧ i < j ∧ ∀ b ∈ t, b < j → b ≤ i
  | none => ∀ b ∈ t, j ≤ b

theorem getLsbD_word (inside : k ≤ s.last) {b : Nat} (below : b < 64) :
    (s.bits k).getLsbD b = s.isSet (k * 64 + b) := by
  have word : (k * 64 + b) / 64 = k := by omega
  have offset : (k * 64 + b) % 64 = b := by omega
  rw [isSet, word, offset, decide_eq_true inside, Bool.true_and]

/-- A word without bits from an offset on has no members there. -/
theorem isSet_of_shift_zero (inside : j / 64 ≤ s.last)
    (zero : s.bits (j / 64) >>> (j % 64) = 0) {b : Nat} (low : j ≤ b) (word : b / 64 = j / 64) :
    s.isSet b = false := by
  have shifted := congrArg (fun w => BitVec.getLsbD w (b % 64 - j % 64)) zero
  have index : j % 64 + (b % 64 - j % 64) = b % 64 := by omega
  simp only [BitVec.getLsbD_ushiftRight, index] at shifted
  rw [getLsbD_word inside (Nat.mod_lt _ (by decide))] at shifted
  have offset : j / 64 * 64 + b % 64 = b := by omega
  rw [offset] at shifted
  simpa using shifted

theorem nextWord_isNext (k j : Nat) (word : j / 64 = k) (inside : k ≤ s.last) :
    IsNext s.members j (position (s.nextWord k j)) := by
  fun_induction nextWord s k j with
  | case1 k j x none ends =>
      intro b member
      rw [mem_members] at member
      subst word
      by_contra behind
      have last := (isSet_iff.mp member).1
      have zero := isSet_of_shift_zero inside (ffsl_eq_zero.mp none) (Nat.le_of_not_lt behind)
        (by omega)
      rw [zero] at member
      cases member
  | case2 k j x none more ih =>
      subst word
      have rest := ih (by omega) (by omega)
      have skipped : ∀ b ∈ s.members, j ≤ b → (j / 64 + 1) * 64 ≤ b := by
        intro b member behind
        rw [mem_members] at member
        by_contra low
        have zero := isSet_of_shift_zero inside (ffsl_eq_zero.mp none) behind (by omega)
        rw [zero] at member
        cases member
      cases found : position (s.nextWord (j / 64 + 1) ((j / 64 + 1) * 64)) with
      | none =>
          rw [found] at rest
          intro b member
          have low := rest b member
          by_contra behind
          have := skipped b member (by omega)
          omega
      | some i =>
          rw [found] at rest
          refine ⟨rest.1, by have := rest.2.1; omega, ?_⟩
          intro b member behind
          exact rest.2.2 b member (skipped b member behind)
  | case3 k j x some =>
      subst word
      obtain ⟨isOne, zeros⟩ := ffsl_lowest some
      rw [BitVec.getLsbD_ushiftRight] at isOne
      have below : j % 64 + (x - 1) < 64 := BitVec.lt_of_getLsbD isOne
      rw [getLsbD_word inside below] at isOne
      have offset : j / 64 * 64 + (j % 64 + (x - 1)) = j + (x - 1) := by omega
      rw [offset] at isOne
      refine ⟨mem_members.mpr isOne, by omega, ?_⟩
      intro b member behind
      by_contra early
      have zero := zeros (b - j) (by omega)
      have index : j % 64 + (b - j) < 64 := by omega
      rw [BitVec.getLsbD_ushiftRight, getLsbD_word inside index] at zero
      have place : j / 64 * 64 + (j % 64 + (b - j)) = b := by omega
      rw [place] at zero
      rw [mem_members, zero] at member
      cases member

/-- The offset moves to the first member from it on. -/
theorem next_isNext (j : Nat) : IsNext s.members j (position (s.next j)) := by
  rw [next]
  split
  · intro b member
    have last := (isSet_iff.mp (mem_members.mp member)).1
    omega
  · exact nextWord_isNext (j / 64) j rfl (by omega)

/-- The bits of a word below an offset. -/
theorem getLsbD_below (inside : k ≤ s.last) (word : (j - 1) / 64 = k) (positive : 0 < j) {b : Nat}
    (below : b < 64) :
    (if 0 < j % 64 then s.bits k <<< (64 - j % 64) else s.bits k).getLsbD b =
      (decide (64 - (j - k * 64) ≤ b) && s.isSet (j + b - 64)) := by
  split
  · have shift : 64 - (j - k * 64) = 64 - j % 64 := by omega
    rw [BitVec.getLsbD_shiftLeft, shift]
    by_cases low : b < 64 - j % 64
    · simp [low, Nat.not_le_of_lt low]
    · have place : k * 64 + (b - (64 - j % 64)) = j + b - 64 := by omega
      rw [getLsbD_word inside (by omega), place]
      simp [low, below, Nat.le_of_not_lt low]
  · have place : k * 64 + b = j + b - 64 := by omega
    have all : 64 - (j - k * 64) ≤ b := by omega
    rw [getLsbD_word inside below, place, decide_eq_true all, Bool.true_and]

theorem isSet_of_below_zero (inside : k ≤ s.last) (word : (j - 1) / 64 = k) (positive : 0 < j)
    (zero : (if 0 < j % 64 then s.bits k <<< (64 - j % 64) else s.bits k) = 0) {b : Nat}
    (low : b < j) (here : k * 64 ≤ b) : s.isSet b = false := by
  have bits := congrArg (fun w => BitVec.getLsbD w (b + 64 - j)) zero
  beta_reduce at bits
  rw [getLsbD_below inside word positive (by omega)] at bits
  have place : j + (b + 64 - j) - 64 = b := by omega
  have above : 64 - (j - k * 64) ≤ b + 64 - j := by omega
  rw [place, decide_eq_true above, Bool.true_and] at bits
  simpa using bits

theorem prevWord_isPrev (k j : Nat) (word : (j - 1) / 64 = k) (positive : 0 < j)
    (inside : k ≤ s.last) : IsPrev s.members j (position (s.prevWord k j)) := by
  fun_induction prevWord s k j with
  | case1 j w zero =>
      intro b member
      by_contra low
      have missing : s.isSet b = false :=
        isSet_of_below_zero inside word positive zero (by omega) (by omega)
      rw [mem_members, missing] at member
      cases member
  | case2 j k w zero ih =>
      have rest := ih (by omega) (by omega) (by omega)
      have skipped : ∀ b ∈ s.members, b < j → b < (k + 1) * 64 := by
        intro b member low
        by_contra here
        have missing := isSet_of_below_zero inside word positive zero low (by omega)
        rw [mem_members, missing] at member
        cases member
      cases found : position (s.prevWord k ((k + 1) * 64)) with
      | none =>
          rw [found] at rest
          intro b member
          have high := rest b member
          by_contra low
          have := skipped b member (by omega)
          omega
      | some i =>
          rw [found] at rest
          refine ⟨rest.1, by have := rest.2.1; omega, ?_⟩
          intro b member low
          exact rest.2.2 b member (skipped b member low)
  | case3 k j w some =>
      obtain ⟨below, isOne, zeros⟩ := clzl_highest some
      rw [getLsbD_below inside word positive (by omega)] at isOne
      simp only [Bool.and_eq_true, decide_eq_true_eq] at isOne
      have place : j + (63 - clzl w) - 64 = j - (clzl w + 1) := by omega
      rw [place] at isOne
      refine ⟨mem_members.mpr isOne.2, by omega, ?_⟩
      intro b member low
      by_contra high
      have zero := zeros (b + 64 - j) (by omega)
      rw [getLsbD_below inside word positive (by omega)] at zero
      have same : j + (b + 64 - j) - 64 = b := by omega
      have above : 64 - (j - k * 64) ≤ b + 64 - j := by omega
      rw [same, decide_eq_true above, Bool.true_and] at zero
      rw [mem_members, zero] at member
      cases member

/-- The offset moves to the last member before it. -/
theorem prev_isPrev (j : Nat) : IsPrev s.members j (position (s.prev j)) := by
  rw [prev]
  split
  · intro b member
    omega
  · rename_i positive
    split
    · rename_i behind
      have found := @prevWord_isPrev s s.last (s.last * 64 + 64) (by omega) (by omega)
        (Nat.le_refl _)
      have below : ∀ b ∈ s.members, b < s.last * 64 + 64 := by
        intro b member
        have last := (isSet_iff.mp (mem_members.mp member)).1
        omega
      cases place : position (s.prevWord s.last (s.last * 64 + 64)) with
      | none =>
          rw [place] at found
          intro b member
          have := found b member
          have := below b member
          omega
      | some i =>
          rw [place] at found
          refine ⟨found.1, by have := found.2.1; omega, ?_⟩
          intro b member _
          exact found.2.2 b member (below b member)
    · rename_i inside
      exact prevWord_isPrev ((j - 1) / 64) j rfl (by omega) (by omega)

end Iteration

section Loops

variable {s : SetBits} {t : Finset Nat} {j : Nat}

/-- The offsets of the loop that starts at zero and goes on behind each bit. -/
def nextLoop (s : SetBits) (fuel : Nat) : List Nat :=
  walk (fun i => position (s.next i)) (· + 1) fuel 0

/-- The offsets of the loop that goes down from a count. -/
def prevLoop (s : SetBits) (count fuel : Nat) : List Nat :=
  walk (fun i => position (s.prev i)) id fuel count

/-- The ascending loop lists every member once and stops. -/
theorem nextLoop_eq_sort {fuel : Nat} (enough : s.members.card < fuel) :
    s.nextLoop fuel = s.members.sort (· ≤ ·) := by
  have listed := @walk_eq_sort Nat Nat (fun i => position (s.next i)) (· + 1) _ (· ≤ ·) _ _ _ _
    (fun i => s.members.filter (i ≤ ·)) ?_ ?_ fuel 0
  · have all : s.members.filter (0 ≤ ·) = s.members := Finset.filter_true_of_mem (by simp)
    rw [all] at listed
    exact listed enough
  · intro i none
    have ends := @next_isNext s i
    rw [none] at ends
    apply Finset.filter_false_of_mem
    intro b member
    exact Nat.not_le_of_lt (ends b member)
  · intro i a asked
    have first := @next_isNext s i
    rw [asked] at first
    refine ⟨Finset.mem_filter.mpr ⟨first.1, first.2.1⟩, ?_, ?_⟩
    · intro b left
      exact first.2.2 b (Finset.mem_filter.mp left).1 (Finset.mem_filter.mp left).2
    · ext b
      rw [Finset.mem_erase, Finset.mem_filter, Finset.mem_filter]
      apply Iff.intro
      · rintro ⟨member, behind⟩
        exact ⟨by omega, member, by have := first.2.1; omega⟩
      · rintro ⟨other, member, behind⟩
        exact ⟨member, by have := first.2.2 b member behind; omega⟩

/-- The descending loop lists every member below the count once and stops. -/
theorem prevLoop_eq_sort {count fuel : Nat} (enough : s.members.card < fuel) :
    s.prevLoop count fuel = (s.members.filter (· < count)).sort (· ≥ ·) := by
  have smaller : (s.members.filter (· < count)).card < fuel :=
    Nat.lt_of_le_of_lt (Finset.card_filter_le _ _) enough
  apply @walk_eq_sort Nat Nat (fun i => position (s.prev i)) id _ (· ≥ ·) _ _ _ _
    (fun i => s.members.filter (· < i)) ?_ ?_ fuel count smaller
  · intro i none
    have ends := @prev_isPrev s i
    rw [none] at ends
    apply Finset.filter_false_of_mem
    intro b member
    exact Nat.not_lt_of_le (ends b member)
  · intro i a asked
    have last := @prev_isPrev s i
    rw [asked] at last
    refine ⟨Finset.mem_filter.mpr ⟨last.1, last.2.1⟩, ?_, ?_⟩
    · intro b left
      exact last.2.2 b (Finset.mem_filter.mp left).1 (Finset.mem_filter.mp left).2
    · ext b
      rw [Finset.mem_erase, Finset.mem_filter, Finset.mem_filter, id_eq]
      apply Iff.intro
      · rintro ⟨member, low⟩
        exact ⟨by omega, member, by have := last.2.1; omega⟩
      · rintro ⟨other, member, low⟩
        exact ⟨member, by have := last.2.2 b member low; omega⟩

end Loops

section Run

variable {heap : Nat → Bool} {s : SetBits} {t : Finset Nat} {op : Op}

/-- The first member of a finite set from an offset on. -/
def firstFrom (t : Finset Nat) (j : Nat) : Option Nat :=
  if more : (t.filter (j ≤ ·)).Nonempty then some ((t.filter (j ≤ ·)).min' more) else none

/-- The last member of a finite set below an offset. -/
def lastBelow (t : Finset Nat) (j : Nat) : Option Nat :=
  if more : (t.filter (· < j)).Nonempty then some ((t.filter (· < j)).max' more) else none

theorem firstFrom_eq {j : Nat} {p : Option Nat} (isNext : IsNext t j p) : firstFrom t j = p := by
  cases p with
  | none =>
      have empty : ¬(t.filter (j ≤ ·)).Nonempty := by
        rw [Finset.not_nonempty_iff_eq_empty]
        exact Finset.filter_false_of_mem fun b member => Nat.not_le_of_lt (isNext b member)
      rw [firstFrom, dif_neg empty]
  | some i =>
      obtain ⟨member, behind, least⟩ := isNext
      have left : i ∈ t.filter (j ≤ ·) := Finset.mem_filter.mpr ⟨member, behind⟩
      rw [firstFrom, dif_pos ⟨i, left⟩]
      apply congrArg some
      apply Nat.le_antisymm
      · exact Finset.min'_le _ _ left
      · apply Finset.le_min'
        intro b found
        exact least b (Finset.mem_filter.mp found).1 (Finset.mem_filter.mp found).2

theorem lastBelow_eq {j : Nat} {p : Option Nat} (isPrev : IsPrev t j p) : lastBelow t j = p := by
  cases p with
  | none =>
      have empty : ¬(t.filter (· < j)).Nonempty := by
        rw [Finset.not_nonempty_iff_eq_empty]
        exact Finset.filter_false_of_mem fun b member => Nat.not_lt_of_le (isPrev b member)
      rw [lastBelow, dif_neg empty]
  | some i =>
      obtain ⟨member, low, greatest⟩ := isPrev
      have left : i ∈ t.filter (· < j) := Finset.mem_filter.mpr ⟨member, low⟩
      rw [lastBelow, dif_pos ⟨i, left⟩]
      apply congrArg some
      apply Nat.le_antisymm
      · apply Finset.max'_le
        intro b found
        exact greatest b (Finset.mem_filter.mp found).1 (Finset.mem_filter.mp found).2
      · exact Finset.le_max' _ _ left

/-- The same operations on a finite set. -/
def finiteSet (t : Finset Nat) : Op → Answer × Finset Nat
  | .set j => (.found true, insert j t)
  | .testSet j => (.found (decide (j ∈ t)), insert j t)
  | .reset => (.found true, ∅)
  | .flip upto => (.found true, symmDiff t (Finset.range upto))
  | .next j => (.bitAt (firstFrom t j), t)
  | .prev j => (.bitAt (lastBelow t j), t)

/-- An operation on the bits with its answer and the members after it. Without a result nothing
follows. -/
def observeBits (heap : Nat → Bool) :
    Option SetBits → Op → Option (Answer × Finset Nat) × Option SetBits
  | none, _ => (none, none)
  | some s, op =>
      match s.apply heap op with
      | none => (none, none)
      | some (answer, s) => (some (answer, s.members), some s)

/-- An operation on a finite set with its answer and the members after it. -/
def observeSet (t : Finset Nat) (op : Op) : Option (Answer × Finset Nat) × Finset Nat :=
  (some (finiteSet t op), (finiteSet t op).2)

/-- The offset that an operation extends the bits to. -/
def Op.extends : Op → Option Nat
  | .set j => some j
  | .testSet j => some j
  | .flip upto => some upto
  | _ => none

/-- The word of the offset fits, and a complement keeps the bits behind its end. -/
def MeetsBits (heap : Nat → Bool) (s : SetBits) : Op → Prop
  | .set j => Fits heap s (j / 64)
  | .testSet j => Fits heap s (j / 64)
  | .flip upto => Fits heap s (upto / 64) ∧ FlipsEnd s upto
  | _ => True

/-- An operation that meets the condition acts as on the finite set of the members. -/
theorem apply_meets (inside : s.last < s.size) (meets : MeetsBits heap s op) :
    ∃ s', s.apply heap op = some ((finiteSet s.members op).1, s') ∧
      s'.members = (finiteSet s.members op).2 ∧ s'.last < s'.size ∧
      ∀ j, op.extends = some j → j < 64 * s'.size := by
  have unextended : ∀ j, (none : Option Nat) = some j → j < 64 * s.size := by
    intro j impossible
    cases impossible
  cases op with
  | set j =>
      obtain ⟨t, written, below, reached, members⟩ := set_meets inside meets
      refine ⟨t, by rw [apply, written]; rfl, members, below, ?_⟩
      rintro _ ⟨⟩
      omega
  | testSet j =>
      obtain ⟨t, tested, below, reached, members⟩ := testSet_meets inside meets
      refine ⟨t, ?_, members, below, ?_⟩
      · rw [apply, tested]
        simp [finiteSet]
      · rintro _ ⟨⟩
        omega
  | reset =>
      refine ⟨s.reset, rfl, ?_, ?_, unextended⟩
      · ext i
        simp only [mem_members, isSet_iff, reset, finiteSet, Finset.notMem_empty, iff_false,
          not_and]
        intro first
        simp [Nat.le_zero.mp first]
      · exact Nat.zero_lt_of_lt inside
  | flip upto =>
      obtain ⟨t, flipped, below, reached, members⟩ := flip_meets inside meets.1 meets.2
      refine ⟨t, by rw [apply, flipped]; rfl, members, below, ?_⟩
      rintro _ ⟨⟩
      omega
  | next j =>
      refine ⟨s, ?_, rfl, inside, unextended⟩
      rw [apply, finiteSet, firstFrom_eq (next_isNext j)]
  | prev j =>
      refine ⟨s, ?_, rfl, inside, unextended⟩
      rw [apply, finiteSet, lastBelow_eq (prev_isPrev j)]

/-- An operation that acts as on the finite set of the members meets the condition. -/
theorem meets_of_apply (inside : s.last < s.size) {s' : SetBits}
    (applied : s.apply heap op = some ((finiteSet s.members op).1, s'))
    (members : s'.members = (finiteSet s.members op).2) : MeetsBits heap s op := by
  cases op with
  | set j =>
      rw [apply, Option.map_eq_some_iff] at applied
      obtain ⟨⟨isFound, t⟩, written, same⟩ := applied
      cases same
      exact fits_of_set inside written
  | testSet j =>
      rw [apply, Option.map_eq_some_iff] at applied
      obtain ⟨⟨isFound, t⟩, tested, same⟩ := applied
      cases same
      exact fits_of_testSet inside tested members
  | flip upto =>
      rw [apply, Option.map_eq_some_iff] at applied
      obtain ⟨⟨isFound, t⟩, flipped, same⟩ := applied
      cases same
      exact meets_of_flip inside flipped members
  | reset => trivial
  | next j => trivial
  | prev j => trivial

/-- The bits have the members of a finite set inside their allocation, and the loops list them. -/
structure Refines (s : SetBits) (t : Finset Nat) : Prop where
  inside : s.last < s.size
  members : s.members = t
  ascending : ∀ fuel, t.card < fuel → s.nextLoop fuel = t.sort (· ≤ ·)
  descending : ∀ count fuel, t.card < fuel →
    s.prevLoop count fuel = (t.filter (· < count)).sort (· ≥ ·)

theorem refines_members (inside : s.last < s.size) : Refines s s.members :=
  ⟨inside, rfl, fun _ => nextLoop_eq_sort, fun _ _ => prevLoop_eq_sort⟩

/-- A run still has bits, and they refine the finite set. -/
def RefinesRun (s : Option SetBits) (t : Finset Nat) : Prop :=
  ∃ bits, s = some bits ∧ Refines bits t

/-- The condition on a step of a run. -/
def MeetsRun (heap : Nat → Bool) (s : Option SetBits) (op : Op) : Prop :=
  ∃ bits, s = some bits ∧ MeetsBits heap bits op

/-- An operation that extends the bits leaves its offset inside the allocation. -/
def Extends (heap : Nat → Bool) (s : Option SetBits) (op : Op) : Prop :=
  ∃ bits, (observeBits heap s op).2 = some bits ∧ ∀ j, op.extends = some j → j < 64 * bits.size

theorem observeBits_keep {bits : Option SetBits} (refines : RefinesRun bits t)
    (meets : MeetsRun heap bits op) :
    RefinesRun (observeBits heap bits op).2 (observeSet t op).2 ∧
      (observeBits heap bits op).1 = (observeSet t op).1 ∧ Extends heap bits op := by
  obtain ⟨s, rfl, refined⟩ := refines
  obtain ⟨_, ⟨⟩, condition⟩ := meets
  obtain ⟨s', applied, members, inside, room⟩ := apply_meets refined.inside condition
  rw [refined.members] at applied members
  have observed : observeBits heap (some s) op =
      (some ((finiteSet t op).1, s'.members), some s') := by
    rw [observeBits, applied]
  rw [Extends, observed]
  refine ⟨⟨s', rfl, ?_⟩, ?_, s', rfl, room⟩
  · rw [observeSet, ← members]
    exact refines_members inside
  · rw [members, observeSet]

theorem observeBits_eq_iff {bits : Option SetBits} (refines : RefinesRun bits t) :
    (observeBits heap bits op).1 = (observeSet t op).1 ↔ MeetsRun heap bits op := by
  apply Iff.intro
  · intro same
    obtain ⟨s, rfl, refined⟩ := refines
    refine ⟨s, rfl, ?_⟩
    cases applied : s.apply heap op with
    | none =>
        rw [observeBits, applied] at same
        cases same
    | some result =>
        rw [observeBits, applied] at same
        have equal := Option.some.inj same
        rw [← refined.members] at equal
        apply meets_of_apply refined.inside
        · rw [applied, ← congrArg Prod.fst equal]
        · exact congrArg Prod.snd equal
  · intro meets
    exact (observeBits_keep refines meets).2.1

theorem refines_init (memory : Nat → BitVec 64) : Refines (init memory) ∅ := by
  have empty : (init memory).members = ∅ := by
    ext i
    simp only [mem_members, isSet_iff, init, Finset.notMem_empty, iff_false, not_and]
    intro first
    simp [Nat.le_zero.mp first]
  rw [← empty]
  exact refines_members (show 0 < 16 by decide)

/-- The answers and the members of a run are those of a finite set exactly where every step meets
the condition, and then every extended offset is inside the allocation. -/
theorem setBits_exact (heap : Nat → Bool) (memory : Nat → BitVec 64) (ops : List Op) :
    ((run (observeBits heap) (some (init memory)) ops).1 = (run observeSet ∅ ops).1 ∧
        RefinesRun (run (observeBits heap) (some (init memory)) ops).2 (run observeSet ∅ ops).2 ↔
      Along (observeBits heap) (MeetsRun heap) (some (init memory)) ops) ∧
    (Along (observeBits heap) (MeetsRun heap) (some (init memory)) ops →
      Along (observeBits heap) (Extends heap) (some (init memory)) ops) := by
  have start : RefinesRun (some (init memory)) ∅ := ⟨_, rfl, refines_init memory⟩
  apply And.intro
  · exact @outputs_eq_iff _ _ _ _ (observeBits heap) observeSet RefinesRun (MeetsRun heap)
      (fun _ => True) (fun s t i _ refines => observeBits_eq_iff refines)
      (fun s t i _ refines meets => (observeBits_keep refines meets).1) _ _ ops (fun _ _ => trivial)
      start
  · intro good
    exact @along_of_inv _ _ _ (observeBits heap) _ _ (fun bits => ∃ t, RefinesRun bits t) _
      (fun s i refines meets => ⟨_, (observeBits_keep refines.choose_spec meets).1⟩)
      (fun s i refines meets => (observeBits_keep refines.choose_spec meets).2.2) _ ⟨∅, start⟩ good

/-- The first offset behind the static bits needs a word that is a power of two. -/
theorem not_setBits_exact :
    (run (observeBits fun _ => true) (some (init fun _ => 0#64)) [.set 1024]).1 ≠
      (run observeSet ∅ [.set 1024]).1 := by
  have outside : (init fun _ => 0#64).set (fun _ => true) 1024 = none := by
    simp [set, extend, alloc, allocSize, clearWords, init]
  simp [observeBits, observeSet, apply, outside]

end Run

end Raids.SetBits
