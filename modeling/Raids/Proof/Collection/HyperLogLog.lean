import Mathlib.Data.Nat.Size
import Raids.Construction.Collection.HyperLogLog

namespace Raids.Hll
open Window

section Field

/-- The six bits of a register. -/
def register (mem : Memory) (i : Nat) : BitVec 16 :=
  ((load mem 2 (i * lzBits / 8) : BitVec 16) >>> (i * lzBits % 8)) &&& lzMask

/-- A register is replaced in its window. -/
def splice (mem : Memory) (i : Nat) (w : BitVec 16) : Memory :=
  store mem 2 (i * lzBits / 8)
    ((~~~(lzMask <<< (i * lzBits % 8)) &&& (load mem 2 (i * lzBits / 8) : BitVec 16)) |||
      (w <<< (i * lzBits % 8)))

/-- The mask has the low six bits. -/
theorem getLsbD_lzMask (j : Nat) : lzMask.getLsbD j = decide (j < lzBits) := by
  by_cases low : j < 16
  · have all : ∀ j < 16, lzMask.getLsbD j = decide (j < lzBits) := by decide
    exact all j low
  · rw [BitVec.getLsbD_of_ge _ _ (by omega)]
    have high : ¬j < lzBits := by
      rw [lzBits]
      omega
    exact (decide_eq_false high).symm

/-- A register has the bits of its place. -/
theorem getLsbD_register (mem : Memory) (i j : Nat) :
    (register mem i).getLsbD j = (decide (j < lzBits) && Window.bit mem (i * lzBits + j)) := by
  rw [register, BitVec.getLsbD_and, getLsbD_lzMask, BitVec.getLsbD_ushiftRight, getLsbD_load]
  by_cases low : j < lzBits
  · rw [lzBits] at low ⊢
    have inside : i * 6 % 8 + j < 8 * 2 := by omega
    rw [decide_eq_true low, decide_eq_true inside, Bool.and_true, Bool.true_and, Bool.true_and,
      show 8 * (i * 6 / 8) + (i * 6 % 8 + j) = i * 6 + j by omega]
  · rw [decide_eq_false low, Bool.and_false, Bool.false_and]

/-- A register is below its mask. -/
theorem register_lt (mem : Memory) (i : Nat) : (register mem i).toNat < 64 := by
  have low : (register mem i).toNat ≤ lzMask.toNat := by
    rw [register, BitVec.toNat_and]
    exact Nat.and_le_right
  have mask : lzMask.toNat = 63 := rfl
  omega

theorem getLsbD_of_lt {w : BitVec 16} (small : w.toNat < 64) {j : Nat} (high : lzBits ≤ j) :
    w.getLsbD j = false := by
  rw [BitVec.getLsbD, Nat.testBit_lt_two_pow]
  calc w.toNat < 2 ^ lzBits := small
    _ ≤ 2 ^ j := Nat.pow_le_pow_right (by decide) high

/-- Only the bits of the register are written. -/
theorem bit_splice (mem : Memory) (i : Nat) {w : BitVec 16} (small : w.toNat < 64) (k : Nat) :
    Window.bit (splice mem i w) k =
      if i * lzBits ≤ k ∧ k < i * lzBits + lzBits then w.getLsbD (k - i * lzBits)
      else Window.bit mem k := by
  rw [splice, bit_store]
  by_cases window : 8 * (i * lzBits / 8) ≤ k ∧ k < 8 * (i * lzBits / 8) + 8 * 2
  · rw [if_pos window, BitVec.getLsbD_or, BitVec.getLsbD_and, BitVec.getLsbD_not,
      BitVec.getLsbD_shiftLeft, BitVec.getLsbD_shiftLeft, getLsbD_lzMask, getLsbD_load]
    rw [lzBits] at window ⊢
    have inside : k - 8 * (i * 6 / 8) < 16 := by omega
    rw [decide_eq_true inside, show 8 * (i * 6 / 8) + (k - 8 * (i * 6 / 8)) = k by omega,
      show k - 8 * (i * 6 / 8) - i * 6 % 8 = k - i * 6 by omega]
    by_cases field : i * 6 ≤ k ∧ k < i * 6 + 6
    · have notBefore : ¬k - 8 * (i * 6 / 8) < i * 6 % 8 := by omega
      have isField : k - i * 6 < 6 := by omega
      simp [field, notBefore, isField]
    · rw [if_neg field]
      by_cases before : k - 8 * (i * 6 / 8) < i * 6 % 8
      · simp [before]
      · have behind : ¬k - i * 6 < 6 := by omega
        have noBit : w.getLsbD (k - i * 6) = false := getLsbD_of_lt small (by rw [lzBits]; omega)
        simp [before, behind, noBit]
  · rw [if_neg window, if_neg]
    rw [lzBits] at window ⊢
    omega

/-- The register that is replaced has its new value, and all others have their old ones. -/
theorem register_splice (mem : Memory) (i j : Nat) {w : BitVec 16} (small : w.toNat < 64) :
    register (splice mem i w) j = if j = i then w else register mem j := by
  apply BitVec.eq_of_getLsbD_eq
  intro b _
  rw [getLsbD_register, bit_splice mem i small]
  by_cases low : b < lzBits
  · rw [decide_eq_true low, Bool.true_and]
    by_cases same : j = i
    · rw [if_pos same, same, if_pos (by omega), Nat.add_sub_cancel_left]
    · have apart : ¬(i * lzBits ≤ j * lzBits + b ∧ j * lzBits + b < i * lzBits + lzBits) := by
        rw [lzBits] at low ⊢
        omega
      rw [if_neg same, if_neg apart, getLsbD_register, decide_eq_true low, Bool.true_and]
  · rw [decide_eq_false low, Bool.false_and]
    by_cases same : j = i
    · rw [if_pos same, getLsbD_of_lt small (by omega)]
    · rw [if_neg same, getLsbD_register, decide_eq_false low, Bool.false_and]

end Field

section Raise

variable {D : Type} [Add D] [Sub D] {htBits : Nat} {lib : HllLib D} {x : HyperLogLog D}

/-- A register is raised to a larger value. -/
def raise (lib : HllLib D) (x : HyperLogLog D) (i : Nat) (w : BitVec 16) : HyperLogLog D :=
  if register x.ht i < w then
    { popcnt := if register x.ht i = 0 then x.popcnt + 1 else x.popcnt
      sum := x.sum + (lib.lzSum w.toNat - lib.lzSum (register x.ht i).toNat)
      ht := splice x.ht i w }
  else x

/-- The number of the registers that are not zero. -/
def used (htBits : Nat) (mem : Memory) : Nat :=
  ((Finset.range (htsz htBits)).filter fun i => register mem i ≠ 0).card

/-- The counted registers are those that are used. -/
def HyperLogLog.Counts (htBits : Nat) (x : HyperLogLog D) : Prop := x.popcnt = used htBits x.ht

/-- A raised register is the maximum, and the others stay. -/
theorem register_raise (i j : Nat) {w : BitVec 16} (small : w.toNat < 64) :
    (register (raise lib x i w).ht j).toNat =
      if j = i then max (register x.ht i).toNat w.toNat else (register x.ht j).toNat := by
  rw [raise]
  by_cases larger : register x.ht i < w
  · rw [if_pos larger]
    dsimp only
    rw [register_splice _ _ _ small]
    by_cases same : j = i
    · rw [if_pos same, if_pos same]
      have low := BitVec.lt_def.mp larger
      omega
    · rw [if_neg same, if_neg same]
  · rw [if_neg larger]
    by_cases same : j = i
    · have high : w.toNat ≤ (register x.ht i).toNat := by
        rw [BitVec.lt_def] at larger
        omega
      rw [if_pos same, same]
      omega
    · rw [if_neg same]

/-- All bits but those of the register stay. -/
theorem bit_raise (i k : Nat) {w : BitVec 16} (small : w.toNat < 64)
    (outside : ¬(i * lzBits ≤ k ∧ k < i * lzBits + lzBits)) :
    Window.bit (raise lib x i w).ht k = Window.bit x.ht k := by
  rw [raise]
  by_cases larger : register x.ht i < w
  · rw [if_pos larger]
    dsimp only
    rw [bit_splice _ _ small, if_neg outside]
  · rw [if_neg larger]

/-- A register that is raised from zero is one more. -/
theorem used_splice (mem : Memory) {i : Nat} (inside : i < htsz htBits) {w : BitVec 16}
    (small : w.toNat < 64) (positive : w ≠ 0) :
    used htBits (splice mem i w) =
      if register mem i = 0 then used htBits mem + 1 else used htBits mem := by
  have others : ∀ j, register (splice mem i w) j ≠ 0 ↔ j = i ∨ register mem j ≠ 0 := by
    intro j
    rw [register_splice _ _ _ small]
    by_cases same : j = i
    · rw [if_pos same]
      exact iff_of_true positive (Or.inl same)
    · rw [if_neg same]
      exact ⟨Or.inr, fun either => either.resolve_left same⟩
  have filtered : ((Finset.range (htsz htBits)).filter fun j => register (splice mem i w) j ≠ 0) =
      insert i ((Finset.range (htsz htBits)).filter fun j => register mem j ≠ 0) := by
    ext j
    rw [Finset.mem_filter, Finset.mem_insert, Finset.mem_filter, others, Finset.mem_range]
    constructor
    · rintro ⟨low, same | used⟩
      · exact Or.inl same
      · exact Or.inr ⟨low, used⟩
    · rintro (rfl | ⟨low, used⟩)
      · exact ⟨inside, Or.inl rfl⟩
      · exact ⟨low, Or.inr used⟩
  rw [used, filtered]
  by_cases zero : register mem i = 0
  · rw [if_pos zero, Finset.card_insert_of_notMem, used]
    rw [Finset.mem_filter]
    exact fun both => both.2 zero
  · rw [if_neg zero, Finset.insert_eq_of_mem, used]
    rw [Finset.mem_filter, Finset.mem_range]
    exact ⟨inside, zero⟩

theorem counts_raise (counts : x.Counts htBits) {i : Nat} (inside : i < htsz htBits)
    {w : BitVec 16} (small : w.toNat < 64) : (raise lib x i w).Counts htBits := by
  rw [raise]
  by_cases larger : register x.ht i < w
  · have positive : w ≠ 0 := by
      rintro rfl
      exact absurd (BitVec.lt_def.mp larger) (Nat.not_lt_zero _)
    rw [if_pos larger, HyperLogLog.Counts]
    dsimp only
    rw [used_splice _ inside small positive, counts]
  · rw [if_neg larger]
    exact counts

end Raise

section Rank

variable {D : Type} {htBits : Nat} {lib : HllLib D} {x : HyperLogLog D}

/-- The word has this many leading zeros. -/
structure HllLib.Works (lib : HllLib D) : Prop where
  clzl_le : ∀ word, lib.clzl word ≤ 64
  le_clzl_iff : ∀ word, ∀ k ≤ 64, k ≤ lib.clzl word ↔ word.toNat < 2 ^ (64 - k)

/-- The register of a hash. -/
def index (htBits : Nat) (h : BitVec 64) : Nat := h.toNat % htsz htBits

/-- The rank of a hash counts the leading zeros in front of its bits for the registers. -/
def rank (htBits : Nat) (lib : HllLib D) (h : BitVec 64) : Nat :=
  lib.clzl (lzwd htBits h) + 1 - 2 * htBits

theorem index_lt (htBits : Nat) (h : BitVec 64) : index htBits h < htsz htBits :=
  Nat.mod_lt _ (Nat.two_pow_pos htBits)

/-- The low bits of a word. -/
theorem and_mask (h : BitVec 64) {n : Nat} (small : n ≤ 64) :
    (h &&& BitVec.ofNat 64 (2 ^ n - 1)).toNat = h.toNat % 2 ^ n := by
  have mask : 2 ^ n - 1 < 2 ^ 64 := by
    have power := Nat.pow_le_pow_right (n := 2) (by decide) small
    have positive := Nat.two_pow_pos n
    omega
  rw [BitVec.toNat_and, BitVec.toNat_ofNat, Nat.mod_eq_of_lt mask, Nat.and_two_pow_sub_one_eq_mod]

theorem position_eq (few : htBits ≤ 29) (h : BitVec 64) :
    position htBits h = index htBits h * lzBits := by
  have inside := index_lt htBits h
  have power := Nat.pow_le_pow_right (n := 2) (by decide) few
  rw [position, htsz, and_mask h (by omega), ← htsz, ← index, Nat.mod_eq_of_lt]
  rw [htsz] at inside
  rw [lzBits]
  omega

/-- A rank fits in a register. -/
theorem rank_bounds (works : lib.Works) (some : 1 ≤ htBits) (few : htBits ≤ 29) (h : BitVec 64) :
    1 ≤ rank htBits lib h ∧ rank htBits lib h < 64 ∧ 2 * htBits ≤ lib.clzl (lzwd htBits h) := by
  have low : (lzwd htBits h).toNat < 2 ^ (64 - 2 * htBits) := by
    rw [lzwd, BitVec.toNat_ushiftRight, and_mask h (by omega), Nat.shiftRight_eq_div_pow]
    rw [Nat.div_lt_iff_lt_mul (Nat.two_pow_pos _), ← pow_add,
      show 64 - 2 * htBits + htBits = 64 - htBits by omega]
    exact Nat.mod_lt _ (Nat.two_pow_pos _)
  have zeros := (works.le_clzl_iff (lzwd htBits h) (2 * htBits) (by omega)).mpr low
  have bound := works.clzl_le (lzwd htBits h)
  rw [rank]
  omega

theorem leadingZeros_eq (works : lib.Works) (some : 1 ≤ htBits) (few : htBits ≤ 29)
    (h : BitVec 64) : (leadingZeros htBits lib h).toNat = rank htBits lib h := by
  obtain ⟨-, -, zeros⟩ := rank_bounds works some few h
  have bound := works.clzl_le (lzwd htBits h)
  rw [leadingZeros, BitVec.toNat_sub, BitVec.toNat_ofNat, BitVec.toNat_ofNat, rank]
  omega

/-- A hash is tested against its register. -/
theorem test_eq (few : htBits ≤ 29) (h : BitVec 64) :
    test htBits lib x h =
      decide (leadingZeros htBits lib h ≤ register x.ht (index htBits h)) := by
  rw [test, position_eq few]
  rfl

/-- A hash raises its register to its rank. -/
theorem add_eq [Add D] [Sub D] (few : htBits ≤ 29) (h : BitVec 64) :
    add htBits lib x h =
      (if register x.ht (index htBits h) < leadingZeros htBits lib h then 1 else 0,
        raise lib x (index htBits h) (leadingZeros htBits lib h)) := by
  rw [add, position_eq few]
  show (if register x.ht (index htBits h) = (if leadingZeros htBits lib h <
      register x.ht (index htBits h) then register x.ht (index htBits h)
      else leadingZeros htBits lib h) then (0, x) else
    (1,
      { popcnt := if register x.ht (index htBits h) = 0 then x.popcnt + 1 else x.popcnt
        sum := x.sum + (lib.lzSum (if leadingZeros htBits lib h < register x.ht (index htBits h)
          then register x.ht (index htBits h) else leadingZeros htBits lib h).toNat -
            lib.lzSum (register x.ht (index htBits h)).toNat)
        ht := splice x.ht (index htBits h) (if leadingZeros htBits lib h <
          register x.ht (index htBits h) then register x.ht (index htBits h)
          else leadingZeros htBits lib h) })) = _
  rw [raise]
  by_cases larger : register x.ht (index htBits h) < leadingZeros htBits lib h
  · have notAbove : ¬leadingZeros htBits lib h < register x.ht (index htBits h) := by
      rw [BitVec.lt_def] at larger ⊢
      omega
    have differ : register x.ht (index htBits h) ≠ leadingZeros htBits lib h := by
      intro same
      rw [same] at larger
      exact absurd larger (BitVec.lt_irrefl _)
    rw [if_pos larger, if_pos larger, if_neg notAbove, if_neg differ]
  · have keeps : register x.ht (index htBits h) = (if leadingZeros htBits lib h <
        register x.ht (index htBits h) then register x.ht (index htBits h)
        else leadingZeros htBits lib h) := by
      by_cases above : leadingZeros htBits lib h < register x.ht (index htBits h)
      · rw [if_pos above]
      · rw [if_neg above]
        apply BitVec.eq_of_toNat_eq
        rw [BitVec.lt_def] at larger above
        omega
    rw [if_pos keeps, if_neg larger, if_neg larger]

end Rank

section Merge

variable {D : Type} [Add D] [Sub D] {htBits : Nat} {lib : HllLib D}

/-- The bits of a shifted word are those from a register on. -/
theorem getLsbD_word (mem : Memory) (i j : Nat) (inside : j < 64 - i * lzBits % 8) :
    ((load mem 8 (i * lzBits / 8) : BitVec 64) >>> (i * lzBits % 8)).getLsbD j =
      Window.bit mem (i * lzBits + j) := by
  have low : i * lzBits % 8 + j < 8 * 8 := by omega
  rw [BitVec.getLsbD_ushiftRight, getLsbD_load, decide_eq_true low, Bool.true_and,
    show 8 * (i * lzBits / 8) + (i * lzBits % 8 + j) = i * lzBits + j by omega]

/-- The low bits of a word that has a register left are the register. -/
theorem field_eq {mem : Memory} {i bitsleft : Nat} {word : BitVec 64} (left : lzBits ≤ bitsleft)
    (bits : ∀ j < bitsleft, word.getLsbD j = Window.bit mem (i * lzBits + j)) :
    word.setWidth 16 &&& lzMask = register mem i := by
  apply BitVec.eq_of_getLsbD_eq
  intro j inside
  rw [BitVec.getLsbD_and, getLsbD_lzMask, BitVec.getLsbD_setWidth, getLsbD_register,
    decide_eq_true inside, Bool.true_and]
  by_cases low : j < lzBits
  · rw [decide_eq_true low, Bool.and_true, Bool.true_and, bits j (by omega)]
  · rw [decide_eq_false low, Bool.and_false, Bool.false_and]

/-- The loop raises one register after the other. -/
theorem mergeLoop_eq (ht : Memory) (left i bitsleft : Nat) (hbits mbits : BitVec 64)
    (this : HyperLogLog D)
    (hBits : ∀ j < bitsleft, hbits.getLsbD j = Window.bit ht (i * lzBits + j))
    (mBits : ∀ j < bitsleft, mbits.getLsbD j = Window.bit this.ht (i * lzBits + j)) :
    mergeLoop lib ht left (i * lzBits) hbits mbits bitsleft this =
      (List.range' i left).foldl (fun x j => raise lib x j (register ht j)) this := by
  induction left generalizing i bitsleft hbits mbits this with
  | zero => rfl
  | succ left ih =>
      rw [mergeLoop, List.range'_succ, List.foldl_cons]
      dsimp only
      -- what the words and their number of bits are behind a load
      obtain ⟨hbits', isHbits, mbits', isMbits, bitsleft', isBitsleft, hBits', mBits', enough⟩ :
          ∃ hbits', (if bitsleft < lzBits then
              (load ht 8 (i * lzBits / 8) : BitVec 64) >>> (i * lzBits % 8) else hbits) = hbits' ∧
          ∃ mbits', (if bitsleft < lzBits then
              (load this.ht 8 (i * lzBits / 8) : BitVec 64) >>> (i * lzBits % 8) else mbits) =
                mbits' ∧
          ∃ bitsleft', (if bitsleft < lzBits then 64 - i * lzBits % 8 else bitsleft) = bitsleft' ∧
            (∀ j < bitsleft', hbits'.getLsbD j = Window.bit ht (i * lzBits + j)) ∧
            (∀ j < bitsleft', mbits'.getLsbD j = Window.bit this.ht (i * lzBits + j)) ∧
            lzBits ≤ bitsleft' := by
        by_cases loads : bitsleft < lzBits
        · rw [if_pos loads, if_pos loads, if_pos loads]
          refine ⟨_, rfl, _, rfl, _, rfl, getLsbD_word ht i, getLsbD_word this.ht i, ?_⟩
          rw [lzBits]
          omega
        · rw [if_neg loads, if_neg loads, if_neg loads]
          exact ⟨_, rfl, _, rfl, _, rfl, hBits, mBits, by omega⟩
      rw [isHbits, isMbits, isBitsleft, field_eq enough hBits', field_eq enough mBits']
      have next : i * lzBits + lzBits = (i + 1) * lzBits := by ring
      have raised : (if register this.ht i < register ht i then
          ({ popcnt := if register this.ht i = 0 then this.popcnt + 1 else this.popcnt
             sum := this.sum + (lib.lzSum (register ht i).toNat -
               lib.lzSum (register this.ht i).toNat)
             ht := splice this.ht i (register ht i) } : HyperLogLog D) else this) =
          raise lib this i (register ht i) := rfl
      rw [next]
      refine (congrArg _ raised).trans (ih (i + 1) (bitsleft' - lzBits) _ _ _ ?_ ?_)
      · intro j inside
        rw [BitVec.getLsbD_ushiftRight, hBits' _ (by omega), ← next, Nat.add_assoc]
      · intro j inside
        rw [BitVec.getLsbD_ushiftRight, mBits' _ (by omega), ← next, Nat.add_assoc,
          bit_raise _ _ (register_lt ht i) (by omega)]

/-- A merge raises each register to the one of the other counter. -/
theorem merge_eq (this hll : HyperLogLog D) : merge htBits lib this hll =
    (List.range (htsz htBits)).foldl (fun x j => raise lib x j (register hll.ht j)) this := by
  rw [merge, List.range_eq_range']
  exact mergeLoop_eq hll.ht (htsz htBits) 0 0 0 0 this
    (fun j inside => absurd inside (Nat.not_lt_zero j))
    (fun j inside => absurd inside (Nat.not_lt_zero j))

/-- The registers that are raised one after the other. -/
theorem register_foldl_raise (ht : Memory) (js : List Nat) (x : HyperLogLog D) (i : Nat) :
    (register (js.foldl (fun x j => raise lib x j (register ht j)) x).ht i).toNat =
      if i ∈ js then max (register x.ht i).toNat (register ht i).toNat
      else (register x.ht i).toNat := by
  induction js generalizing x with
  | nil => rw [List.foldl_nil, if_neg List.not_mem_nil]
  | cons j js ih =>
      rw [List.foldl_cons, ih, register_raise _ _ (register_lt ht j)]
      by_cases later : i ∈ js
      · rw [if_pos later, if_pos (List.mem_cons_of_mem j later)]
        by_cases same : i = j
        · rw [if_pos same, same, max_assoc, max_self]
        · rw [if_neg same]
      · rw [if_neg later]
        by_cases same : i = j
        · rw [if_pos same, same, if_pos List.mem_cons_self]
        · rw [if_neg same, if_neg]
          exact fun member => (List.mem_cons.mp member).elim same later

/-- A merge is the maximum of the registers. -/
theorem register_merge (this hll : HyperLogLog D) {i : Nat} (inside : i < htsz htBits) :
    (register (merge htBits lib this hll).ht i).toNat =
      max (register this.ht i).toNat (register hll.ht i).toNat := by
  rw [merge_eq, register_foldl_raise, if_pos (List.mem_range.mpr inside)]

/-- What stands behind the registers stays. -/
theorem bit_merge (this hll : HyperLogLog D) {k : Nat} (behind : htsz htBits * lzBits ≤ k) :
    Window.bit (merge htBits lib this hll).ht k = Window.bit this.ht k := by
  have stays : ∀ (js : List Nat) (x : HyperLogLog D), (∀ j ∈ js, j < htsz htBits) →
      Window.bit (js.foldl (fun x j => raise lib x j (register hll.ht j)) x).ht k =
        Window.bit x.ht k := by
    intro js
    induction js with
    | nil => exact fun _ _ => rfl
    | cons j js ih =>
        intro x all
        have inside := all j List.mem_cons_self
        have below : ¬(j * lzBits ≤ k ∧ k < j * lzBits + lzBits) := by
          rw [lzBits] at behind ⊢
          omega
        rw [List.foldl_cons, ih _ fun j' member => all j' (List.mem_cons_of_mem j member),
          bit_raise _ _ (register_lt hll.ht j) below]
  rw [merge_eq]
  exact stays _ this fun j member => List.mem_range.mp member

/-- A merge counts the registers that are used. -/
theorem counts_merge {this : HyperLogLog D} (counts : this.Counts htBits) (hll : HyperLogLog D) :
    (merge htBits lib this hll).Counts htBits := by
  have stays : ∀ (js : List Nat) (x : HyperLogLog D), (∀ j ∈ js, j < htsz htBits) →
      x.Counts htBits →
      (js.foldl (fun x j => raise lib x j (register hll.ht j)) x).Counts htBits := by
    intro js
    induction js with
    | nil => exact fun _ _ counts => counts
    | cons j js ih =>
        intro x all counts
        exact ih _ (fun j' member => all j' (List.mem_cons_of_mem j member))
          (counts_raise counts (all j List.mem_cons_self) (register_lt hll.ht j))
  rw [merge_eq]
  exact stays _ this (fun j member => List.mem_range.mp member) counts

end Merge

section Programs

variable {D : Type} [Zero D] [Add D] [Sub D] {htBits : Nat} {lib : HllLib D}

/-- A counter is built by additions and by merges of other counters. -/
inductive Program where
  | init (memory : Memory)
  | add (program : Program) (h : BitVec 64)
  | merge (program hll : Program)

/-- The counter that a program builds. -/
def Program.eval (htBits : Nat) (lib : HllLib D) : Program → HyperLogLog D
  | .init memory => Hll.init htBits memory
  | .add program h => (Hll.add htBits lib (program.eval htBits lib) h).2
  | .merge program hll => Hll.merge htBits lib (program.eval htBits lib) (hll.eval htBits lib)

/-- The hashes that were added, by the program or by a merged one. -/
def Program.added : Program → List (BitVec 64)
  | .init _ => []
  | .add program h => h :: program.added
  | .merge program hll => hll.added ++ program.added

/-- The maximum rank of the hashes of a register. -/
def maxRank (htBits : Nat) (lib : HllLib D) (hs : List (BitVec 64)) (i : Nat) : Nat :=
  ((hs.filter fun h => index htBits h = i).map (rank htBits lib)).foldr max 0

/-- The registers and the number of the used ones are the same. -/
structure Same (htBits : Nat) (x y : HyperLogLog D) : Prop where
  registers : ∀ i < htsz htBits, register x.ht i = register y.ht i
  popcnt : x.popcnt = y.popcnt

/-- The counters are a join-semilattice of their registers. -/
structure RegistersJoin (htBits : Nat) (lib : HllLib D) : Prop where
  maximum : ∀ (program : Program) (i : Nat), i < htsz htBits →
    (register (program.eval htBits lib).ht i).toNat = maxRank htBits lib program.added i
  counts : ∀ program : Program, (program.eval htBits lib).Counts htBits
  neighbours : ∀ (x : HyperLogLog D) (h : BitVec 64) (k : Nat),
    ¬(index htBits h * lzBits ≤ k ∧ k < index htBits h * lzBits + lzBits) →
      Window.bit (add htBits lib x h).2.ht k = Window.bit x.ht k
  behind : ∀ (x y : HyperLogLog D) (k : Nat), htsz htBits * lzBits ≤ k →
    Window.bit (merge htBits lib x y).ht k = Window.bit x.ht k
  merged : ∀ (x y : HyperLogLog D) (i : Nat), i < htsz htBits →
    (register (merge htBits lib x y).ht i).toNat =
      max (register x.ht i).toNat (register y.ht i).toNat
  comm : ∀ p q : Program,
    Same htBits ((p.merge q).eval htBits lib) ((q.merge p).eval htBits lib)
  assoc : ∀ p q r : Program,
    Same htBits (((p.merge q).merge r).eval htBits lib) ((p.merge (q.merge r)).eval htBits lib)
  idem : ∀ p : Program, Same htBits ((p.merge p).eval htBits lib) (p.eval htBits lib)
  union : ∀ p q : Program, Same htBits ((p.merge q).eval htBits lib)
    ((q.added.foldr (fun h program => program.add h) p).eval htBits lib)
  reports : ∀ (x : HyperLogLog D) (h : BitVec 64), (add htBits lib x h).1 =
    if (register x.ht (index htBits h)).toNat <
      (register (add htBits lib x h).2.ht (index htBits h)).toNat then 1 else 0
  tested : ∀ (x : HyperLogLog D) (h : BitVec 64), test htBits lib (add htBits lib x h).2 h
  staysAdded : ∀ (x : HyperLogLog D) (h h' : BitVec 64), test htBits lib x h →
    test htBits lib (add htBits lib x h').2 h
  staysMerged : ∀ (x y : HyperLogLog D) (h : BitVec 64),
    test htBits lib x h ∨ test htBits lib y h → test htBits lib (merge htBits lib x y) h

omit [Zero D] [Add D] [Sub D] in
theorem maxRank_append (first second : List (BitVec 64)) (i : Nat) :
    maxRank htBits lib (first ++ second) i =
      max (maxRank htBits lib first i) (maxRank htBits lib second i) := by
  have folds : ∀ (ranks : List Nat) (n : Nat), ranks.foldr max n = max (ranks.foldr max 0) n := by
    intro ranks n
    induction ranks with
    | nil => rw [List.foldr_nil, List.foldr_nil, Nat.zero_max]
    | cons r ranks ih => rw [List.foldr_cons, List.foldr_cons, ih, max_assoc]
  rw [maxRank, List.filter_append, List.map_append, List.foldr_append, folds]
  rfl

omit [Zero D] [Add D] [Sub D] in
theorem maxRank_cons (h : BitVec 64) (hs : List (BitVec 64)) (i : Nat) :
    maxRank htBits lib (h :: hs) i =
      max (maxRank htBits lib hs i) (if i = index htBits h then rank htBits lib h else 0) := by
  rw [← List.singleton_append, maxRank_append, max_comm]
  congr 1
  by_cases same : index htBits h = i
  · simp [maxRank, same]
  · simp [maxRank, same, Ne.symm same]

omit [Add D] [Sub D] in
/-- A new counter has no registers. -/
theorem register_init (memory : Memory) {i : Nat} (inside : i < htsz htBits) :
    register (init htBits memory : HyperLogLog D).ht i = 0 := by
  apply BitVec.eq_of_getLsbD_eq
  intro b _
  rw [getLsbD_register]
  by_cases low : b < lzBits
  · have cleared : (i * lzBits + b) / 8 < htBytes htBits := by
      rw [htBytes]
      rw [lzBits] at low ⊢
      omega
    have zero : (init htBits memory : HyperLogLog D).ht ((i * lzBits + b) / 8) = 0 :=
      if_pos cleared
    rw [Window.bit, zero]
    simp
  · rw [decide_eq_false low, Bool.false_and]
    simp

omit [Zero D] in
/-- An addition raises the register of its hash. -/
theorem register_add (works : lib.Works) (some : 1 ≤ htBits) (few : htBits ≤ 29)
    (x : HyperLogLog D) (h : BitVec 64) (i : Nat) :
    (register (add htBits lib x h).2.ht i).toNat =
      max (register x.ht i).toNat (if i = index htBits h then rank htBits lib h else 0) := by
  have value := leadingZeros_eq works some few h
  have small := (rank_bounds works some few h).2.1
  rw [add_eq few]
  dsimp only
  rw [register_raise _ _ (by omega), value]
  by_cases same : i = index htBits h
  · rw [if_pos same, if_pos same, same]
  · rw [if_neg same, if_neg same, Nat.max_zero]

/-- The registers of a program are the maxima of the ranks. -/
theorem Program.register_eval (works : lib.Works) (some : 1 ≤ htBits) (few : htBits ≤ 29)
    (program : Program) {i : Nat} (inside : i < htsz htBits) :
    (register (program.eval htBits lib).ht i).toNat = maxRank htBits lib program.added i := by
  induction program with
  | init memory =>
      rw [Program.eval, register_init memory inside]
      rfl
  | add program h ih => rw [Program.eval, register_add works some few, ih, Program.added,
      maxRank_cons]
  | merge program hll ih ih' =>
      rw [Program.eval, register_merge _ _ inside, ih, ih', Program.added, maxRank_append, max_comm]

/-- A program counts the registers that are used. -/
theorem Program.counts_eval (works : lib.Works) (some : 1 ≤ htBits) (few : htBits ≤ 29)
    (program : Program) : (program.eval htBits lib).Counts htBits := by
  induction program with
  | init memory =>
      have none : ((Finset.range (htsz htBits)).filter fun i =>
          register (Hll.init htBits memory : HyperLogLog D).ht i ≠ 0) = ∅ := by
        rw [Finset.filter_eq_empty_iff]
        intro i inside
        rw [not_not]
        exact register_init memory (Finset.mem_range.mp inside)
      rw [Program.eval, HyperLogLog.Counts, used, none]
      rfl
  | add program h ih =>
      have value := leadingZeros_eq works some few h
      have small := (rank_bounds works some few h).2.1
      rw [Program.eval, add_eq few]
      exact counts_raise ih (index_lt htBits h) (by omega)
  | merge program hll ih _ => exact counts_merge ih _

/-- Counters with the same ranks are the same. -/
theorem same_of_ranks (works : lib.Works) (some : 1 ≤ htBits) (few : htBits ≤ 29)
    {p q : Program}
    (ranks : ∀ i, maxRank htBits lib p.added i = maxRank htBits lib q.added i) :
    Same htBits (p.eval htBits lib) (q.eval htBits lib) := by
  have registers : ∀ i < htsz htBits,
      register (p.eval htBits lib).ht i = register (q.eval htBits lib).ht i := by
    intro i inside
    apply BitVec.eq_of_toNat_eq
    rw [p.register_eval works some few inside, q.register_eval works some few inside, ranks]
  refine ⟨registers, ?_⟩
  rw [p.counts_eval works some few, q.counts_eval works some few, used, used]
  congr 1
  apply Finset.filter_congr
  intro i inside
  rw [registers i (Finset.mem_range.mp inside)]

/-- A sequence of additions adds its hashes. -/
theorem added_foldr (hs : List (BitVec 64)) (p : Program) :
    (hs.foldr (fun h program => program.add h) p).added = hs ++ p.added := by
  induction hs with
  | nil => rfl
  | cons h hs ih => rw [List.foldr_cons, Program.added, ih, List.cons_append]

omit [Zero D] [Add D] [Sub D] in
/-- A register that is not below a rank passes its test. -/
theorem test_iff (works : lib.Works) (some : 1 ≤ htBits) (few : htBits ≤ 29)
    (x : HyperLogLog D) (h : BitVec 64) : test htBits lib x h ↔
      rank htBits lib h ≤ (register x.ht (index htBits h)).toNat := by
  rw [test_eq few, decide_eq_true_iff, BitVec.le_def, leadingZeros_eq works some few]

/-- The registers of the counters of up to 2 ^ 29 registers are a join-semilattice. -/
theorem registers_join (works : lib.Works) (some : 1 ≤ htBits) (few : htBits ≤ 29) :
    RegistersJoin htBits lib where
  maximum := fun program _ inside => program.register_eval works some few inside
  counts := fun program => program.counts_eval works some few
  neighbours := by
    intro x h k outside
    have value := leadingZeros_eq works some few h
    have small := (rank_bounds works some few h).2.1
    rw [add_eq few]
    exact bit_raise _ _ (by omega) outside
  behind := fun x y _ => bit_merge x y
  merged := fun x y _ => register_merge x y
  comm := by
    intro p q
    apply same_of_ranks works some few
    intro i
    rw [Program.added, Program.added, maxRank_append, maxRank_append, max_comm]
  assoc := by
    intro p q r
    apply same_of_ranks works some few
    intro i
    simp only [Program.added, List.append_assoc]
  idem := by
    intro p
    apply same_of_ranks works some few
    intro i
    rw [Program.added, maxRank_append, max_self]
  union := by
    intro p q
    apply same_of_ranks works some few
    intro i
    rw [Program.added, added_foldr]
  reports := by
    intro x h
    have value := leadingZeros_eq works some few h
    rw [register_add works some few, if_pos rfl, add_eq few]
    dsimp only
    by_cases larger : register x.ht (index htBits h) < leadingZeros htBits lib h
    · have grows := BitVec.lt_def.mp larger
      rw [if_pos larger, if_pos (by omega)]
    · have stays := mt BitVec.lt_def.mpr larger
      rw [if_neg larger, if_neg (by omega)]
  tested := by
    intro x h
    rw [test_iff works some few, register_add works some few, if_pos rfl]
    exact Nat.le_max_right _ _
  staysAdded := by
    intro x h h' passes
    rw [test_iff works some few] at passes ⊢
    rw [register_add works some few]
    exact passes.trans (Nat.le_max_left _ _)
  staysMerged := by
    intro x y h passes
    rw [test_iff works some few, test_iff works some few] at passes
    rw [test_iff works some few, register_merge x y (index_lt htBits h)]
    omega

end Programs

section Samples

/-- The leading zeros of a word by its size. -/
def sizeLib : HllLib Int := ⟨fun word => 64 - word.toNat.size, fun n => n⟩

theorem sizeLib_works : sizeLib.Works where
  clzl_le := fun word => Nat.sub_le 64 _
  le_clzl_iff := by
    intro word k inside
    have size : word.toNat.size ≤ 64 := Nat.size_le.mpr word.isLt
    rw [← Nat.size_le]
    show k ≤ 64 - word.toNat.size ↔ _
    omega

/-- The counters have 2 ^ 14 registers. -/
theorem registers_join_fourteen : RegistersJoin 14 sizeLib :=
  registers_join sizeLib_works (by decide) (by decide)

end Samples

end Raids.Hll
