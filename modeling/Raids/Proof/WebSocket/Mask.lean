import Raids.Construction.WebSocket.Input
import Raids.Proof.WebSocket.Input

namespace Raids

variable (mask : UInt32)

/-- A payload is masked from a place of the key. -/
def maskFrom (start : Nat) (p : Bytes) : Bytes := p.mapIdx fun i c => c ^^^ maskAt mask (start + i)

theorem length_maskFrom (start : Nat) (p : Bytes) : (maskFrom mask start p).length = p.length := by
  simp [maskFrom]

theorem maskFrom_append (start : Nat) (p q : Bytes) :
    maskFrom mask start (p ++ q) = maskFrom mask start p ++ maskFrom mask (start + p.length) q := by
  rw [maskFrom, List.mapIdx_append, maskFrom, maskFrom]
  congr 1
  apply congrArg (fun f => List.mapIdx f q)
  funext i c
  rw [Nat.add_assoc, Nat.add_comm i]

/-- The mask of a place depends on its rest by four. -/
theorem maskAt_mod (i : Nat) : maskAt mask (i % 4) = maskAt mask i := by
  rw [maskAt, maskAt, Nat.mod_mod]

theorem maskFrom_congr {start start' : Nat} (same : start % 4 = start' % 4) (p : Bytes) :
    maskFrom mask start p = maskFrom mask start' p := by
  rw [maskFrom, maskFrom]
  congr 1
  funext i c
  rw [← maskAt_mod mask (start + i), ← maskAt_mod mask (start' + i), Nat.add_mod, same,
    ← Nat.add_mod]

/-- Two masks of a payload agree when they agree at each of its places. -/
theorem maskFrom_eq_iff {start start' : Nat} (p : Bytes) :
    maskFrom mask start p = maskFrom mask start' p ↔
      ∀ i < p.length, maskAt mask (start + i) = maskAt mask (start' + i) := by
  apply Iff.intro
  · intro same i inside
    have bytes := congrArg (fun q => q[i]?) same
    simpa [maskFrom, inside, UInt8.xor_right_inj] using bytes
  · intro same
    apply List.ext_getElem
    · rw [length_maskFrom, length_maskFrom]
    · intro i first second
      rw [length_maskFrom] at first
      simp [maskFrom, same i first]

/-- The place of the key where a chunk starts. A chunk that starts and ends inside a block is masked
as if it ended the block. -/
def chunkStart (j l : Nat) : Nat := if 0 < j ∧ j + l < 64 then 64 - l else j

/-- The place of the block where the next chunk starts. -/
def chunkNext (j l : Nat) : Nat := if 0 < j ∧ j + l < 64 then 0 else (j + l) % 64

theorem applyMask2_eq {j : Nat} (small : j < 64) (p : Bytes) :
    applyMask2 mask p j = (maskFrom mask (chunkStart j p.length) p, chunkNext j p.length) := by
  have whole : ∀ q : Bytes, applyMask mask q = maskFrom mask 0 q := by
    intro q
    rw [applyMask_eq, maskFrom]
    simp only [Nat.zero_add]
  have block : ∀ {x : Nat} {q : Bytes}, x + q.length ≤ 64 →
      (maskBlock mask (List.replicate x 0 ++ q)).drop x = maskFrom mask x q := by
    intro x q fits
    rw [maskBlock_eq mask (by simpa using fits)]
    have moved := maskFrom_append mask 0 (List.replicate x 0) q
    simp only [maskFrom, Nat.zero_add, List.length_replicate] at moved
    rw [moved, List.drop_left' (by simp)]
    rfl
  by_cases aligned : 0 < j
  · by_cases ends : j + p.length < 64
    · have all : min (64 - j) p.length = p.length := by omega
      have front := @block (64 - p.length) p (by omega)
      simp only [applyMask2, aligned, if_true, all, List.take_length, List.drop_length, front,
        chunkStart, chunkNext, ends, and_self, Nat.sub_self, Nat.zero_mod]
      rw [whole]
      simp [maskFrom]
    · have part : min (64 - j) p.length = 64 - j := by omega
      have front := @block j (p.take (64 - j)) (by rw [List.length_take]; omega)
      have rest := maskFrom_congr mask (show 0 % 4 = (j + (p.take (64 - j)).length) % 4 by
        rw [List.length_take]; omega) (p.drop (64 - j))
      simp only [applyMask2, aligned, if_true, part, show 64 - (64 - j) = j by omega, front, whole,
        rest, ← maskFrom_append, List.take_append_drop, chunkStart, chunkNext, ends, and_false,
        if_false, Prod.mk.injEq, true_and]
      omega
  · obtain rfl : j = 0 := by omega
    simp [applyMask2, whole, chunkStart, chunkNext]

/-- The key bytes that fall on the chunks are the ones of the whole payload. -/
def InStep : Nat → Nat → List Bytes → Prop
  | _, _, [] => True
  | j, t, p :: chunks =>
      (∀ i < p.length, maskAt mask (chunkStart j p.length + i) = maskAt mask (t + i)) ∧
        InStep (chunkNext j p.length) (t + p.length) chunks

theorem chunkNext_lt (j l : Nat) : chunkNext j l < 64 := by
  rw [chunkNext]
  split <;> omega

/-- The chunks give the mask of the payload where their key bytes do. -/
theorem applyMaskChunks_iff {j : Nat} (small : j < 64) (t : Nat) (chunks : List Bytes) :
    (applyMaskChunks mask j chunks).flatten = maskFrom mask t chunks.flatten ↔
      InStep mask j t chunks := by
  induction chunks generalizing j t with
  | nil => simp [applyMaskChunks, InStep, maskFrom]
  | cons p chunks ih =>
      simp only [applyMaskChunks, applyMask2_eq mask small, List.flatten_cons, maskFrom_append,
        InStep, ← maskFrom_eq_iff, ← ih (chunkNext_lt j p.length)]
      apply Iff.intro
      · intro same
        exact List.append_inj same (by rw [length_maskFrom, length_maskFrom])
      · rintro ⟨front, rest⟩
        rw [front, rest]

/-- The chunks of a payload keep their lengths. -/
theorem lengths_applyMaskChunks {j : Nat} (small : j < 64) (chunks : List Bytes) :
    (applyMaskChunks mask j chunks).map List.length = chunks.map List.length := by
  induction chunks generalizing j with
  | nil => rfl
  | cons p chunks ih =>
      simp only [applyMaskChunks, applyMask2_eq mask small, List.map_cons, length_maskFrom,
        ih (chunkNext_lt j p.length)]

/-- Chunks that are masked twice are restored. -/
theorem applyMaskChunks_twice {j : Nat} (small : j < 64) (chunks : List Bytes) :
    applyMaskChunks mask j (applyMaskChunks mask j chunks) = chunks := by
  induction chunks generalizing j with
  | nil => rfl
  | cons p chunks ih =>
      simp only [applyMaskChunks, applyMask2_eq mask small, length_maskFrom,
        ih (chunkNext_lt j p.length), List.cons.injEq, and_true]
      apply List.ext_getElem
      · rw [length_maskFrom, length_maskFrom]
      · intro i first second
        simp [maskFrom, UInt8.xor_assoc]

/-- A chunk that starts and ends inside a block ends a word, or nothing follows it and it is
empty. -/
def Aligned : Nat → List Nat → Prop
  | _, [] => True
  | j, l :: lengths =>
      if 0 < j ∧ j + l < 64 then
        (j + l) % 4 = 0 ∧ Aligned 0 lengths ∨ l = 0 ∧ ∀ l' ∈ lengths, l' = 0
      else Aligned ((j + l) % 64) lengths

/-- Empty chunks have no key bytes. -/
theorem inStep_empty (j t : Nat) {chunks : List Bytes} (empty : ∀ p ∈ chunks, p.length = 0) :
    InStep mask j t chunks := by
  induction chunks generalizing j t with
  | nil => trivial
  | cons p chunks ih =>
      apply And.intro
      · intro i inside
        rw [empty p List.mem_cons_self] at inside
        omega
      · exact ih _ _ fun p member => empty p (List.mem_cons_of_mem _ member)

theorem maskAt_congr {i i' : Nat} (same : i % 4 = i' % 4) : maskAt mask i = maskAt mask i' := by
  rw [← maskAt_mod mask i, same, maskAt_mod]

/-- Aligned chunks are in step for every key. -/
theorem inStep_of_aligned {j t : Nat} (phase : t % 4 = j % 4) {chunks : List Bytes}
    (aligned : Aligned j (chunks.map List.length)) : InStep mask j t chunks := by
  induction chunks generalizing j t with
  | nil => trivial
  | cons p chunks ih =>
      rw [List.map_cons, Aligned] at aligned
      rw [InStep, chunkStart, chunkNext]
      by_cases inside : 0 < j ∧ j + p.length < 64
      · rw [if_pos inside] at aligned ⊢
        obtain ⟨word, rest⟩ | ⟨empty, others⟩ := aligned
        · apply And.intro
          · intro i below
            apply maskAt_congr
            omega
          · rw [if_pos inside]
            exact ih (by omega) rest
        · apply And.intro
          · intro i below
            omega
          · apply inStep_empty
            simpa using others
      · rw [if_neg inside] at aligned ⊢
        apply And.intro
        · intro i below
          apply maskAt_congr
          omega
        · rw [if_neg inside]
          exact ih (by omega) aligned

section Key

variable {mask} (different : ∀ i i', maskAt mask i = maskAt mask i' → i % 4 = i' % 4)
include different

/-- A shifted key fits empty chunks only. -/
theorem empty_of_inStep {t : Nat} (shifted : t % 4 ≠ 0) {chunks : List Bytes}
    (inStep : InStep mask 0 t chunks) : ∀ p ∈ chunks, p.length = 0 := by
  induction chunks generalizing t with
  | nil => simp
  | cons p chunks ih =>
      obtain ⟨here, rest⟩ := inStep
      have empty : p.length = 0 := by
        by_contra some
        have first := different _ _ (here 0 (by omega))
        rw [chunkStart, if_neg (by omega)] at first
        omega
      have next : chunkNext 0 p.length = 0 := by
        rw [chunkNext, if_neg (by omega), empty]
      rw [next, empty, Nat.add_zero] at rest
      simp only [List.forall_mem_cons]
      exact ⟨empty, ih shifted rest⟩

/-- Chunks that are in step for a key of four different bytes are aligned. -/
theorem aligned_of_inStep {j t : Nat} (phase : t % 4 = j % 4) {chunks : List Bytes}
    (inStep : InStep mask j t chunks) : Aligned j (chunks.map List.length) := by
  induction chunks generalizing j t with
  | nil => trivial
  | cons p chunks ih =>
      obtain ⟨here, rest⟩ := inStep
      rw [List.map_cons, Aligned]
      rw [chunkNext] at rest
      by_cases inside : 0 < j ∧ j + p.length < 64
      · rw [if_pos inside] at rest ⊢
        by_cases word : (j + p.length) % 4 = 0
        · exact Or.inl ⟨word, ih (by omega) rest⟩
        · have empty : p.length = 0 := by
            by_contra some
            have first := different _ _ (here 0 (by omega))
            rw [chunkStart, if_pos inside] at first
            omega
          apply Or.inr
          apply And.intro empty
          have others := empty_of_inStep different (by omega) rest
          simpa using others
      · rw [if_neg inside] at rest ⊢
        exact ih (by omega) rest

end Key

/-- The chunks of a payload give its mask in these cases only, whatever the key is, and a second mask
restores them. -/
theorem maskChunks_exact (lengths : List Nat) :
    ((∀ mask chunks, chunks.map List.length = lengths →
        (applyMaskChunks mask 0 chunks).flatten =
          chunks.flatten.mapIdx fun i c => c ^^^ maskAt mask i) ↔ Aligned 0 lengths) ∧
      ∀ mask chunks, chunks.map List.length = lengths →
        ((applyMaskChunks mask 0 chunks).flatten =
            chunks.flatten.mapIdx (fun i c => c ^^^ maskAt mask i) ↔ InStep mask 0 0 chunks) ∧
          applyMaskChunks mask 0 (applyMaskChunks mask 0 chunks) = chunks := by
  have each : ∀ mask chunks, (applyMaskChunks mask 0 chunks).flatten =
      chunks.flatten.mapIdx (fun i c => c ^^^ maskAt mask i) ↔ InStep mask 0 0 chunks := by
    intro mask chunks
    have iff := applyMaskChunks_iff mask (show 0 < 64 by decide) 0 chunks
    simpa only [maskFrom, Nat.zero_add] using iff
  apply And.intro
  · simp only [each]
    apply Iff.intro
    · intro all
      have bytes : ∀ i < 4, maskAt 0x04030201 i = UInt8.ofNat (i + 1) := by decide
      have different : ∀ i i', maskAt 0x04030201 i = maskAt 0x04030201 i' → i % 4 = i' % 4 := by
        intro i i' same
        rw [← maskAt_mod, ← maskAt_mod _ i', bytes _ (by omega), bytes _ (by omega)] at same
        have values := congrArg UInt8.toNat same
        simp only [UInt8.toNat_ofNat'] at values
        omega
      have sizes : (lengths.map fun l => List.replicate l (0 : UInt8)).map List.length =
          lengths := by
        simp [Function.comp_def]
      have inStep := all 0x04030201 _ sizes
      have aligned := aligned_of_inStep different rfl inStep
      rwa [sizes] at aligned
    · rintro aligned mask chunks rfl
      exact inStep_of_aligned mask rfl aligned
  · intro mask chunks _
    exact ⟨each mask chunks, applyMaskChunks_twice mask (by decide) chunks⟩

/-- The second of three single bytes starts and ends inside a block. -/
theorem not_maskChunks_exact :
    (applyMaskChunks 0x04030201 0 [[0], [0], [0]]).flatten ≠
      [0, 0, 0].mapIdx fun i c => c ^^^ maskAt 0x04030201 i := by
  decide

end Raids
