import Mathlib.Data.Nat.Bitwise
import Raids.Proof.Key.Bitcount
import Raids.Construction.Key.Bits

namespace Raids.Key
open LittleEndian

/-- A bit of a part of a string is a bit of the string. -/
theorem bitAt_take_drop (data : Bytes) {off z i : Nat} (inside : i < 8 * z) :
    bitAt ((data.drop off).take z) i = bitAt data (8 * off + i) := by
  have index : (8 * off + i) / 8 = off + i / 8 := by omega
  have rest : (8 * off + i) % 8 = i % 8 := by omega
  rw [bitAt, bitAt, index, rest, List.getD_eq_getElem?_getD, List.getD_eq_getElem?_getD,
    List.getElem?_take_of_lt (by omega), List.getElem?_drop]

/-- The mask of a bit. -/
theorem toNat_mask : ∀ k < 8, ((1 : UInt8) <<< k.toUInt8).toNat = 2 ^ k := by decide

/-- GETBIT numbers the bits from the low bit of the first byte. -/
theorem getbit_eq (data : Bytes) {off : Int} (positive : 0 ≤ off) :
    getbit data off = bitAt data off.toNat := by
  obtain ⟨n, rfl⟩ := Int.eq_ofNat_of_zero_le positive
  have byteOff : ((n : Int) / 8).toNat = n / 8 := by omega
  have bitOff : ((n : Int) % 8).toNat = n % 8 := by omega
  have masked : ∀ b : UInt8, (b &&& (1 : UInt8) <<< (n % 8).toUInt8 != 0) = b.toNat.testBit (n % 8) := by
    intro b
    rw [Bool.eq_iff_iff, bne_iff_ne, ne_eq, ← UInt8.toNat_inj, UInt8.toNat_and,
      toNat_mask _ (Nat.mod_lt _ (by decide)), Nat.and_two_pow]
    cases b.toNat.testBit (n % 8) <;> simp
  simp only [getbit, byteOff, bitOff, masked, Int.toNat_natCast]
  by_cases inside : n / 8 < data.length
  · simp [inside, bitAt]
  · rw [bitAt_of_le data (by omega)]
    simp [inside]

theorem getD_pad (data : Bytes) (n i : Nat) :
    (data ++ List.replicate n 0).getD i 0 = data.getD i 0 := by
  rw [List.getD_eq_getElem?_getD, List.getD_eq_getElem?_getD]
  by_cases inside : i < data.length
  · rw [List.getElem?_append_left inside]
  · rw [List.getElem?_append_right (by omega), List.getElem?_eq_none (by omega : data.length ≤ i),
      List.getElem?_replicate]
    split <;> rfl

/-- SETBIT changes one bit of this numbering. -/
theorem bitAt_setbit (data : Bytes) (off i : Nat) (bitval : Int) :
    bitAt (setbit data off bitval) i = if i = off then bitval != 0 else bitAt data i := by
  have mask := toNat_mask (off % 8) (Nat.mod_lt _ (by decide))
  have room : off / 8 < (data ++ List.replicate (off / 8 + 1 - data.length) 0).length := by
    rw [List.length_append, List.length_replicate]
    omega
  rw [setbit, bitAt, List.getD_eq_getElem?_getD, List.getElem?_set]
  by_cases byte : off / 8 = i / 8
  · rw [if_pos byte, if_pos room, Option.getD_some, getD_pad, byte]
    have small : i % 8 < 8 := Nat.mod_lt _ (by decide)
    have sameBit : (off % 8 = i % 8) ↔ i = off := by omega
    by_cases clear : bitval = 0
    · rw [if_pos clear, UInt8.toNat_and, UInt8.toNat_not, mask, Nat.testBit_and]
      rw [show UInt8.size - 1 - 2 ^ (off % 8) = 2 ^ 8 - (2 ^ (off % 8) + 1) by
          simp only [UInt8.size]; omega,
        Nat.testBit_two_pow_sub_succ (Nat.pow_lt_pow_right (by decide) (Nat.mod_lt _ (by decide))),
        Nat.testBit_two_pow]
      by_cases same : i = off
      · subst same
        simp [clear]
      · have differ : ¬off % 8 = i % 8 := fun equal => same (sameBit.mp equal)
        simp [bitAt, same, differ, small]
    · rw [if_neg clear, UInt8.toNat_or, mask, Nat.testBit_or, Nat.testBit_two_pow]
      by_cases same : i = off
      · subst same
        simp [clear]
      · have differ : ¬off % 8 = i % 8 := fun equal => same (sameBit.mp equal)
        simp [bitAt, same, differ]
  · rw [if_neg byte, ← List.getD_eq_getElem?_getD, getD_pad, if_neg (by omega), bitAt]

/-- A scan for a clear bit runs over the end of a short word. -/
def Overruns (target : Int) (off stop : Nat) : Prop := target = 0 ∧ (stop - off) % 8 ≠ 0

instance (target : Int) (off stop : Nat) : Decidable (Overruns target off stop) :=
  inferInstanceAs (Decidable (_ ∧ _))

/-- The bit before which a scan finds bits. The first short word ends the scan for a clear bit. -/
def scanEnd (target : Int) (off stop : Nat) : Nat :=
  if Overruns target off stop then
    8 * (stop - (stop - off) % 8 + wordSize ((stop - off) % 8))
  else 8 * stop

theorem wordSize_le {left : Nat} (positive : 0 < left) :
    0 < wordSize left ∧ wordSize left ≤ left ∧ wordSize left ≤ 8 := by
  rw [wordSize]
  split_ifs <;> omega

/-- A whole word does not change where the scan ends. -/
theorem scanEnd_word {target : Int} {off stop : Nat} (whole : off + 8 ≤ stop) :
    scanEnd target (off + 8) stop = scanEnd target off stop ∧
      (Overruns target (off + 8) stop ↔ Overruns target off stop) := by
  have rest : (stop - (off + 8)) % 8 = (stop - off) % 8 := by omega
  have same : Overruns target (off + 8) stop ↔ Overruns target off stop := by
    rw [Overruns, Overruns, rest]
  apply And.intro _ same
  rw [scanEnd, scanEnd, rest]
  simp only [same]

/-- The word of a scan has the bits that are looked for. -/
theorem testBit_word (data : Bytes) (target : Int) {off stop z : Nat} (size : z ≤ 8)
    (inside : off + z ≤ stop) (i : Nat) :
    (if target = 0 then 2 ^ 64 - 1 - value (((data.take stop).drop off).take z)
        else value (((data.take stop).drop off).take z)).testBit i =
      if i < 8 * z then (bitAt data (8 * off + i) == (target != 0))
      else decide (target = 0 ∧ i < 64) := by
  have word : (value (((data.take stop).drop off).take z)).testBit i =
      if i < 8 * z then bitAt data (8 * off + i) else false := by
    rw [testBit_value]
    by_cases within : i < 8 * z
    · rw [if_pos within, bitAt_take_drop _ within]
      have whole := @bitAt_take_drop data 0 stop (8 * off + i) (by omega)
      rwa [List.drop_zero, Nat.mul_zero, Nat.zero_add] at whole
    · rw [if_neg within]
      apply bitAt_of_le
      rw [List.length_take]
      omega
  have bound : value (((data.take stop).drop off).take z) < 2 ^ 64 := by
    apply (value_lt _).trans_le
    rw [show (256 : Nat) = 2 ^ 8 by norm_num, ← pow_mul]
    apply Nat.pow_le_pow_right (by decide)
    rw [List.length_take]
    omega
  by_cases clear : target = 0
  · rw [if_pos clear, Nat.sub_sub, Nat.add_comm 1, Nat.testBit_two_pow_sub_succ bound, word]
    by_cases within : i < 8 * z
    · have small : i < 64 := by omega
      simp [within, small, clear]
    · simp [within, clear]
  · have set : (target != 0) = true := by simpa using clear
    rw [if_neg clear, word]
    by_cases within : i < 8 * z
    · simp [within, set]
    · simp [within, clear]

/-- The word that is read next is in front of the end of the scan. -/
theorem word_le_scanEnd (target : Int) {off stop : Nat} (left : off < stop) :
    8 * (off + wordSize (stop - off)) ≤ scanEnd target off stop ∧
      (target = 0 → stop - off < 8 → Overruns target off stop ∧
        scanEnd target off stop = 8 * (off + wordSize (stop - off))) := by
  obtain ⟨positive, inside, small⟩ := @wordSize_le (stop - off) (by omega)
  have last : stop - off < 8 → (stop - off) % 8 = stop - off := Nat.mod_eq_of_lt
  by_cases overruns : Overruns target off stop
  · rw [scanEnd, if_pos overruns]
    by_cases short : stop - off < 8
    · rw [last short, Nat.sub_sub_self left.le]
      exact ⟨le_rfl, fun _ _ => ⟨overruns, rfl⟩⟩
    · exact ⟨by omega, fun _ less => absurd less short⟩
  · rw [scanEnd, if_neg overruns]
    apply And.intro (by omega)
    intro clear short
    apply absurd _ overruns
    rw [Overruns, last short]
    exact ⟨clear, by omega⟩

/-- The rest of a scan behind a word ends where the scan ends. -/
theorem scanEnd_next {target : Int} {off stop : Nat} (left : off < stop)
    (whole : target = 0 → 8 ≤ stop - off) :
    scanEnd target (off + wordSize (stop - off)) stop = scanEnd target off stop ∧
      (Overruns target (off + wordSize (stop - off)) stop ↔ Overruns target off stop) := by
  by_cases long : 8 ≤ stop - off
  · rw [wordSize, if_pos long]
    exact scanEnd_word (by omega)
  · have set : target ≠ 0 := fun clear => long (whole clear)
    have never : ∀ off, ¬Overruns target off stop := fun off overruns => set overruns.1
    rw [scanEnd, scanEnd, if_neg (never _), if_neg (never _)]
    exact ⟨rfl, iff_of_false (never _) (never _)⟩

/-- The first bit of a scan from a byte on. -/
def Scanned (data : Bytes) (target : Int) (stop off : Nat) : Option Nat → Prop
  | none => ¬Overruns target off stop ∧
      ∀ i, 8 * off ≤ i → i < scanEnd target off stop → bitAt data i ≠ (target != 0)
  | some v => 8 * off ≤ v ∧ (∀ i, 8 * off ≤ i → i < v → bitAt data i ≠ (target != 0)) ∧
      ((v < scanEnd target off stop ∧ bitAt data v = (target != 0)) ∨
        (v = scanEnd target off stop ∧ Overruns target off stop))

/-- A word without the bit is passed overruns. -/
theorem Scanned.step {data : Bytes} {target : Int} {stop off : Nat} {found : Option Nat}
    (left : off < stop) (whole : target = 0 → 8 ≤ stop - off)
    (word : ∀ i < 8 * wordSize (stop - off), bitAt data (8 * off + i) ≠ (target != 0))
    (rest : Scanned data target stop (off + wordSize (stop - off)) found) :
    Scanned data target stop off found := by
  obtain ⟨sameEnd, sameOver⟩ := scanEnd_next left whole
  have front : ∀ {bound i : Nat}, (∀ i, 8 * (off + wordSize (stop - off)) ≤ i → i < bound →
      bitAt data i ≠ (target != 0)) → 8 * off ≤ i → i < bound → bitAt data i ≠ (target != 0) := by
    intro bound i behind lower upper
    by_cases inWord : i < 8 * (off + wordSize (stop - off))
    · have here := word (i - 8 * off) (by omega)
      rwa [Nat.add_sub_cancel' lower] at here
    · exact behind i (by omega) upper
  cases found with
  | none =>
      obtain ⟨notOver, clear⟩ := rest
      rw [sameEnd] at clear
      exact ⟨fun overruns => notOver (sameOver.mpr overruns), fun i => front clear⟩
  | some v =>
      obtain ⟨lower, clear, stopped⟩ := rest
      rw [sameEnd, sameOver] at stopped
      exact ⟨by omega, fun i => front clear, stopped⟩

/-- No bit is found behind the end. -/
theorem scanned_of_le (data : Bytes) (target : Int) {stop off : Nat} (done : stop ≤ off) :
    Scanned data target stop off none := by
  have whole : ¬Overruns target off stop := by
    rw [Overruns]
    omega
  apply And.intro whole
  intro i lower upper
  rw [scanEnd, if_neg whole] at upper
  omega

/-- The scan finds the first bit before its end, or it stops behind a short word. -/
theorem scanBit_spec (data : Bytes) (target : Int) {stop : Nat} (short : stop ≤ data.length)
    (fuel off : Nat) (enough : stop - off ≤ fuel) :
    Scanned data target stop off (scanBit target fuel ((data.take stop).drop off) off) := by
  induction fuel generalizing off with
  | zero => exact scanned_of_le data target (by omega)
  | succ fuel ih =>
      have size : ((data.take stop).drop off).length = stop - off := by
        rw [List.length_drop, List.length_take]
        omega
      rw [scanBit]
      by_cases done : stop ≤ off
      · rw [if_pos (by rw [List.isEmpty_iff_length_eq_zero]; omega)]
        exact scanned_of_le data target done
      · rw [if_neg (by rw [List.isEmpty_iff_length_eq_zero]; omega)]
        simp only [size]
        obtain ⟨positive, inside, small⟩ := @wordSize_le (stop - off) (by omega)
        obtain ⟨ahead, last⟩ := @word_le_scanEnd target off stop (by omega)
        have bits := @testBit_word data target off stop _ small (by omega)
        generalize (if target = 0 then
            2 ^ 64 - 1 - value (((data.take stop).drop off).take (wordSize (stop - off)))
          else value (((data.take stop).drop off).take (wordSize (stop - off)))) = x at bits ⊢
        -- A complement has ones behind a short word.
        have behind : target = 0 → stop - off < 8 → x.testBit (8 * wordSize (stop - off)) := by
          intro clear less
          rw [bits, if_neg (by omega)]
          exact decide_eq_true ⟨clear, by omega⟩
        by_cases zero : x = 0
        · rw [if_neg (by simpa using zero), List.drop_drop]
          subst zero
          have whole : target = 0 → 8 ≤ stop - off := by
            intro clear
            by_contra less
            have one := behind clear (by omega)
            simp at one
          apply Scanned.step (by omega) whole
          · intro i within
            have bit := bits i
            rw [if_pos within, Nat.zero_testBit] at bit
            exact fun same => by simp [same] at bit
          · exact ih _ (by omega)
        · rw [if_pos zero]
          have bound : x < 2 ^ 64 := by
            apply Nat.lt_pow_two_of_testBit
            intro i large
            rw [bits, if_neg (by omega)]
            exact decide_eq_false (by omega)
          obtain ⟨set, clear⟩ := ctz_spec bound zero
          generalize ctz 64 x = low at set clear ⊢
          have place : low < 8 * wordSize (stop - off) ∨
              (low = 8 * wordSize (stop - off) ∧ target = 0 ∧ stop - off < 8) := by
            by_cases within : low < 8 * wordSize (stop - off)
            · exact Or.inl within
            · rw [bits, if_neg within, decide_eq_true_eq] at set
              have less : stop - off < 8 := by
                by_contra long
                rw [wordSize, if_pos (by omega)] at within
                omega
              apply Or.inr
              apply And.intro _ ⟨set.1, less⟩
              by_contra differ
              have zeroBit := clear (8 * wordSize (stop - off)) (by omega)
              rw [behind set.1 less] at zeroBit
              cases zeroBit
          apply And.intro (by omega)
          apply And.intro
          · intro i lower upper same
            have zeroBit := clear (i - 8 * off) (by omega)
            rw [bits, if_pos (by omega), Nat.add_sub_cancel' lower, same] at zeroBit
            simp at zeroBit
          · rcases place with within | ⟨exact, clearBit, less⟩
            · apply Or.inl
              rw [bits, if_pos within, beq_iff_eq] at set
              rw [Nat.mul_comm off 8]
              exact ⟨by omega, set⟩
            · apply Or.inr
              obtain ⟨overruns, atEnd⟩ := last clearBit less
              exact ⟨by omega, overruns⟩

/-- The byte behind an inclusive range. -/
def rangeEnd (size : Nat) (stop : Int) : Nat := (min (max (fromEnd size stop) 0) (size - 1) + 1).toNat

/-- The first bit with the value from a place on. -/
def FirstBit (data : Bytes) (target : Int) (low p : Nat) : Prop :=
  low ≤ p ∧ bitAt data p = (target != 0) ∧ ∀ i, low ≤ i → i < p → bitAt data i ≠ (target != 0)

/-- The position of the first bit in an inclusive range of bytes. Without an end offset, a clear bit
is found behind a string of ones. -/
def IsBitpos (data : Bytes) (target start stop : Int) (given : Bool) (v : Int) : Prop :=
  let first := (max (fromEnd data.length start) 0).toNat
  let last := rangeEnd data.length stop
  (∃ p : Nat, v = p ∧ FirstBit data target (8 * first) p ∧ p < 8 * last) ∨
    ((∀ i, 8 * first ≤ i → i < 8 * last → bitAt data i ≠ (target != 0)) ∧
      v = if target = 0 ∧ given = false ∧ first < last then 8 * (data.length : Int) else -1)

/-- The first offset is not negative, and the first bit of the range is in front of the end of the
scan, or at the end of a short word. When the range has no such bit, neither have the bytes that are
scanned, the scan does not stop at a short word inside the string, and the answer is not behind the
string. -/
def BitposMeets (data : Bytes) (target start stop : Int) (given : Bool) : Prop :=
  let first := start.toNat
  let last := rangeEnd data.length stop
  let scanned := scanStop data.length start stop
  0 ≤ start ∧
    ((∃ p, FirstBit data target (8 * first) p ∧ p < 8 * last ∧
        (p < scanEnd target first scanned ∨
          (p = scanEnd target first scanned ∧ Overruns target first scanned))) ∨
      ((∀ i, 8 * first ≤ i → i < max (8 * last) (scanEnd target first scanned) →
          bitAt data i ≠ (target != 0)) ∧
        (Overruns target first scanned → 8 * data.length ≤ scanEnd target first scanned) ∧
        ¬(target = 0 ∧ given = false ∧ first < last)))

theorem FirstBit.unique {data : Bytes} {target : Int} {low p q : Nat}
    (first : FirstBit data target low p) (second : FirstBit data target low q) : p = q := by
  rcases Nat.lt_trichotomy p q with below | same | above
  · exact absurd first.2.1 (second.2.2 p first.1 below)
  · exact same
  · exact absurd second.2.1 (first.2.2 q second.1 above)

/-- The answer is none when no bit is found, except behind the string. -/
theorem isBitpos_none {data : Bytes} {target start stop : Int} {given : Bool} {first : Nat}
    (isFirst : (max (fromEnd data.length start) 0).toNat = first) :
    IsBitpos data target start stop given (-1) ↔
      (∀ i, 8 * first ≤ i → i < 8 * rangeEnd data.length stop → bitAt data i ≠ (target != 0)) ∧
        ¬(target = 0 ∧ given = false ∧ first < rangeEnd data.length stop) := by
  simp only [IsBitpos, isFirst]
  apply Iff.intro
  · rintro (⟨p, negative, _⟩ | ⟨clear, miss⟩)
    · omega
    · apply And.intro clear
      intro behind
      rw [if_pos behind] at miss
      omega
  · rintro ⟨clear, inside⟩
    exact Or.inr ⟨clear, (if_neg inside).symm⟩

/-- A place in the string is the answer when it is the first bit of the range. -/
theorem isBitpos_some {data : Bytes} {target start stop : Int} {given : Bool} {first p : Nat}
    (isFirst : (max (fromEnd data.length start) 0).toNat = first) (inside : p < 8 * data.length) :
    IsBitpos data target start stop given p ↔
      FirstBit data target (8 * first) p ∧ p < 8 * rangeEnd data.length stop := by
  simp only [IsBitpos, isFirst]
  apply Iff.intro
  · rintro (⟨q, same, found⟩ | ⟨_, miss⟩)
    · rwa [Int.ofNat.inj same]
    · split at miss <;> omega
  · intro found
    exact Or.inl ⟨p, rfl, found⟩

theorem scanEnd_le (target : Int) (off stop : Nat) : scanEnd target off stop ≤ 8 * stop := by
  rw [scanEnd]
  by_cases overruns : Overruns target off stop
  · obtain ⟨_, inside, _⟩ := wordSize_le (Nat.pos_of_ne_zero overruns.2)
    rw [if_pos overruns]
    have rest := Nat.mod_le (stop - off) 8
    omega
  · rw [if_neg overruns]

theorem rangeEnd_le (size : Nat) (stop : Int) : rangeEnd size stop ≤ size := by
  rw [rangeEnd]
  omega

theorem scanStop_le (size : Nat) (start stop : Int) : scanStop size start stop ≤ size := by
  rw [scanStop]
  split_ifs <;> omega

/-- The code finds the first bit of the range under the condition only. -/
theorem bitpos_iff (data : Bytes) (target : Int) {start : Int} (positive : 0 ≤ start) (stop : Int)
    (given : Bool) :
    IsBitpos data target start stop given (bitpos data target start stop) ↔
      BitposMeets data target start stop given := by
  have sameFirst : (max (fromEnd data.length start) 0).toNat = start.toNat := by
    rw [fromEnd, if_neg (by omega)]
    omega
  have scannedLe := scanStop_le data.length start stop
  have found := scanBit_spec data target scannedLe data.length start.toNat (by omega)
  have endLe := scanEnd_le target start.toNat (scanStop data.length start stop)
  have lastLe := rangeEnd_le data.length stop
  simp only [BitposMeets, bitpos, positive, true_and]
  generalize scanBit target data.length
    ((data.take (scanStop data.length start stop)).drop start.toNat) start.toNat = result at found ⊢
  generalize scanStop data.length start stop = scanned at *
  cases result with
  | none =>
      obtain ⟨whole, clear⟩ := found
      rw [isBitpos_none sameFirst]
      apply Iff.intro
      · rintro ⟨none, inside⟩
        apply Or.inr
        apply And.intro
        · intro i lower upper
          by_cases inScan : i < scanEnd target start.toNat scanned
          · exact clear i lower inScan
          · exact none i lower (by omega)
        · exact ⟨fun overruns => absurd overruns whole, inside⟩
      · rintro (⟨p, isFirst, _, inScan | ⟨_, overruns⟩⟩ | ⟨none, _, inside⟩)
        · exact absurd isFirst.2.1 (clear p isFirst.1 inScan)
        · exact absurd overruns whole
        · exact ⟨fun i lower upper => none i lower (by omega), inside⟩
  | some v =>
      obtain ⟨lower, clear, ⟨inScan, set⟩ | ⟨atEnd, overruns⟩⟩ := found
      all_goals dsimp only
      · have isFirst : FirstBit data target (8 * start.toNat) v := ⟨lower, set, clear⟩
        rw [if_neg (by omega), isBitpos_some sameFirst (by omega)]
        apply Iff.intro
        · rintro ⟨_, inRange⟩
          exact Or.inl ⟨v, isFirst, inRange, Or.inl inScan⟩
        · rintro (⟨p, again, inRange, _⟩ | ⟨none, _⟩)
          · rw [isFirst.unique again]
            exact ⟨again, inRange⟩
          · exact absurd set (none v lower (by omega))
      · by_cases outside : data.length * 8 ≤ v
        · rw [if_pos outside, isBitpos_none sameFirst]
          apply Iff.intro
          · rintro ⟨none, inside⟩
            apply Or.inr
            apply And.intro
            · intro i low upper
              exact clear i low (by omega)
            · exact ⟨fun _ => by omega, inside⟩
          · rintro (⟨p, isFirst, inRange, _⟩ | ⟨none, _, inside⟩)
            · exact absurd isFirst.2.1 (clear p isFirst.1 (by omega))
            · exact ⟨fun i low upper => none i low (by omega), inside⟩
        · rw [if_neg outside, isBitpos_some sameFirst (by omega)]
          apply Iff.intro
          · rintro ⟨isFirst, inRange⟩
            exact Or.inl ⟨v, isFirst, inRange, Or.inr ⟨atEnd, overruns⟩⟩
          · rintro (⟨p, isFirst, inRange, inScan | ⟨same, _⟩⟩ | ⟨_, stops, _⟩)
            · exact absurd isFirst.2.1 (clear p isFirst.1 (by omega))
            · rw [atEnd, ← same]
              exact ⟨isFirst, inRange⟩
            · have far := stops overruns
              omega

section Commands

variable {env : KeyEnv} {entry : Option (Entry Bytes)} {data : Bytes}

/-- GETBIT replies with the bit. -/
theorem execGetbit_bit (works : env.Works) {msg : CommandMsg} {off : Int}
    (isOff : msg.getArgInt 2 = some off) (positive : 0 ≤ off)
    (string : stringValue env entry = .bytes data) (arg0 : Bytes) :
    (execGetbit env msg entry).reply arg0 = sendInt (if bitAt data off.toNat then 1 else 0) := by
  have found := getKeyRead_string works entry
  rw [string] at found
  obtain ⟨e, ok, isEntry, rfl⟩ := found
  simp only [execGetbit, isOff, ok, isEntry, getbit_eq _ positive]
  rw [if_neg (by omega), if_pos ⟨works.valued, works.validated⟩]
  have lines : line ":1" = sendInt 1 ∧ line ":0" = sendInt 0 := by decide
  cases bitAt e.data off.toNat with
  | true => exact lines.1
  | false => exact lines.2

/-- SETBIT replies with the old bit and changes no other bit. -/
theorem execSetbit_bit (works : env.Works) {msg : CommandMsg} {off bitval : Int}
    (isOff : msg.getArgInt 2 = some off) (positive : 0 ≤ off)
    (isBit : msg.getArgInt 3 = some bitval) (binary : bitval = 0 ∨ bitval = 1)
    (string : stringValue env entry = .bytes data) (arg0 : Bytes) :
    (execSetbit env msg entry).reply arg0 = sendInt (if bitAt data off.toNat then 1 else 0) ∧
      ∃ e, (execSetbit env msg entry).settle .string = some e ∧ e.type = .string ∧
        ∀ i, bitAt e.data i = if i = off.toNat then bitval != 0 else bitAt data i := by
  rw [stringValue] at string
  simp only [execSetbit, isOff, isBit]
  rw [if_pos ⟨positive, binary⟩, getKeyWrite_works works]
  cases found : live env entry with
  | none =>
      rw [found] at string
      cases string
  | some e =>
      rw [found] at string
      by_cases untyped : e.type = .noData
      · simp [untyped] at string
      · by_cases isString : e.type = .string
        · obtain rfl : e.data = data := by simpa [isString] using string
          simp only [isString, if_true, works.valued, works.resized, getbit_eq _ positive]
          apply And.intro rfl
          exact ⟨_, rfl, isString, fun i => bitAt_setbit _ _ _ _⟩
        · simp [untyped, isString] at string

/-- BITPOS finds the first bit of the range under the condition only, in the numbering of GETBIT and
SETBIT. -/
theorem execBitpos_exact (works : env.Works) {msg : CommandMsg} {target start stop : Int}
    (isTarget : msg.getArgInt 2 = some target) (binary : target = 0 ∨ target = 1)
    (first : optionalInt msg 3 0 = some start) (last : optionalInt msg 4 (-1) = some stop)
    (string : stringValue env entry = .bytes data) (arg0 : Bytes) :
    ((∃ v, (execBitpos env msg entry).reply arg0 = sendInt v ∧
        IsBitpos data target start stop (4 < msg.argc) v) ↔
      BitposMeets data target start stop (4 < msg.argc)) ∧
    (∀ (m : CommandMsg) (off : Int), m.getArgInt 2 = some off → 0 ≤ off →
      (execGetbit env m entry).reply arg0 = sendInt (if bitAt data off.toNat then 1 else 0)) ∧
    ∀ (m : CommandMsg) (off bitval : Int), m.getArgInt 2 = some off → 0 ≤ off →
      m.getArgInt 3 = some bitval → (bitval = 0 ∨ bitval = 1) →
        (execSetbit env m entry).reply arg0 = sendInt (if bitAt data off.toNat then 1 else 0) ∧
          ∃ e, (execSetbit env m entry).settle .string = some e ∧ e.type = .string ∧
            ∀ i, bitAt e.data i = if i = off.toNat then bitval != 0 else bitAt data i := by
  apply And.intro
  · have found := getKeyRead_string works entry
    rw [string] at found
    obtain ⟨e, ok, isEntry, rfl⟩ := found
    simp only [execBitpos, isTarget, first, last, ok, isEntry]
    by_cases positive : 0 ≤ start
    · rw [if_pos ⟨binary, positive⟩, ← bitpos_iff e.data target positive stop, Fetched.int,
        if_pos ⟨works.valued, works.validated⟩]
      apply Iff.intro
      · rintro ⟨v, sent, answer⟩
        have same : bitpos e.data target start stop = v := sendInt_injective sent
        rwa [same]
      · intro answer
        exact ⟨_, rfl, answer⟩
    · rw [if_neg fun both => positive both.2]
      apply iff_of_false
      · rintro ⟨v, sent, _⟩
        exact sendErrString_ne_sendInt _ _ _ sent
      · exact fun meets => positive meets.1
  · exact ⟨fun m off isOff positive => execGetbit_bit works isOff positive string arg0,
      fun m off bitval isOff positive isBit binary =>
        execSetbit_bit works isOff positive isBit binary string arg0⟩

end Commands

/-- The words of a search for a bit that is set. -/
def bitposMsg : CommandMsg := ⟨commandWords ["bitpos", "k", "1"], by decide⟩

/-- The words of a search in the first two bytes. -/
def bitposRangeMsg : CommandMsg := ⟨commandWords ["bitpos", "k", "1", "0", "1"], by decide⟩

/-- Three bytes with one bit in the second. -/
def middleEntry : Option (Entry Bytes) := some ⟨.string, [0, 1, 0], 0⟩

/-- The lowest bit of a letter. -/
theorem execBitpos_exact_letter :
    ∃ v, (execBitpos quietEnv bitposMsg (stringEntry "b")).reply [] = sendInt v ∧
      IsBitpos (text "b") 1 0 (-1) (4 < bitposMsg.argc) v := by
  apply (execBitpos_exact quietEnv_works (by decide) (by decide) (by decide) (by decide)
    (by decide) []).1.mpr
  apply And.intro le_rfl
  apply Or.inl
  apply Exists.intro 1
  have facts : bitAt (text "b") 0 = false ∧ bitAt (text "b") 1 = true ∧
      1 < 8 * rangeEnd (text "b").length (-1) ∧
      1 < scanEnd 1 0 (scanStop (text "b").length 0 (-1)) := by
    decide
  obtain ⟨low, set, inRange, inScan⟩ := facts
  apply And.intro _ ⟨inRange, Or.inl inScan⟩
  apply And.intro (by decide)
  apply And.intro set
  intro i _ below
  obtain rfl : i = 0 := by omega
  rw [low]
  decide

/-- The last byte of the range is not looked at. -/
theorem not_execBitpos_exact :
    ¬∃ v, (execBitpos quietEnv bitposRangeMsg middleEntry).reply [] = sendInt v ∧
      IsBitpos [0, 1, 0] 1 0 1 (4 < bitposRangeMsg.argc) v := by
  rintro ⟨v, sent, answer⟩
  have facts : (execBitpos quietEnv bitposRangeMsg middleEntry).reply [] = sendInt (-1) ∧
      8 < 8 * rangeEnd [(0 : UInt8), 1, 0].length 1 ∧ bitAt [0, 1, 0] 8 = true := by
    decide
  obtain ⟨none, inRange, set⟩ := facts
  obtain rfl := sendInt_injective (none.symm.trans sent)
  have clear := ((@isBitpos_none _ _ _ _ _ 0 (by decide)).mp answer).1 8 (by decide) inRange
  exact clear set

end Raids.Key
