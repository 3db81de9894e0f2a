import Raids.Construction.Key.Bitop

namespace Raids.Key
open LittleEndian

/-- A word operation works byte by byte. -/
def Bytewise (op : WordOp) (byteOp : UInt8 → UInt8 → UInt8) : Prop :=
  ∀ x y : Bytes, x.length = y.length →
    digits x.length (op (8 * x.length) (value x) (value y)) = List.zipWith byteOp x y

/-- The first byte of a word operation is the one of the low bytes when the rest of the word does
not meet it. -/
theorem bytewise_of_step {op : WordOp} {byteOp : UInt8 → UInt8 → UInt8}
    (step : ∀ (n : Nat) (b c : UInt8) (v w : Nat), v < 256 ^ n → w < 256 ^ n →
      op (8 * (n + 1)) (b.toNat + 256 * v) (c.toNat + 256 * w) =
        (byteOp b c).toNat + 256 * op (8 * n) v w) :
    Bytewise op byteOp := by
  intro x
  induction x with
  | nil =>
      intro y _
      simp [digits]
  | cons b x ih =>
      intro y same
      cases y with
      | nil => cases same
      | cons c y =>
          rw [List.length_cons, List.length_cons, Nat.add_right_cancel_iff] at same
          have word := step x.length b c (value x) (value y) (value_lt x) (same ▸ value_lt y)
          have byte := (byteOp b c).toNat_lt
          have low : UInt8.ofNat ((byteOp b c).toNat + 256 * op (8 * x.length) (value x) (value y)) =
              byteOp b c := by
            apply UInt8.toNat_inj.mp
            rw [UInt8.toNat_ofNat']
            omega
          rw [List.length_cons, digits, value_cons, value_cons, word, low,
            show ((byteOp b c).toNat + 256 * op (8 * x.length) (value x) (value y)) / 256 =
              op (8 * x.length) (value x) (value y) by omega, ih y same, List.zipWith_cons_cons]

/-- An operation of the bits works byte by byte. -/
theorem step_of_bits {op : Nat → Nat → Nat} {byteOp : UInt8 → UInt8 → UInt8}
    (low : ∀ x y, op x y % 2 ^ 8 = op (x % 2 ^ 8) (y % 2 ^ 8))
    (high : ∀ x y, op x y / 2 ^ 8 = op (x / 2 ^ 8) (y / 2 ^ 8))
    (byte : ∀ b c : UInt8, (byteOp b c).toNat = op b.toNat c.toNat) (b c : UInt8) (v w : Nat) :
    op (b.toNat + 256 * v) (c.toNat + 256 * w) = (byteOp b c).toNat + 256 * op v w := by
  have first := b.toNat_lt
  have second := c.toNat_lt
  have lowPart := low (b.toNat + 256 * v) (c.toNat + 256 * w)
  have highPart := high (b.toNat + 256 * v) (c.toNat + 256 * w)
  rw [show (b.toNat + 256 * v) % 2 ^ 8 = b.toNat by omega,
    show (c.toNat + 256 * w) % 2 ^ 8 = c.toNat by omega] at lowPart
  rw [show (b.toNat + 256 * v) / 2 ^ 8 = v by omega,
    show (c.toNat + 256 * w) / 2 ^ 8 = w by omega] at highPart
  rw [byte, ← lowPart, ← highPart]
  omega

theorem bytewise_andt : Bytewise andt (· &&& ·) :=
  bytewise_of_step fun _ b c v w _ _ =>
    step_of_bits (fun _ _ => Nat.and_mod_two_pow) (fun _ _ => Nat.and_div_two_pow)
      (fun _ _ => UInt8.toNat_and _ _) b c v w

theorem bytewise_ort : Bytewise ort (· ||| ·) :=
  bytewise_of_step fun _ b c v w _ _ =>
    step_of_bits (fun _ _ => Nat.or_mod_two_pow) (fun _ _ => Nat.or_div_two_pow)
      (fun _ _ => UInt8.toNat_or _ _) b c v w

theorem bytewise_xort : Bytewise xort (· ^^^ ·) :=
  bytewise_of_step fun _ b c v w _ _ =>
    step_of_bits (fun _ _ => Nat.xor_mod_two_pow) (fun _ _ => Nat.xor_div_two_pow)
      (fun _ _ => UInt8.toNat_xor _ _) b c v w

theorem bytewise_nott : Bytewise nott (fun _ c => ~~~c) := by
  apply bytewise_of_step
  intro n b c v w _ small
  have byte := c.toNat_lt
  have size : 2 ^ (8 * (n + 1)) = 256 * 2 ^ (8 * n) := by rw [Nat.mul_succ, pow_add]; ring
  have rest : 2 ^ (8 * n) = 256 ^ n := by rw [pow_mul]; norm_num
  rw [nott, nott, size, UInt8.toNat_not, UInt8.size, rest]
  omega

section Loops

variable {op : WordOp} {byteOp : UInt8 → UInt8 → UInt8}

theorem opWord_eq (bytewise : Bytewise op byteOp) {z : Nat} {x y : Bytes} (room : z ≤ x.length)
    (same : x.length = y.length) : opWord op z x y = List.zipWith byteOp (x.take z) (y.take z) := by
  have width : (x.take z).length = z := by rw [List.length_take]; omega
  have word := bytewise (x.take z) (y.take z) (by rw [List.length_take, List.length_take, same])
  rw [width] at word
  rw [opWord, word]

/-- A word and what stands behind it. -/
theorem zipWith_split (z : Nat) (x y : Bytes) :
    List.zipWith byteOp x y =
      List.zipWith byteOp (x.take z) (y.take z) ++ List.zipWith byteOp (x.drop z) (y.drop z) := by
  rw [← List.take_zipWith, ← List.drop_zipWith, List.take_append_drop]

/-- The last step covers one byte at most. -/
theorem opWord_one (bytewise : Bytewise op byteOp) {x y : Bytes} (same : x.length = y.length)
    (short : x.length < 2) :
    (if 1 ≤ x.length then opWord op 1 x y else []) = List.zipWith byteOp x y := by
  by_cases some : 1 ≤ x.length
  · rw [if_pos some, opWord_eq bytewise some same, List.take_of_length_le (by omega),
      List.take_of_length_le (by omega)]
  · rw [if_neg some, List.length_eq_zero_iff.mp (by omega : x.length = 0), List.zipWith_nil_left]

/-- The tail covers fewer than eight bytes. -/
theorem bitopTail_eq (bytewise : Bytewise op byteOp) {x y : Bytes} (same : x.length = y.length)
    (short : x.length < 8) : bitopTail op x y = List.zipWith byteOp x y := by
  have sameDrop : ∀ n, (x.drop n).length = (y.drop n).length := by
    intro n
    rw [List.length_drop, List.length_drop, same]
  have lengths : ∀ n, (x.drop n).length = x.length - n := fun n => List.length_drop
  rw [bitopTail]
  by_cases four : 4 ≤ x.length
  · simp only [if_pos four]
    rw [zipWith_split 4 x y, opWord_eq bytewise four same]
    by_cases two : 2 ≤ (x.drop 4).length
    · simp only [if_pos two, List.drop_drop]
      rw [zipWith_split 2 (x.drop 4), opWord_eq bytewise two (sameDrop 4), List.drop_drop,
        List.drop_drop, opWord_one bytewise (sameDrop _) (by rw [lengths]; omega),
        List.append_assoc]
    · simp only [if_neg two]
      rw [opWord_one bytewise (sameDrop 4) (by omega), List.append_nil]
  · simp only [if_neg four, List.nil_append]
    by_cases two : 2 ≤ x.length
    · simp only [if_pos two]
      rw [zipWith_split 2 x y, opWord_eq bytewise two same,
        opWord_one bytewise (sameDrop 2) (by rw [lengths]; omega)]
    · simp only [if_neg two, List.nil_append]
      exact opWord_one bytewise same (by omega)

theorem bitopLoop_eq (bytewise : Bytewise op byteOp) (fuel : Nat) {x y : Bytes}
    (same : x.length = y.length) (enough : x.length < 8 * (fuel + 1)) :
    bitopLoop op fuel x y = List.zipWith byteOp x y := by
  induction fuel generalizing x y with
  | zero => exact bitopTail_eq bytewise same (by omega)
  | succ fuel ih =>
      rw [bitopLoop]
      by_cases more : 8 ≤ x.length
      · rw [if_pos more, opWord_eq bytewise more same,
          ih (by rw [List.length_drop, List.length_drop, same]) (by rw [List.length_drop]; omega),
          ← zipWith_split]
      · rw [if_neg more, bitopTail_eq bytewise same (by omega)]

/-- The words of the operation give the bytes of the operation. -/
theorem bitop_eq (bytewise : Bytewise op byteOp) {x y : Bytes} (same : x.length = y.length) :
    bitop op x y = List.zipWith byteOp x y :=
  bitopLoop_eq bytewise _ same (by omega)

end Loops

theorem notBits_eq (x : Bytes) : notBits x = x.map (~~~·) := by
  rw [notBits, bitop_eq bytewise_nott rfl, List.zipWith_self]

end Raids.Key
