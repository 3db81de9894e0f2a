import Raids.Construction.Msg.Pack
import Raids.Proof.Msg.RoundTrip

namespace Raids

/-- The memory behind a message has as many bytes and elements as its lengths count. -/
inductive RedisMsg.Counted : RedisMsg → Prop where
  | string (type : StringType) (len : Int) (strval : Bytes) (counted : len ≤ strval.length)
      (line : type ≠ .bulkString → 0 ≤ len) : Counted (.string type len strval)
  | integer (ival : Int) : Counted (.integer ival)
  | array (len : Int) (elems : List RedisMsg) (counted : len ≤ elems.length)
      (each : ∀ m ∈ elems, Counted m) : Counted (.array len elems)

/-- The bytes that are free behind a message: one behind a line, and two behind a nil string or an
array without elements. An array ends with its last element. -/
def RedisMsg.margin : RedisMsg → Nat
  | .string .bulkString len _ => if 0 ≤ len then 0 else 2
  | .string _ _ _ => 1
  | .integer _ => 0
  | .array len elems => marginArray len.toNat elems
where
  marginArray : Nat → List RedisMsg → Nat
    | k + 1, m :: ms => if k = 0 then m.margin else marginArray k ms
    | _, _ => 2

/-- A message is packed where it has room for its bytes and its margin. -/
def Packs (m : RedisMsg) (n : Nat) : Prop :=
  (m.packSize + m.margin ≤ n → m.pack2 n = (m.pack, none)) ∧
    (n < m.packSize + m.margin →
      (m.pack2 n).2 = some .partialValue ∧ (m.pack2 n).1.length ≤ n)

/-- The sizes of a message and its margin have these bounds. -/
structure Sized (m : RedisMsg) : Prop where
  length : m.pack.length = m.packSize
  three : 3 ≤ m.packSize
  margin : m.margin ≤ 2

theorem sized_elements {elems : List RedisMsg} (each : ∀ m ∈ elems, Sized m) (k : Nat)
    (enough : k ≤ elems.length) :
    (RedisMsg.pack.packArray k elems).length = RedisMsg.packSize.packSizeArray k elems ∧
      3 * k ≤ RedisMsg.packSize.packSizeArray k elems ∧
      RedisMsg.margin.marginArray k elems ≤ 2 := by
  induction elems generalizing k with
  | nil =>
      obtain rfl : k = 0 := Nat.le_zero.mp enough
      exact ⟨rfl, Nat.zero_le _, le_rfl⟩
  | cons m elems ih =>
      cases k with
      | zero => exact ⟨rfl, Nat.zero_le _, le_rfl⟩
      | succ k =>
          obtain ⟨length, three, margin⟩ := each m List.mem_cons_self
          obtain ⟨lengths, threes, margins⟩ :=
            ih (fun m member => each m (List.mem_cons_of_mem _ member)) k
              (Nat.le_of_succ_le_succ enough)
          rw [RedisMsg.pack.packArray, RedisMsg.packSize.packSizeArray,
            RedisMsg.margin.marginArray, List.length_append, length, lengths]
          refine ⟨rfl, by omega, ?_⟩
          split
          · exact margin
          · exact margins

theorem sized {m : RedisMsg} (counted : m.Counted) : Sized m := by
  induction counted with
  | string type len strval counted line =>
      have taken : (strval.take len.toNat).length = len.toNat := by
        rw [List.length_take]
        omega
      cases type with
      | bulkString =>
          by_cases filled : 0 ≤ len
          · exact ⟨by simp [RedisMsg.pack, RedisMsg.packSize, crlf, int64Digits_eq, filled]; omega,
              by simp [RedisMsg.packSize]; omega, by simp [RedisMsg.margin, filled]⟩
          · exact ⟨by simp [RedisMsg.pack, RedisMsg.packSize, crlf, int64Digits_eq, filled]; omega,
              by simp [RedisMsg.packSize, filled], by simp [RedisMsg.margin, filled]⟩
      | simpleString | errorString =>
          exact ⟨by simp [RedisMsg.pack, RedisMsg.packSize, crlf]; omega,
            by simp [RedisMsg.packSize], by simp [RedisMsg.margin]⟩
  | integer ival =>
      exact ⟨by simp [RedisMsg.pack, RedisMsg.packSize, crlf, int64Digits_eq]; omega,
        by simp [RedisMsg.packSize], Nat.zero_le 2⟩
  | array len elems counted each ih =>
      obtain ⟨lengths, threes, margins⟩ := sized_elements ih len.toNat (by omega)
      refine ⟨?_, by simp [RedisMsg.packSize]; omega, margins⟩
      simp [RedisMsg.pack, RedisMsg.packSize, crlf, int64Digits_eq, lengths]
      omega

/-- The elements are packed one behind the other, and each but the last leaves room enough. -/
theorem packs_elements {elems : List RedisMsg} (each : ∀ m ∈ elems, Sized m ∧ ∀ n, Packs m n)
    {k : Nat} (some : 0 < k) (enough : k ≤ elems.length) (n : Nat) :
    (RedisMsg.packSize.packSizeArray k elems + RedisMsg.margin.marginArray k elems ≤ n →
      RedisMsg.pack2.pack2Array k elems n = (RedisMsg.pack.packArray k elems, none)) ∧
    (n < RedisMsg.packSize.packSizeArray k elems + RedisMsg.margin.marginArray k elems →
      (RedisMsg.pack2.pack2Array k elems n).2 = Option.some .partialValue ∧
        (RedisMsg.pack2.pack2Array k elems n).1.length ≤ n) := by
  induction elems generalizing k n with
  | nil =>
      rw [List.length_nil] at enough
      omega
  | cons m elems ih =>
      obtain ⟨k, rfl⟩ : ∃ k', k = k' + 1 := ⟨k - 1, by omega⟩
      obtain ⟨⟨length, three, margin⟩, packs⟩ := each m List.mem_cons_self
      have enough' : k ≤ elems.length := Nat.le_of_succ_le_succ enough
      have rest := fun some n =>
        @ih (fun m member => each m (List.mem_cons_of_mem _ member)) k some enough' n
      obtain ⟨-, threes, -⟩ := sized_elements
        (fun m member => (each m (List.mem_cons_of_mem _ member)).1) k enough'
      rw [RedisMsg.pack2.pack2Array, RedisMsg.pack.packArray, RedisMsg.packSize.packSizeArray,
        RedisMsg.margin.marginArray]
      by_cases fits : m.packSize + m.margin ≤ n
      · rw [(packs n).1 fits]
        simp only [length]
        by_cases last : k = 0
        · subst last
          refine ⟨fun _ => by simp [RedisMsg.pack2.pack2Array, RedisMsg.pack.packArray],
            fun less => ?_⟩
          simp only [RedisMsg.packSize.packSizeArray, if_pos trivial] at less
          omega
        · rw [if_neg last]
          apply And.intro
          · intro room
            rw [(rest (Nat.pos_of_ne_zero last) _).1 (by omega)]
          · intro less
            obtain ⟨status, inside⟩ := (rest (Nat.pos_of_ne_zero last) (n - m.packSize)).2 (by omega)
            refine ⟨status, ?_⟩
            rw [List.length_append, length]
            omega
      · obtain ⟨status, inside⟩ := (packs n).2 (by omega)
        apply And.intro
        · intro room
          exfalso
          by_cases last : k = 0
          · subst last
            simp only [RedisMsg.packSize.packSizeArray, if_pos trivial] at room
            omega
          · omega
        · intro _
          cases packed : m.pack2 n with
          | mk bytes result =>
              rw [packed] at status inside
              obtain rfl : result = Option.some .partialValue := status
              exact ⟨rfl, inside⟩

theorem packs {m : RedisMsg} (counted : m.Counted) (n : Nat) : Packs m n := by
  induction counted generalizing n with
  | string type len strval counted line =>
      have taken : (strval.take len.toNat).length = len.toNat := by
        rw [List.length_take]
        omega
      cases type with
      | bulkString =>
          rw [Packs, RedisMsg.pack2, RedisMsg.pack, RedisMsg.packSize, RedisMsg.margin]
          by_cases filled : 0 ≤ len
          · simp only [if_pos filled]
            exact ⟨fun room => if_neg (by omega), fun less => by
              rw [if_pos (by omega)]
              exact ⟨rfl, Nat.zero_le n⟩⟩
          · simp only [if_neg filled]
            exact ⟨fun room => if_neg (by omega), fun less => by
              rw [if_pos (by omega)]
              exact ⟨rfl, Nat.zero_le n⟩⟩
      | simpleString | errorString =>
          simp only [Packs, RedisMsg.pack2, RedisMsg.pack, RedisMsg.packSize, RedisMsg.margin]
          exact ⟨fun room => if_neg (by omega), fun less => by
            rw [if_pos (by omega)]
            exact ⟨rfl, Nat.zero_le n⟩⟩
  | integer ival =>
      simp only [Packs, RedisMsg.pack2, RedisMsg.pack, RedisMsg.packSize, RedisMsg.margin]
      exact ⟨fun room => if_neg (by omega), fun less => by
        rw [if_pos (by omega)]
        exact ⟨rfl, Nat.zero_le n⟩⟩
  | array len elems counted each ih =>
      obtain ⟨-, threes, -⟩ := sized_elements (fun m member => sized (each m member)) len.toNat
        (by omega)
      have header : (arrayChar :: int64ToString len ++ crlf).length = int64Digits len + 3 := by
        simp [crlf, int64Digits_eq]
      simp only [Packs, RedisMsg.pack2, RedisMsg.pack, RedisMsg.packSize, RedisMsg.margin]
      by_cases some : 0 < len.toNat
      · obtain ⟨all, notAll⟩ := packs_elements
          (fun m member => ⟨sized (each m member), fun n => ih m member n⟩) some (by omega)
          (n - (int64Digits len + 3))
        by_cases less : n ≤ int64Digits len + 2 + len.toNat + 2
        · rw [if_pos less]
          exact ⟨fun room => by omega, fun _ => ⟨rfl, Nat.zero_le n⟩⟩
        · rw [if_neg less, header]
          apply And.intro
          · intro room
            rw [all (by omega)]
          · intro more
            obtain ⟨status, inside⟩ := notAll (by omega)
            refine ⟨status, ?_⟩
            rw [List.length_append, header]
            omega
      · have none : len.toNat = 0 := by omega
        rw [none]
        simp only [RedisMsg.pack2.pack2Array, RedisMsg.pack.packArray,
          RedisMsg.packSize.packSizeArray, RedisMsg.margin.marginArray]
        exact ⟨fun room => if_neg (by omega), fun less => by
          rw [if_pos (by omega)]
          exact ⟨rfl, Nat.zero_le n⟩⟩

/-- The bounded encoder writes what the other one writes where its size fits, and otherwise it
returns that the value is partial. It never writes at the end of the buffer. -/
def Pack2Meets (m : RedisMsg) (n : Nat) : Prop :=
  (m.packSize ≤ n → m.pack2 n = (m.pack, none)) ∧
    (n < m.packSize → (m.pack2 n).2 = some .partialValue) ∧ (m.pack2 n).1.length ≤ n

/-- The encoders agree unless the buffer ends inside the margin of the message. -/
theorem pack2_exact {m : RedisMsg} (counted : m.Counted) (n : Nat) :
    Pack2Meets m n ↔ n < m.packSize ∨ m.packSize + m.margin ≤ n := by
  obtain ⟨fits, less⟩ := packs counted n
  have length := (sized counted).length
  by_cases room : m.packSize + m.margin ≤ n
  · apply iff_of_true _ (Or.inr room)
    rw [Pack2Meets, fits room]
    exact ⟨fun _ => rfl, fun less => by omega, by rw [length]; omega⟩
  · obtain ⟨status, inside⟩ := less (by omega)
    apply Iff.intro
    · rintro ⟨packed, -, -⟩
      by_contra noRoom
      rw [packed (by omega)] at status
      cases status
    · intro holds
      exact ⟨fun fits => by omega, fun _ => status, inside⟩

/-- A bulk string of one byte has no margin. -/
theorem pack2_exact_byte : Pack2Meets (.string .bulkString 1 [97]) 7 :=
  (pack2_exact (.string .bulkString 1 [97] (by decide) (by decide)) 7).mpr (Or.inr (by decide))

/-- The line `+OK` does not fit in a buffer of its five bytes. -/
theorem not_pack2_exact : ¬Pack2Meets (.string .simpleString 2 [79, 75]) 5 := by
  rintro ⟨packed, -, -⟩
  have facts : (RedisMsg.string .simpleString 2 [79, 75]).packSize = 5 ∧
      ((RedisMsg.string .simpleString 2 [79, 75]).pack2 5).2 = some .partialValue := by decide
  rw [packed (by omega)] at facts
  exact absurd facts.2 (by decide)

end Raids
