import Mathlib.Data.List.Basic
import Mathlib.Data.BitVec
import Mathlib.Tactic

namespace Buffer

variable {β : Type*}

/-- Data is written into a buffer at an offset. Nothing stands for a write behind its end. -/
def put (buf : List β) (off : Nat) (data : List β) : Option (List β) :=
  if off + data.length ≤ buf.length then
    some (buf.take off ++ data ++ buf.drop (off + data.length))
  else none

/-- Several writes follow each other. -/
def putAll (buf : List β) (off : Nat) : List (List β) → Option (List β)
  | [] => some buf
  | data :: rest => (put buf off data).bind fun buf => putAll buf (off + data.length) rest

/-- A write keeps what is in front of it. -/
theorem put_append (front back data : List β) :
    put (front ++ back) front.length data =
      if data.length ≤ back.length then some (front ++ data ++ back.drop data.length) else none := by
  rw [put, List.length_append]
  by_cases fits : data.length ≤ back.length
  · rw [if_pos (by omega), if_pos fits, List.take_left, List.drop_append,
      List.drop_of_length_le (by omega), List.nil_append, Nat.add_sub_cancel_left]
  · rw [if_neg (by omega), if_neg fits]

/-- The writes fit together if all of their data does. -/
theorem putAll_append (front back : List β) (words : List (List β)) :
    putAll (front ++ back) front.length words =
      if words.flatten.length ≤ back.length then
        some (front ++ words.flatten ++ back.drop words.flatten.length)
      else none := by
  induction words generalizing front back with
  | nil => simp [putAll]
  | cons data words ih =>
      rw [putAll, put_append, List.flatten_cons, List.length_append]
      by_cases fits : data.length ≤ back.length
      · rw [if_pos fits, Option.bind_some, ← List.length_append, ih, List.length_drop]
        by_cases all : data.length + words.flatten.length ≤ back.length
        · rw [if_pos (by omega), if_pos all, List.drop_drop, List.append_assoc front]
        · rw [if_neg (by omega), if_neg all]
      · rw [if_neg fits, if_neg (by omega), Option.bind_none]

end Buffer

namespace Window

/-- A memory has a byte at each address. -/
abbrev Memory := Nat → UInt8

/-- The bits of a memory are numbered from the low bit of its first byte. -/
def bit (mem : Memory) (k : Nat) : Bool := (mem (k / 8)).toBitVec.getLsbD (k % 8)

/-- The bytes from an address on as one word, the low byte first. -/
def load (mem : Memory) : (n : Nat) → Nat → BitVec (8 * n)
  | 0, _ => 0#0
  | n + 1, off => (load mem n (off + 1) ++ (mem off).toBitVec : BitVec (8 * n + 8))

/-- A word is written from an address on, the low byte first. -/
def store (mem : Memory) (n off : Nat) (word : BitVec (8 * n)) : Memory := fun k =>
  if off ≤ k ∧ k < off + n then UInt8.ofBitVec (word.extractLsb' (8 * (k - off)) 8) else mem k

/-- A word has the bits of its bytes. -/
theorem getLsbD_load (mem : Memory) (n off j : Nat) :
    (load mem n off).getLsbD j = (decide (j < 8 * n) && bit mem (8 * off + j)) := by
  induction n generalizing off j with
  | zero => simp [load]
  | succ n ih =>
      rw [load, BitVec.getLsbD_append]
      by_cases low : j < 8
      · have inside : j < 8 * (n + 1) := by omega
        rw [if_pos low, decide_eq_true inside, Bool.true_and, bit,
          show (8 * off + j) / 8 = off by omega, show (8 * off + j) % 8 = j by omega]
      · have same : j - 8 < 8 * n ↔ j < 8 * (n + 1) := by omega
        rw [if_neg low, ih, decide_eq_decide.mpr same,
          show 8 * (off + 1) + (j - 8) = 8 * off + j by omega]

/-- A write changes the bits of its word. -/
theorem bit_store (mem : Memory) (n off : Nat) (word : BitVec (8 * n)) (k : Nat) :
    bit (store mem n off word) k =
      if 8 * off ≤ k ∧ k < 8 * off + 8 * n then word.getLsbD (k - 8 * off) else bit mem k := by
  rw [bit, store]
  by_cases inside : off ≤ k / 8 ∧ k / 8 < off + n
  · have low : k % 8 < 8 := by omega
    rw [if_pos inside, if_pos (by omega), UInt8.toBitVec_ofBitVec, BitVec.getLsbD_extractLsb',
      decide_eq_true low, Bool.true_and, show 8 * (k / 8 - off) + k % 8 = k - 8 * off by omega]
  · rw [if_neg inside, if_neg (by omega), bit]

end Window
