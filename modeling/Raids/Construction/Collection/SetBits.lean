import Mathlib.Data.Nat.Size
import Mathlib.Data.BitVec

namespace Raids

/-- The bits of a set of offsets. The words past the last one are not cleared yet, and only the
words below the size are allocated. -/
structure SetBits where
  last : Nat
  size : Nat
  bits : Nat → BitVec 64

namespace SetBits

/-- The first word of the 16 words of static bits is cleared. -/
def init (memory : Nat → BitVec 64) : SetBits :=
  { last := 0, size := 16, bits := fun k => if k = 0 then 0 else memory k }

/-- Only the first word is left, without bits. -/
def reset (s : SetBits) : SetBits :=
  { s with last := 0, bits := fun k => if k = 0 then 0 else s.bits k }

/-- A number of words that is no power of two is rounded up to one. -/
def allocSize (sz : Nat) : Nat :=
  if sz &&& (sz - 1) ≠ 0 then 1 <<< sz.size else sz

/-- The words move to the heap when it has a block for them. -/
def alloc (heap : Nat → Bool) (s : SetBits) (sz : Nat) : Bool × SetBits :=
  if heap (allocSize sz) then (true, { s with size := allocSize sz }) else (false, s)

/-- The words behind the last one are cleared up to the offset. Without a result a word outside the
allocation is written. -/
def clearWords (s : SetBits) (off : Nat) : Option SetBits :=
  if s.last < off then
    if off < s.size then
      some { s with last := off, bits := fun k => if s.last < k ∧ k ≤ off then 0 else s.bits k }
    else none
  else some s

/-- The bits are cleared up to a word. -/
def extend (heap : Nat → Bool) (s : SetBits) (off : Nat) : Option (Bool × SetBits) :=
  let (granted, s) := if s.size ≤ off then s.alloc heap off else (true, s)
  if granted then (s.clearWords off).map (true, ·) else some (false, s)

/-- The word with only the bit of an offset. -/
def mask (j : Nat) : BitVec 64 := 1#64 <<< (j % 64)

/-- A bit is tested and then set. -/
def testSet (heap : Nat → Bool) (s : SetBits) (j : Nat) : Option (Bool × SetBits) := do
  let off := j / 64
  let (extended, s) ← s.extend heap off
  if !extended then
    return (false, s)
  if s.bits off &&& mask j ≠ 0 then
    return (true, s)
  return (false, { s with bits := Function.update s.bits off (s.bits off ||| mask j) })

/-- A bit is set. -/
def set (heap : Nat → Bool) (s : SetBits) (j : Nat) : Option (Bool × SetBits) := do
  let off := j / 64
  let (extended, s) ← s.extend heap off
  if !extended then
    return (false, s)
  return (true, { s with bits := Function.update s.bits off (s.bits off ||| mask j) })

/-- The complement of the word `k`, and in the last one only of its bits below `upto`. -/
def flipWord (upto k : Nat) (w : BitVec 64) : BitVec 64 :=
  if upto < (k + 1) * 64 then ~~~w &&& ((1#64 <<< (upto % 64)) - 1#64) else ~~~w

/-- All bits below `upto` are complemented. Without a result an `int` is shifted out of its range,
or a word outside the allocation is written. -/
def flip (heap : Nat → Bool) (s : SetBits) (upto : Nat) : Option (Bool × SetBits) := do
  let (extended, s) ← s.extend heap (upto / 64)
  if !extended then
    return (false, s)
  if 31 ≤ upto % 64 then
    none
  else
    return (true, { s with
      bits := fun k => if k * 64 < upto then flipWord upto k (s.bits k) else s.bits k })

/-- The position of the lowest bit of a word, counted from one. -/
def ffsl (w : BitVec 64) : Nat := if w = 0 then 0 else w.ctz.toNat + 1

/-- The number of zeros above the highest bit of a word. -/
def clzl (w : BitVec 64) : Nat := w.clz.toNat

/-- The words are read from the one of an offset on. -/
def nextWord (s : SetBits) (k j : Nat) : Bool × Nat :=
  let x := ffsl (s.bits k >>> (j % 64))
  if x = 0 then
    if s.last < k + 1 then (false, (k + 1) * 64) else nextWord s (k + 1) ((k + 1) * 64)
  else (true, j + (x - 1))
termination_by s.last - k

/-- The offset moves to the first bit at it or behind it. -/
def next (s : SetBits) (j : Nat) : Bool × Nat :=
  if s.last < j / 64 then (false, j) else s.nextWord (j / 64) j

/-- The words are read down from the one before an offset. -/
def prevWord (s : SetBits) (k j : Nat) : Bool × Nat :=
  let w := if 0 < j % 64 then s.bits k <<< (64 - j % 64) else s.bits k
  if w = 0 then
    match k with
    | 0 => (false, j)
    | k + 1 => prevWord s k ((k + 1) * 64)
  else (true, j - (clzl w + 1))

/-- The offset moves to the last bit before it. -/
def prev (s : SetBits) (j : Nat) : Bool × Nat :=
  if j = 0 then (false, j)
  else if s.last < (j - 1) / 64 then s.prevWord s.last (s.last * 64 + 64)
  else s.prevWord ((j - 1) / 64) j

/-- The operations on the bits. -/
inductive Op where
  | set (j : Nat)
  | testSet (j : Nat)
  | reset
  | flip (upto : Nat)
  | next (j : Nat)
  | prev (j : Nat)

/-- An operation answers whether it works or finds its bit, or where a bit is. -/
inductive Answer where
  | found (isFound : Bool)
  | bitAt (position : Option Nat)

/-- The offset of a bit that is found. -/
def position : Bool × Nat → Option Nat
  | (true, j) => some j
  | (false, _) => none

/-- The bits and the answer after an operation. -/
def apply (heap : Nat → Bool) (s : SetBits) : Op → Option (Answer × SetBits)
  | .set j => (s.set heap j).map fun (isFound, s) => (.found isFound, s)
  | .testSet j => (s.testSet heap j).map fun (isFound, s) => (.found isFound, s)
  | .reset => some (.found true, s.reset)
  | .flip upto => (s.flip heap upto).map fun (isFound, s) => (.found isFound, s)
  | .next j => some (.bitAt (position (s.next j)), s)
  | .prev j => some (.bitAt (position (s.prev j)), s)

end SetBits

end Raids
