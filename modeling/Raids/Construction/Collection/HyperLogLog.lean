import Raids.Library.Memory

namespace Raids.Hll
open Window

/-- A register has six bits. -/
def lzBits : Nat := 6

def lzMask : BitVec 16 := 63

/-- The number of leading zeros of a word, and the table of the sums of an estimate. -/
structure HllLib (D : Type) where
  clzl : BitVec 64 → Nat
  lzSum : Nat → D

/-- A counter of distinct hashes: the number of its registers that are used, the sum of its estimate,
and the packed registers with the memory behind them. -/
structure HyperLogLog (D : Type) where
  popcnt : Nat
  sum : D
  ht : Memory

section Registers

variable {D : Type} [Zero D] [Add D] [Sub D] (htBits : Nat) (lib : HllLib D)

/-- The number of the registers. -/
def htsz : Nat := 2 ^ htBits

/-- The bytes of the registers. -/
def htBytes : Nat := (htsz htBits * lzBits + 7) / 8

/-- All registers are zero. -/
def init (memory : Memory) : HyperLogLog D where
  popcnt := 0
  sum := 0
  ht := fun k => if k < htBytes htBits then 0 else memory k

/-- The bits of a hash behind the number of its register. -/
def lzwd (h : BitVec 64) : BitVec 64 := (h &&& BitVec.ofNat 64 (2 ^ (64 - htBits) - 1)) >>> htBits

/-- The bit position of the register of a hash. -/
def position (h : BitVec 64) : Nat :=
  (h &&& BitVec.ofNat 64 (htsz htBits - 1)).toNat * lzBits % 2 ^ 32

/-- The value of a hash for its register. The bits of the table do not count. -/
def leadingZeros (h : BitVec 64) : BitVec 16 :=
  BitVec.ofNat 16 (lib.clzl (lzwd htBits h) + 1) -
    BitVec.ofNat 16 (64 + htBits - (64 - htBits))

/-- A register is the maximum of the values of its hashes. The result is one if it grows. -/
def add (x : HyperLogLog D) (h : BitVec 64) : Nat × HyperLogLog D :=
  let reg := position htBits h
  let off := reg / 8
  let shft := reg % 8
  let hv : BitVec 16 := load x.ht 2 off
  let m := ~~~(lzMask <<< shft) &&& hv
  let v := (hv >>> shft) &&& lzMask
  let lz := leadingZeros htBits lib h
  let w := if lz < v then v else lz
  if v = w then (0, x)
  else
    (1, { popcnt := if v = 0 then x.popcnt + 1 else x.popcnt
          sum := x.sum + (lib.lzSum w.toNat - lib.lzSum v.toNat)
          ht := store x.ht 2 off (m ||| (w <<< shft)) })

/-- A hash may have been added if its register is not below its value. -/
def test (x : HyperLogLog D) (h : BitVec 64) : Bool :=
  let reg := position htBits h
  let hv : BitVec 16 := load x.ht 2 (reg / 8)
  let v := (hv >>> (reg % 8)) &&& lzMask
  leadingZeros htBits lib h ≤ v

/-- The registers of two words of 64 bits are compared one by one, and the words are loaded again when
they have less than a register left. -/
def mergeLoop (ht : Memory) :
    Nat → Nat → BitVec 64 → BitVec 64 → Nat → HyperLogLog D → HyperLogLog D
  | 0, _, _, _, _, x => x
  | left + 1, reg, hbits, mbits, bitsleft, this =>
      let off := reg / 8
      let shft := reg % 8
      let loads := bitsleft < lzBits
      let hbits := if loads then (load ht 8 off : BitVec 64) >>> shft else hbits
      let mbits := if loads then (load this.ht 8 off : BitVec 64) >>> shft else mbits
      let bitsleft := if loads then 64 - shft else bitsleft
      let x := hbits.setWidth 16 &&& lzMask
      let y := mbits.setWidth 16 &&& lzMask
      let this :=
        if y < x then
          let hv : BitVec 16 := load this.ht 2 off
          { popcnt := if y = 0 then this.popcnt + 1 else this.popcnt
            sum := this.sum + (lib.lzSum x.toNat - lib.lzSum y.toNat)
            ht := store this.ht 2 off ((~~~(lzMask <<< shft) &&& hv) ||| (x <<< shft)) }
        else this
      mergeLoop ht left (reg + lzBits) (hbits >>> lzBits) (mbits >>> lzBits) (bitsleft - lzBits) this

/-- Another counter is merged into one. -/
def merge (this hll : HyperLogLog D) : HyperLogLog D :=
  mergeLoop lib hll.ht (htsz htBits) 0 0 0 0 this

end Registers

end Raids.Hll
