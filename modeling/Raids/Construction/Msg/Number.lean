import Raids.Construction.Msg.Basic
import Raids.Library.Decimal

namespace Raids
open Decimal

/-- The sign of a negative number. -/
def minus : UInt8 := 45

/-- The digit count divides by ten thousand in each round. -/
def uintDigitsFrom : Nat → Nat → Nat → Nat
  | 0, _, n => n
  | fuel + 1, v, n =>
      if v < 10 then n
      else if v < 100 then n + 1
      else if v < 1000 then n + 2
      else if v < 10000 then n + 3
      else uintDigitsFrom fuel (v / 10000) (n + 4)

def uint64Digits (v : Nat) : Nat := uintDigitsFrom (v + 1) v 1

/-- A minus sign takes one more byte. -/
def int64Digits (v : Int) : Nat :=
  if v < 0 then 1 + uint64Digits v.natAbs else uint64Digits v.natAbs

def uint64ToString (v : Nat) : Bytes := decimal v

/-- The library prints the canonical decimal of every int64. -/
def int64ToString (v : Int) : Bytes :=
  if v < 0 then minus :: uint64ToString v.natAbs else uint64ToString v.natAbs

/-- The table of the powers of ten that fit in 32 bits. -/
def pow10 : List Nat :=
  [1000000000, 100000000, 10000000, 1000000, 100000, 10000, 1000, 100, 10, 1]

def maxPow10 : Nat := 10

/-- The window adds digits from table entry `i` to the end of the table. -/
def pow10Window (i n : Nat) : Bytes → Option Nat
  | [] => none
  | c :: str =>
      if ¬IsDigit c then none
      else
        let n := n + pow10.getD i 0 * digitValue c
        if i + 1 = maxPow10 then some n else pow10Window (i + 1) n str

/-- The sign is applied last. -/
def signed (neg : Bool) (n : Nat) : Int := if neg then -(n : Int) else n

/-- The last ten digits and the ten digits before them are summed in two windows. -/
def stringToInt (str : Bytes) : Except RedisMsgStatus Int :=
  if str.isEmpty then .error .badInt
  else
    let neg := str.head? == some minus
    let digits := if neg then str.tail else str
    if digits.isEmpty then .error .badInt
    else
      let sz := digits.length
      let i := if sz < maxPow10 then maxPow10 - sz else 0
      let j := if sz < maxPow10 then 0 else sz - maxPow10
      match pow10Window i 0 (digits.drop j) with
      | none => .error .badInt
      | some n =>
          if j = 0 then .ok (signed neg n)
          else if maxPow10 < j then .error .intOverflow
          else
            match pow10Window (maxPow10 - j) 0 digits with
            | none => .error .badInt
            | some nn =>
                if 922337203 < nn ∨ (nn = 922337203 ∧ 6854775807 < n) then
                  if neg ∧ nn = 922337203 ∧ n = 6854775808 then .ok (-2 ^ 63)
                  else .error .intOverflow
                else .ok (signed neg (n + 10 * pow10.getD 0 0 * nn))

/-- The unsigned reader has the bound of an int64 for a negative number only. -/
def uintOverflow (neg : Bool) (nn n : Nat) : Bool :=
  if neg then 922337203 < nn ∨ (nn = 922337203 ∧ 6854775807 < n)
  else 1844674407 < nn ∨ (nn = 1844674407 ∧ 3709551615 < n)

/-- A negative number keeps its two's complement. -/
def unsigned (neg : Bool) (n : Nat) : Nat := if neg then (2 ^ 64 - n) % 2 ^ 64 else n

/-- The same two windows as for a signed number. -/
def stringToUint (str : Bytes) : Except RedisMsgStatus Nat :=
  if str.isEmpty then .error .badInt
  else
    let neg := str.head? == some minus
    let digits := if neg then str.tail else str
    if digits.isEmpty then .error .badInt
    else
      let sz := digits.length
      let i := if sz < maxPow10 then maxPow10 - sz else 0
      let j := if sz < maxPow10 then 0 else sz - maxPow10
      match pow10Window i 0 (digits.drop j) with
      | none => .error .badInt
      | some n =>
          if j = 0 then .ok (unsigned neg n)
          else if maxPow10 < j then .error .intOverflow
          else
            match pow10Window (maxPow10 - j) 0 digits with
            | none => .error .badInt
            | some nn =>
                if uintOverflow neg nn n then
                  if neg ∧ nn = 922337203 ∧ n = 6854775808 then .ok (2 ^ 63)
                  else .error .intOverflow
                else .ok (unsigned neg (n + 10 * pow10.getD 0 0 * nn))

/-- The length of a message keeps the low 32 bits of the number. -/
def strToInt32 (str : Bytes) : Except RedisMsgStatus Int :=
  (stringToInt str).map toInt32

end Raids
