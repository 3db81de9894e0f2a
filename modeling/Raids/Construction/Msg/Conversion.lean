import Raids.Construction.Msg.Json

namespace Raids
open Decimal

/-- A sum of 64 bits. Nothing stands for one that wraps. -/
def add64 (a b : Nat) : Option Nat := if a + b < 2 ^ 64 then some (a + b) else none

/-- A product of 64 bits. Nothing stands for one that wraps. -/
def mul64 (a b : Nat) : Option Nat := if a * b < 2 ^ 64 then some (a * b) else none

/-- The loop over the last `left` entries of the table reads one byte for each of them. Nothing stands
for a read outside of the text, outside of the table, or for a sum that wraps. -/
def windowLoop (str : Bytes) : Nat → Nat → Nat → Option (Except RedisMsgStatus Nat)
  | 0, _, _ => none
  | left + 1, j, n => do
      let c ← str[j]?
      if c < 48 ∨ 57 < c then some (.error .badInt)
      else
        let power ← pow10[maxPow10 - (left + 1)]?
        let n ← add64 n (← mul64 power (digitValue c))
        if left = 0 then some (.ok n) else windowLoop str left (j + 1) n

/-- The value of two windows. -/
def joinWindows (nn n : Nat) : Option Nat := do
  let first ← pow10[0]?
  add64 n (← mul64 (← mul64 10 first) nn)

/-- The two conversions read the same windows, the last one first. They differ in the number that is
stored and in the test for an overflow. -/
def convert {A : Type} (store : Bool → Nat → A)
    (test : Bool → Nat → Nat → Option (Except RedisMsgStatus A)) (str : Bytes) :
    Option (Except RedisMsgStatus A) :=
  if str.length = 0 then some (.error .badInt)
  else do
    let c ← str[0]?
    let neg := c == minus
    let start := if neg then 1 else 0
    let sz := str.length - start
    if sz = 0 then some (.error .badInt)
    else
      let i := if sz < maxPow10 then maxPow10 - sz else 0
      let j := if sz < maxPow10 then 0 else sz - maxPow10
      match ← windowLoop str (maxPow10 - i) (start + j) 0 with
      | .error status => some (.error status)
      | .ok n =>
          if j = 0 then some (.ok (store neg n))
          else if maxPow10 < j then some (.error .intOverflow)
          else
            match ← windowLoop str (maxPow10 - (maxPow10 - j)) start 0 with
            | .error status => some (.error status)
            | .ok nn => test neg nn n

/-- A number is stored as a signed one, and its sign is applied last. -/
def storeInt (neg : Bool) (n : Nat) : Int := if neg then -toInt64 n else toInt64 n

def intTest (neg : Bool) (nn n : Nat) : Option (Except RedisMsgStatus Int) :=
  if 922337203 < nn ∨ (nn = 922337203 ∧ 6854775807 < n) then
    if neg ∧ nn = 922337203 ∧ n = 6854775808 then some (.ok (-2 ^ 63))
    else some (.error .intOverflow)
  else (joinWindows nn n).map fun n => .ok (storeInt neg n)

/-- The conversion of a text to a signed number. -/
def stringToInt64 : Bytes → Option (Except RedisMsgStatus Int) := convert storeInt intTest

/-- A negative number keeps its two's complement. -/
def storeUint (neg : Bool) (n : Nat) : Nat := if neg then (-toInt64 n % 2 ^ 64).toNat else n

def uintTest (neg : Bool) (nn n : Nat) : Option (Except RedisMsgStatus Nat) :=
  if neg then
    if 922337203 < nn ∨ (nn = 922337203 ∧ 6854775807 < n) then
      if neg ∧ nn = 922337203 ∧ n = 6854775808 then some (.ok (2 ^ 63))
      else some (.error .intOverflow)
    else (joinWindows nn n).map fun n => .ok (storeUint neg n)
  else if 1844674407 < nn ∨ (nn = 1844674407 ∧ 3709551615 < n) then some (.error .intOverflow)
  else (joinWindows nn n).map fun n => .ok (storeUint neg n)

/-- The conversion of a text to an unsigned number. -/
def stringToUint64 : Bytes → Option (Except RedisMsgStatus Nat) := convert storeUint uintTest

end Raids
