import Raids.Construction.Msg.Number
import Raids.Library.IncrementalParser

namespace Raids
open IncrementalParser

/-- The scratch memory grants or refuses a request by its size. -/
abbrev ScratchMem := Nat → Bool

/-- The structure holds two 32 bit fields and one 64 bit union. -/
def sizeofRedisMsg : Nat := 16

/-- The skip before a message compares unsigned bytes. -/
def IsSpace (c : UInt8) : Prop := c ≤ 32

instance (c : UInt8) : Decidable (IsSpace c) := inferInstanceAs (Decidable (_ ≤ _))

/-- The split of a line compares signed bytes, so the upper half also separates. -/
def IsSeparator (c : UInt8) : Prop := c ≤ 32 ∨ 128 ≤ c

instance (c : UInt8) : Decidable (IsSeparator c) := inferInstanceAs (Decidable (_ ∨ _))

/-- The search returns the bytes before the first newline. -/
def findNewline : Bytes → Option Bytes
  | [] => none
  | c :: rest => if c = lf then some [] else (findNewline rest).map (c :: ·)

def mkStr (strval : Bytes) : RedisMsg := .string .bulkString (toInt32 strval.length) strval

/-- The loop starts at the first byte of a word; `cnt` words came before it. -/
def splitWords (wrk : ScratchMem) : Nat → Nat → Bytes → Except RedisMsgStatus (List RedisMsg)
  | fuel + 1, cnt, first :: rest =>
      let word := first :: rest.takeWhile (¬IsSeparator ·)
      let ptr := (rest.dropWhile (¬IsSeparator ·)).dropWhile (IsSeparator ·)
      if ptr.isEmpty then .ok [mkStr word]
      else if (cnt + 1) % 4 = 0 ∧ ¬wrk (sizeofRedisMsg * (cnt + 1 + 4)) then .error .allocFail
      else (splitWords wrk fuel (cnt + 1) ptr).map (mkStr word :: ·)
  | _, _, _ => .ok []

/-- An inline command becomes an array of bulk strings. -/
def split (wrk : ScratchMem) (strval : Bytes) : Except RedisMsgStatus RedisMsg :=
  if ¬wrk (sizeofRedisMsg * 4) then .error .allocFail
  else
    let ptr := strval.dropWhile (IsSeparator ·)
    (splitWords wrk ptr.length 0 ptr).map fun words => .array (toInt32 words.length) words

/-- A bulk string may arrive before its line end does. -/
def skipCrlf (ptr : Bytes) (j : Nat) : Nat :=
  let j := if ptr[j]? = some cr then j + 1 else j
  if ptr[j]? = some lf then j + 1 else j

/-- The elements follow each other; the message needs at least one byte for the next one. -/
def unpackArray (unpack : Bytes → Except RedisMsgStatus (RedisMsg × Nat)) (ptr : Bytes) :
    Nat → Nat → Except RedisMsgStatus (List RedisMsg × Nat)
  | 0, j => .ok ([], j)
  | k + 1, j =>
      if ptr.length ≤ j then .error .partialValue
      else
        match unpack (ptr.drop j) with
        | .error status => .error status
        | .ok (m, tmp) =>
            (unpackArray unpack ptr k (j + tmp)).map fun (ms, j) => (m :: ms, j)

/-- The line ends with a newline or with a return and a newline. -/
def argLength (line : Bytes) : Nat :=
  if line.getLast? = some cr then line.length - 1 else line.length

/-- The message at `ptr` starts with this line; `unpack` reads the elements of an array. -/
def unpackLine (wrk : ScratchMem) (unpack : Bytes → Except RedisMsgStatus (RedisMsg × Nat))
    (ptr line : Bytes) : Except RedisMsgStatus (RedisMsg × Nat) :=
  let type := ptr.headD 0
  let bsz := ptr.length
  let j := line.length + 2
  let i := argLength line
  let arg := line.take i
  if type = StringType.char .bulkString then
    match strToInt32 arg with
    | .error status => .error status
    | .ok len =>
        if 0 < len then
          if bsz < j + len.toNat then .error .partialValue
          else .ok (.string .bulkString len ((ptr.drop j).take len.toNat),
            skipCrlf ptr (j + len.toNat))
        else .ok (.string .bulkString len [], if 0 ≤ len then skipCrlf ptr j else j)
  else if type = arrayChar then
    match strToInt32 arg with
    | .error status => .error status
    | .ok len =>
        if 0 < len then
          if ¬wrk (sizeofRedisMsg * len.toNat) then .error .allocFail
          else (unpackArray unpack ptr len.toNat j).map fun (elems, j) => (.array len elems, j)
        else .ok (.array len [], j)
  else if type = integerChar then
    (stringToInt arg).map fun ival => (.integer ival, j)
  else if type = StringType.char .simpleString then
    .ok (.string .simpleString (toInt32 i) (arg.take (toInt32 i).toNat), j)
  else if type = StringType.char .errorString then
    .ok (.string .errorString (toInt32 i) (arg.take (toInt32 i).toNat), j)
  else
    (split wrk ((type :: arg).take (toInt32 (i + 1)).toNat)).map fun m => (m, j)

/-- The fuel bounds the nesting depth of the arrays. -/
def unpackFuel (wrk : ScratchMem) : Nat → Bytes → Except RedisMsgStatus (RedisMsg × Nat)
  | 0, _ => .error .partialValue
  | fuel + 1, buf =>
      let off := (buf.takeWhile (IsSpace ·)).length
      let ptr := buf.drop off
      match findNewline ptr.tail with
      | none => .error .partialValue
      | some line =>
          (unpackLine wrk (unpackFuel wrk fuel) ptr line).map fun (m, j) => (m, j + off)

/-- Each nested array takes at least two bytes of its own. -/
def unpack (wrk : ScratchMem) (buf : Bytes) : Except RedisMsgStatus (RedisMsg × Nat) :=
  unpackFuel wrk (buf.length + 1) buf

/-- A partial value waits for more data; another failure is a protocol error. -/
def attempt (wrk : ScratchMem) (buf : Bytes) : Attempt RedisMsg RedisMsgStatus :=
  match unpack wrk buf with
  | .ok (m, buflen) => .item m buflen
  | .error .partialValue => .more
  | .error status => .fail status

/-- The service takes messages from the buffer until it is empty or partial, and ignores the
rest of the buffer after a protocol error. -/
def process (wrk : ScratchMem) (recv : Bytes) : List (Event RedisMsg RedisMsgStatus) × Bytes :=
  drain (attempt wrk) recv

/-- The service reads the stream chunk by chunk. -/
def receive (wrk : ScratchMem) (chunks : List Bytes) : List (Event RedisMsg RedisMsgStatus) :=
  feed (attempt wrk) [] chunks

open Decimal

/-- The bytes behind a pointer; a byte at or past the given length is not known. -/
abbrev Reach := List (Option UInt8)

/-- The window stops at the first byte that is not a digit. -/
def pow10WindowAt (i n : Nat) : Reach → Option (Option Nat)
  | some c :: str =>
      if ¬IsDigit c then some none
      else
        let n := n + pow10.getD i 0 * digitValue c
        if i + 1 = maxPow10 then some (some n) else pow10WindowAt (i + 1) n str
  | _ => none

/-- The two windows have no result where they read a byte that is not known. -/
def digitsToIntAt (neg : Bool) (digits : Reach) : Option (Except RedisMsgStatus Int) :=
  if digits.isEmpty then some (.error .badInt)
  else
    let sz := digits.length
    let i := if sz < maxPow10 then maxPow10 - sz else 0
    let j := if sz < maxPow10 then 0 else sz - maxPow10
    match pow10WindowAt i 0 (digits.drop j) with
    | none => none
    | some none => some (.error .badInt)
    | some (some n) =>
        if j = 0 then some (.ok (signed neg n))
        else if maxPow10 < j then some (.error .intOverflow)
        else
          match pow10WindowAt (maxPow10 - j) 0 digits with
          | none => none
          | some none => some (.error .badInt)
          | some (some nn) =>
              if 922337203 < nn ∨ (nn = 922337203 ∧ 6854775807 < n) then
                if neg ∧ nn = 922337203 ∧ n = 6854775808 then some (.ok (-2 ^ 63))
                else some (.error .intOverflow)
              else some (.ok (signed neg (n + 10 * pow10.getD 0 0 * nn)))

/-- The first byte tells the sign. -/
def stringToIntAt : Reach → Option (Except RedisMsgStatus Int)
  | [] => some (.error .badInt)
  | none :: _ => none
  | some c :: str =>
      if c = minus then digitsToIntAt true str else digitsToIntAt false (some c :: str)

/-- The chars of the line and the chars to its end; the end of the buffer also ends a line. -/
def lineEnd2 (ptr : Bytes) : Nat × Nat :=
  match findNewline ptr.tail with
  | none => (ptr.length, ptr.length)
  | some line =>
      if line.getLast? = some cr then (line.length - 1, line.length + 2)
      else (line.length, line.length + 1)

/-- The split reads its bytes in order, so a failed allocation can stop it before the end. -/
def splitAt (wrk : ScratchMem) (ptr : Bytes) (len : Nat) : Option (Except RedisMsgStatus RedisMsg) :=
  if len ≤ ptr.length then some (split wrk (ptr.take len))
  else
    match split wrk ptr with
    | .error status => some (.error status)
    | .ok _ => none

/-- The message at `ptr` starts with `type`; the byte behind the buffer is `beyond`. -/
def unpack2Line (wrk : ScratchMem) (beyond type : UInt8) (ptr : Bytes) :
    Option (Except RedisMsgStatus RedisMsg) :=
  let bsz := ptr.length
  let i := (lineEnd2 ptr).1
  let j := (lineEnd2 ptr).2
  let arg := (ptr.tail.map some ++ [none]).take i
  if type = StringType.char .bulkString then
    match stringToIntAt arg with
    | none => none
    | some (.error status) => some (.error status)
    | some (.ok ival) =>
        let len := toInt32 ival
        if 0 < len then
          if bsz < j + len.toNat then some (.error .partialValue)
          else some (.ok (.string .bulkString len ((ptr.drop j).take len.toNat)))
        else some (.ok (.string .bulkString len []))
  else if type = arrayChar then
    match stringToIntAt arg with
    | none => none
    | some (.error status) => some (.error status)
    | some (.ok ival) =>
        let len := toInt32 ival
        if 0 < len then
          if ¬wrk (sizeofRedisMsg * len.toNat) then some (.error .allocFail)
          else some ((unpackArray (unpack wrk) ptr len.toNat j).map fun (elems, _) =>
            .array len elems)
        else some (.ok (.array len []))
  else if type = integerChar then
    (stringToIntAt arg).map fun result => result.map .integer
  else if type = StringType.char .simpleString then
    some (.ok (.string .simpleString (toInt32 i) ((ptr.tail ++ [beyond]).take (toInt32 i).toNat)))
  else if type = StringType.char .errorString then
    some (.ok (.string .errorString (toInt32 i) ((ptr.tail ++ [beyond]).take (toInt32 i).toNat)))
  else splitAt wrk ptr (toInt32 (i + 1)).toNat

/-- The second parser has no result where it reads a byte at or past the given length. -/
def unpack2 (wrk : ScratchMem) (beyond : UInt8) (buf : Bytes) :
    Option (Except RedisMsgStatus RedisMsg) :=
  match buf.dropWhile (IsSpace ·) with
  | [] => none
  | type :: tail => unpack2Line wrk beyond type (type :: tail)

end Raids
