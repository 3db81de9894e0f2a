import Mathlib.Tactic

namespace Raids

abbrev Bytes := List UInt8

/-- The carriage return. -/
def cr : UInt8 := 13

/-- The line feed. -/
def lf : UInt8 := 10

/-- The type characters of the three messages that hold a string. -/
inductive StringType where
  | bulkString
  | simpleString
  | errorString
  deriving DecidableEq, Repr

def StringType.char : StringType → UInt8
  | .bulkString => 36
  | .simpleString => 43
  | .errorString => 45

/-- The type characters of arrays and integers. -/
def arrayChar : UInt8 := 42

def integerChar : UInt8 := 58

/-- A message has a type, an int32 length and one of three payloads.
A negative length marks a nil string or a null array. -/
inductive RedisMsg where
  | string (type : StringType) (len : Int) (strval : Bytes)
  | integer (ival : Int)
  | array (len : Int) (array : List RedisMsg)
  deriving Repr, Inhabited

/-- The failures of `ds_msg_status_t`. -/
inductive RedisMsgStatus where
  | intOverflow
  | badInt
  | floatOverflow
  | badFloat
  | badType
  | partialValue
  | allocFail
  | badJson
  deriving DecidableEq, Repr

/-- The conversion to a signed 32 bit integer keeps the low bits. -/
def toInt32 (i : Int) : Int := i.bmod (2 ^ 32)

theorem toInt32_of_bounds {i : Int} (lower : -2 ^ 31 ≤ i) (upper : i < 2 ^ 31) :
    toInt32 i = i := by
  rw [toInt32, Int.bmod_eq_of_le] <;> omega

mutual

/-- Two messages are the same when all their fields are. -/
def RedisMsg.decEq : (first second : RedisMsg) → Decidable (first = second)
  | .string type len strval, .string type' len' strval' =>
      decidable_of_iff (type = type' ∧ len = len' ∧ strval = strval') (by simp)
  | .integer ival, .integer ival' => decidable_of_iff (ival = ival') (by simp)
  | .array len elems, .array len' elems' =>
      haveI := RedisMsg.decEqList elems elems'
      decidable_of_iff (len = len' ∧ elems = elems') (by simp)
  | .string .., .integer .. => isFalse (by simp)
  | .string .., .array .. => isFalse (by simp)
  | .integer .., .string .. => isFalse (by simp)
  | .integer .., .array .. => isFalse (by simp)
  | .array .., .string .. => isFalse (by simp)
  | .array .., .integer .. => isFalse (by simp)

def RedisMsg.decEqList : (first second : List RedisMsg) → Decidable (first = second)
  | [], [] => isTrue rfl
  | [], _ :: _ => isFalse (by simp)
  | _ :: _, [] => isFalse (by simp)
  | m :: ms, m' :: ms' =>
      haveI := RedisMsg.decEq m m'
      haveI := RedisMsg.decEqList ms ms'
      decidable_of_iff (m = m' ∧ ms = ms') (by simp)

end

instance : DecidableEq RedisMsg := RedisMsg.decEq

/-- These are the messages that the wire format can express: every length counts its payload
and fits in an int32, every integer fits in an int64, and no line contains its terminator. -/
inductive RedisMsg.WellFormed : RedisMsg → Prop where
  | bulkString (strval : Bytes) (fits : strval.length < 2 ^ 31) :
      WellFormed (.string .bulkString strval.length strval)
  | nil : WellFormed (.string .bulkString (-1) [])
  | line (type : StringType) (strval : Bytes) (isLine : type ≠ .bulkString)
      (fits : strval.length < 2 ^ 31) (noNewline : lf ∉ strval)
      (noReturn : strval.getLast? ≠ some cr) :
      WellFormed (.string type strval.length strval)
  | integer (ival : Int) (lower : -2 ^ 63 ≤ ival) (upper : ival < 2 ^ 63) :
      WellFormed (.integer ival)
  | null : WellFormed (.array (-1) [])
  | array (elements : List RedisMsg) (fits : elements.length < 2 ^ 31)
      (wellFormed : ∀ m ∈ elements, WellFormed m) :
      WellFormed (.array elements.length elements)

end Raids
