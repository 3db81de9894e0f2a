import Raids.Construction.Key.Bits
import Raids.Construction.Key.Continue

namespace Raids.Key
open LittleEndian

/-- An operation on two words of the same number of bits. -/
abbrev WordOp := Nat → Nat → Nat → Nat

def andt : WordOp := fun _ x y => x &&& y

def ort : WordOp := fun _ x y => x ||| y

def xort : WordOp := fun _ x y => x ^^^ y

def nott : WordOp := fun bits _ y => 2 ^ bits - 1 - y

/-- One word of `z` bytes. -/
def opWord (op : WordOp) (z : Nat) (x y : Bytes) : Bytes :=
  digits z (op (8 * z) (value (x.take z)) (value (y.take z)))

/-- The last bytes are a word of four, a word of two and one byte. -/
def bitopTail (op : WordOp) (x y : Bytes) : Bytes :=
  let (four, x, y) :=
    if 4 ≤ x.length then (opWord op 4 x y, x.drop 4, y.drop 4) else ([], x, y)
  let (two, x, y) := if 2 ≤ x.length then (opWord op 2 x y, x.drop 2, y.drop 2) else ([], x, y)
  four ++ two ++ if 1 ≤ x.length then opWord op 1 x y else []

/-- The words of eight bytes come first. -/
def bitopLoop (op : WordOp) : Nat → Bytes → Bytes → Bytes
  | 0, x, y => bitopTail op x y
  | fuel + 1, x, y =>
      if 8 ≤ x.length then opWord op 8 x y ++ bitopLoop op fuel (x.drop 8) (y.drop 8)
      else bitopTail op x y

/-- The operation on the bytes of two strings of one length. -/
def bitop (op : WordOp) (x y : Bytes) : Bytes := bitopLoop op x.length x y

def notBits (x : Bytes) : Bytes := bitop nott x x

/-- The operations of the command. -/
inductive BitOp where
  | bitAndOp | bitOrOp | bitXorOp | bitNotOp
  deriving DecidableEq, Repr

/-- Another source is merged into the data, which is as long as the longest source. -/
def mergePart (op : BitOp) (data part : Bytes) : Bytes :=
  let sz := min part.length data.length
  let extra := data.length - part.length
  match op with
  | .bitAndOp =>
      bitop andt (data.take sz) (part.take sz) ++
        if 0 < extra then List.replicate extra 0 else data.drop sz
  | .bitOrOp => bitop ort (data.take sz) (part.take sz) ++ data.drop sz
  | .bitXorOp =>
      bitop xort (data.take sz) (part.take sz) ++
        if 0 < extra then notBits (data.drop sz) else data.drop sz
  | .bitNotOp => data

/-- The length of the longest source. -/
def maxSize (parts : List Bytes) : Nat := (parts.map List.length).foldl max 0

/-- The first source is filled up with zeros, and the others are merged into it. -/
def bitopData (op : BitOp) : List Bytes → Bytes
  | [] => []
  | first :: rest =>
      let data := first ++ List.replicate (maxSize (first :: rest) - first.length) 0
      let data := if op = .bitNotOp then notBits data else data
      rest.foldl (mergePart op) data

/-- A negation has one source. -/
def bitopOp (msg : CommandMsg) : Option BitOp :=
  match msg.matchArg 1 [text "and", text "or", text "xor", text "not"] with
  | 1 => some .bitAndOp
  | 2 => some .bitOrOp
  | 3 => some .bitXorOp
  | 4 => if 4 < msg.argc then none else some .bitNotOp
  | _ => none

/-- The destination is written when all sources are saved. -/
def bitopDest (env : KeyEnv) (msg : CommandMsg) (parts : List Bytes)
    (entry : Option (Entry Bytes)) : KeyRun Bytes :=
  let ival := maxSize parts
  match bitopOp msg with
  | none => { unfetched .errBadArgs entry with ival := ival }
  | some op =>
      let found := getKeyWrite env .string entry
      match found.kstatus with
      | some .keyOk | some .keyIsNew =>
          if env.resized then
            { found.stop .execSendInt with
                entry := some (Entry.write found.entry (bitopData op parts))
                ival := ival }
          else { found.stop .errKvStatus with ival := ival }
      | some .keyNoValue => { found.stop .errBadType with ival := ival }
      | _ => { found.stop .errKvStatus with ival := ival }

/-- The value of a source is saved, which is empty for a missing key. -/
def bitopSource (env : KeyEnv) (entry : Option (Entry Bytes)) : KeyRun Bytes × Option Bytes :=
  let found := getKeyRead env .string entry
  match found.kstatus, found.entry with
  | some .keyOk, some e =>
      if env.valued then
        (found.read (if env.validated then .execOk else .errKvStatus), some e.data)
      else (found.read .errKvStatus, none)
  | some .keyNotFound, _ =>
      (found.read (if env.validated then .execOk else .errKvStatus), some [])
  | some .keyNoValue, _ => (found.read .errBadType, none)
  | _, _ => (found.read .errKvStatus, none)

/-- The first key is the destination, and it waits for the sources. -/
def execBitop (env : KeyEnv) (msg : CommandMsg) : Handler Bytes := fun s ctx entry =>
  if ctx.argn = 2 then
    if ctx.dep = 0 then (unfetched .execDepends entry, none)
    else (bitopDest env msg (s.keys.tail.map fun key => key.part.getD []) entry, none)
  else bitopSource env entry

end Raids.Key
