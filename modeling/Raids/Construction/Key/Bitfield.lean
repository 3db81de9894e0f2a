import Raids.Construction.Key.Bits
import Raids.Construction.Key.HashRead

namespace Raids.Key

open LittleEndian

/-- The operations on a field of bits. -/
inductive BitfieldOp where
  | get | set | incrby
  deriving DecidableEq, Repr

/-- What becomes of a sum that is out of the range of its field. -/
inductive BitfieldOver where
  | wrap | sat | fail
  deriving DecidableEq, Repr

/-- The letter of a type. -/
inductive BitfieldType where
  | int | unsigned
  deriving DecidableEq, Repr

/-- One operation: the field starts at a bit of the string and has some bits. -/
structure Bitfield where
  typeOff : Nat
  val : Int
  typeWidth : Nat
  typeChar : BitfieldType
  op : BitfieldOp
  overflow : BitfieldOver
  deriving DecidableEq, Repr

/-- A word with a byte above it. -/
structure Int72 where
  ival : BitVec 64
  high : BitVec 8
  deriving DecidableEq, Repr

namespace Int72

def ofWord (v : BitVec 64) : Int72 := ⟨v, 0⟩

/-- The bytes are laid out from the low one on. -/
def ofBytes (bytes : Bytes) : Int72 :=
  ⟨BitVec.ofNat 64 (value (bytes.take 8)), BitVec.ofNat 8 (value (bytes.drop 8))⟩

def bytes (x : Int72) : Bytes := digits 8 x.ival.toNat ++ digits 1 x.high.toNat

/-- The processor takes the count of a shift modulo the width of the word. -/
def shl (x : Int72) (i : Nat) : Int72 :=
  let tmp := x.ival >>> ((64 - i) % 64)
  let tmp := if i < 8 then tmp ||| x.high.setWidth 64 <<< i else tmp
  ⟨x.ival <<< i, tmp.setWidth 8⟩

def shr (x : Int72) (i : Nat) : Int72 :=
  ⟨x.ival >>> i ||| x.high.setWidth 64 <<< ((64 - i) % 64), x.high >>> i⟩

def or (x v : Int72) : Int72 := ⟨x.ival ||| v.ival, x.high ||| v.high⟩

def and (x v : Int72) : Int72 := ⟨x.ival &&& v.ival, x.high &&& v.high⟩

def andWord (x : Int72) (v : BitVec 64) : Int72 := ⟨x.ival &&& v, 0⟩

def notval (x : Int72) : Int72 := ⟨~~~x.ival, ~~~x.high⟩

end Int72

section Parse

variable (msg : CommandMsg)

/-- The policy of an overflow at this place. -/
def overflowArg (i : Nat) : Option BitfieldOver :=
  match msg.matchArg i [text "wrap", text "sat", text "fail"] with
  | 1 => some .wrap
  | 2 => some .sat
  | 3 => some .fail
  | _ => none

/-- An optional policy in front of an operation or behind a sum, and the place behind it. -/
def optionalOverflow (i : Nat) (default : BitfieldOver) : Option (BitfieldOver × Nat) :=
  if msg.matchArg i [text "overflow"] = 1 then (overflowArg msg (i + 1)).map (·, i + 2)
  else some (default, i)

/-- A type has a letter and a width. -/
def typeArg (type : Bytes) : Option (BitfieldType × Nat) :=
  match type with
  | [] | [_] => none
  | c :: rest =>
      match (stringToInt rest).toOption with
      | none => none
      | some val =>
          let typeChar := if 97 ≤ c ∧ c ≤ 122 then c - 32 else c
          if typeChar = 73 then if val < 2 ∨ 64 < val then none else some (.int, val.toNat)
          else if typeChar = 85 then
            if val < 1 ∨ 63 < val then none else some (.unsigned, val.toNat)
          else none

/-- An offset counts bits, or fields behind a hash. -/
def offsetArg (off : Bytes) (width : Nat) : Option Nat :=
  match off with
  | [] => none
  | 35 :: rest => (stringToInt rest).toOption.map fun val => toSize val * width % 2 ^ 64
  | off => (stringToInt off).toOption.map toSize

/-- One operation, and the place behind it. -/
def bitfieldArg (i : Nat) : Option (Bitfield × Nat) :=
  match optionalOverflow msg i .wrap with
  | none => none
  | some (overflow, i) =>
      match msg.getArgStr (i + 1 : Nat), msg.getArgStr (i + 2 : Nat) with
      | some type, some off =>
          match typeArg type with
          | none => none
          | some (typeChar, width) =>
              match offsetArg off width with
              | none => none
              | some typeOff =>
                  match msg.matchArg i [text "get", text "set", text "incrby"] with
                  | 1 => some (⟨typeOff, 0, width, typeChar, .get, overflow⟩, i + 3)
                  | 2 =>
                      (msg.getArgInt (i + 3)).map fun val =>
                        (⟨typeOff, val, width, typeChar, .set, overflow⟩, i + 4)
                  | 3 =>
                      match msg.getArgInt (i + 3), optionalOverflow msg (i + 4) overflow with
                      | some val, some (overflow, i) =>
                          some (⟨typeOff, val, width, typeChar, .incrby, overflow⟩, i)
                      | _, _ => none
                  | _ => none
      | _, _ => none

/-- The operations up to the end of the message. Each one has three arguments at least, so the
number of the arguments is enough fuel. -/
def bitfieldArgs : Nat → Nat → Option (List Bitfield)
  | 0, _ => none
  | fuel + 1, i =>
      match bitfieldArg msg i with
      | none => none
      | some (bf, i) =>
          if i = msg.argc then some [bf] else (bitfieldArgs fuel i).map (bf :: ·)

end Parse

/-- The string ends behind the last field that is written. The sum of an offset and a width wraps
around. -/
def maxOff (fields : List Bitfield) : Nat :=
  fields.foldl (fun most bf =>
    if bf.op ≠ .get ∧ most < (bf.typeOff + bf.typeWidth) % 2 ^ 64 then
      (bf.typeOff + bf.typeWidth) % 2 ^ 64
    else most) 0

/-- The bits of a field, and its sign. -/
def Bitfield.mask (bf : Bitfield) : BitVec 64 :=
  if bf.typeWidth = 64 then -1#64 else 1#64 <<< bf.typeWidth - 1#64

def Bitfield.signb (bf : Bitfield) : BitVec 64 := bf.mask >>> 1 + 1#64

/-- Bytes are loaded until they cover the bits that are needed, nine at most. -/
def loadBytes (need : Nat) : Nat → Bytes → Bytes
  | _, [] => []
  | j, b :: rest =>
      b :: if j + 1 = 9 ∨ need ≤ 8 * (j + 1) then [] else loadBytes need (j + 1) rest

/-- The sum of a field and its increment, or nothing where the sum fails. -/
def Bitfield.increase (bf : Bitfield) (old : BitVec 64) : Option (BitVec 64) :=
  let incr := BitVec.ofInt 64 bf.val
  let new := incr + old
  match bf.typeChar with
  | .int =>
      if bf.overflow = .wrap then
        if new &&& bf.signb = 0 then some (new &&& bf.mask) else some (new ||| ~~~bf.mask)
      else
        let maxVal := bf.mask / 2#64
        let minVal := -(bf.mask / 2#64 + 1#64)
        if 0 < incr.toInt ∧ (maxVal - old).toNat < incr.toNat then
          if bf.overflow = .fail then none else some maxVal
        else if incr.toInt < 0 ∧ (old - minVal).toNat < (-incr).toNat then
          if bf.overflow = .fail then none else some minVal
        else some new
  | .unsigned =>
      if bf.overflow = .wrap then some (new &&& bf.mask)
      else if 0 < incr.toInt ∧ bf.mask.toNat < new.toNat then
        if bf.overflow = .fail then none else some bf.mask
      else if incr.toInt < 0 ∧ new.toInt < 0 then
        if bf.overflow = .fail then none else some 0
      else some new

/-- The number of a reply. -/
def Bitfield.number (bf : Bitfield) (val : BitVec 64) : Int :=
  match bf.typeChar with
  | .int => val.toInt
  | .unsigned => val.toNat

/-- The bytes that a value is written to, from the byte of the field on. -/
def Bitfield.store (bf : Bitfield) (data : Bytes) (upd : Int72) (loaded : Nat) (val : BitVec 64) :
    Bytes :=
  let start := bf.typeOff / 8
  let shift := bf.typeOff % 8
  let upd := upd.and ((Int72.ofWord bf.mask).shl shift).notval
  let upd := upd.or ((Int72.ofWord (val &&& bf.mask)).shl shift)
  data.take start ++ upd.bytes.take loaded ++ data.drop (start + loaded)

/-- The old value is replied or updated. -/
def Bitfield.finish (bf : Bitfield) (data : Bytes) (upd : Int72) (loaded : Nat)
    (old : BitVec 64) : Bytes × Option Int :=
  match bf.op with
  | .get => (data, some (bf.number old))
  | .set => (bf.store data upd loaded (BitVec.ofInt 64 bf.val), some (bf.number old))
  | .incrby =>
      match bf.increase old with
      | none => (data, none)
      | some new => (bf.store data upd loaded new, some (bf.number new))

/-- One operation on the bytes of a string, and its reply. -/
def Bitfield.apply (bf : Bitfield) (data : Bytes) : Bytes × Option Int :=
  let shift := bf.typeOff % 8
  let loaded := loadBytes (bf.typeWidth + shift) 0 (data.drop (bf.typeOff / 8))
  let upd := Int72.ofBytes loaded
  let old := ((upd.shr shift).andWord bf.mask).ival
  let old :=
    if bf.typeChar = .int ∧ old &&& bf.signb ≠ 0 then old ||| ~~~bf.mask else old
  bf.finish data upd loaded.length old

/-- The operations go one behind the other. -/
def applyAll : List Bitfield → Bytes → Bytes × List (Option Int)
  | [], data => (data, [])
  | bf :: fields, data =>
      let (data, reply) := bf.apply data
      let (data, replies) := applyAll fields data
      (data, reply :: replies)

/-- A sum that fails has a nil. -/
def fieldReply (reply : Option Int) : Bytes := reply.elim (line "$-1") sendInt

/-- The replies with their number in front. -/
def sendFields (replies : List (Option Int)) : Bytes :=
  arrayChar :: uint64ToString replies.length ++ crlf ++ replies.flatMap fieldReply

/-- What the operations meet: the table, and the bytes that are left of a string behind a resize
without a copy. -/
structure BitfieldEnv where
  table : KeyEnv := {}
  resize : Bytes → Nat → Bytes := fun data size => (data ++ List.replicate size 0).take size

/-- The string is resized for the fields that are written, and the bytes behind its old end are
cleared. -/
def resizeString (env : BitfieldEnv) (data : Bytes) (size : Nat) : Bytes :=
  (env.resize data size).take data.length ++ List.replicate (size - data.length) 0

/-- The result is sent when all operations are done. -/
def Fetched.fields (found : Fetched Bytes) (fields : List Bitfield) (data : Bytes) :
    KeyRun Bytes :=
  let (data, replies) := applyAll fields data
  { found.stop .execOk with
      entry := some (Entry.write found.entry data)
      out := sendFields replies }

def execBitfield (env : BitfieldEnv) (msg : CommandMsg) (entry : Option (Entry Bytes)) :
    KeyRun Bytes :=
  if msg.argc < 3 then unfetched .errBadArgs entry
  else
    match bitfieldArgs msg msg.argc 2 with
    | none => unfetched .errBadArgs entry
    | some fields =>
        let most := maxOff fields
        if 0 < most then
          -- the offset is aligned to a byte
          let size := (most + 7) % 2 ^ 64 / 8
          let found := getKeyWrite env.table .string entry
          match found.kstatus, found.entry with
          | some .keyOk, some e =>
              if env.table.valued ∧ env.table.resized then
                found.fields fields (resizeString env e.data (max e.data.length size))
              else found.stop .errKvStatus
          | some .keyIsNew, _ =>
              if env.table.resized then found.fields fields (List.replicate size 0)
              else found.stop .errKvStatus
          | some .keyNoValue, _ => found.stop .errBadType
          | _, _ => found.stop .errKvStatus
        else
          let found := getKeyRead env.table .string entry
          match found.kstatus, found.entry with
          | some .keyOk, some e =>
              if env.table.valued then
                if env.table.validated then
                  { found.fields fields e.data with isReadOnly := true }
                else { found.fields fields e.data with
                        status := .errKvStatus, out := [], isReadOnly := true }
              else found.read .errKvStatus
          | some .keyNotFound, _ =>
              if env.table.validated then
                { found.read .execOk with out := sendFields (applyAll fields []).2 }
              else found.read .errKvStatus
          | some .keyNoValue, _ => found.read .errBadType
          | _, _ => found.read .errKvStatus

end Raids.Key
