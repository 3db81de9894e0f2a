import Raids.Construction.Key.Add
import Raids.Library.Endian

namespace Raids.Key
open LittleEndian

/-- The offset of an optional argument. -/
def optionalInt (msg : CommandMsg) (n : Nat) (default : Int) : Option Int :=
  if n < msg.argc then msg.getArgInt n else some default

/-- The words before the last bytes are counted. -/
def countWords : Nat → Bytes → Nat → Nat × Bytes
  | 0, p, cnt => (cnt, p)
  | fuel + 1, p, cnt =>
      if 8 < p.length then
        countWords fuel (p.drop 8) (cnt + LittleEndian.popcount 64 (value (p.take 8)))
      else (cnt, p)

/-- The last bytes are gathered in one word by the low bits of their number. -/
def tailWord (p : Bytes) : Nat :=
  let i := p.length
  let (tail, p) := if i &&& 4 ≠ 0 then (value (p.take 4), p.drop 4) else (0, p)
  let (tail, p) := if i &&& 2 ≠ 0 then (tail <<< 16 ||| value (p.take 2), p.drop 2) else (tail, p)
  if i &&& 1 ≠ 0 then tail <<< 8 ||| value (p.take 1) else tail

/-- The bits of these bytes. -/
def countBits (p : Bytes) : Nat :=
  let (cnt, p) := countWords p.length p 0
  cnt + LittleEndian.popcount 64 (tailWord p)

/-- A negative offset counts from the end. -/
def fromEnd (size : Nat) (off : Int) : Int := if off < 0 then size + off else off

/-- The bytes between two offsets, which are moved into a string that is not empty. -/
def clipRange (data : Bytes) (start stop : Int) : Bytes :=
  let size : Int := data.length
  let start := min (max (fromEnd data.length start) 0) (size - 1)
  let stop := max (min (fromEnd data.length stop) (size - 1)) 0
  if start ≤ stop then (data.drop start.toNat).take (stop + 1 - start).toNat else []

/-- The reply of a read with a number. -/
def Fetched.int (found : Fetched Bytes) (env : KeyEnv) (ival : Int) : KeyRun Bytes :=
  if env.valued ∧ env.validated then
    { found.stop .execSendInt with ival := ival, isReadOnly := true }
  else { found.stop .errKvStatus with isReadOnly := true }

/-- A read-only handler never changes its entry. -/
def Fetched.read {D : Type} (found : Fetched D) (status : ExecStatus) : KeyRun D :=
  { found.stop status with isReadOnly := true }

def execBitcount (env : KeyEnv) (msg : CommandMsg) (entry : Option (Entry Bytes)) : KeyRun Bytes :=
  match optionalInt msg 2 0, optionalInt msg 3 (-1) with
  | some start, some stop =>
      let found := getKeyRead env .string entry
      match found.kstatus, found.entry with
      | some .keyOk, some e =>
          if e.data.isEmpty then found.read .execSendZero
          else found.int env (countBits (clipRange e.data start stop))
      | some .keyNotFound, _ => found.read .execSendZero
      | some .keyNoValue, _ => found.read .errBadType
      | _, _ => found.read .errKvStatus
  | _, _ => unfetched .errBadArgs entry

/-- The bytes of the next word of a scan. -/
def wordSize (left : Nat) : Nat :=
  if 8 ≤ left then 8 else if 4 ≤ left then 4 else if 2 ≤ left then 2 else 1

/-- The scan for a bit reads word by word. A clear bit is looked for in the complement, which has 64
bits for a short word too. -/
def scanBit (bit : Int) : Nat → Bytes → Nat → Option Nat
  | 0, _, _ => none
  | fuel + 1, p, off =>
      if p.isEmpty then none
      else
        let z := wordSize p.length
        let x := value (p.take z)
        let x := if bit = 0 then 2 ^ 64 - 1 - x else x
        if x ≠ 0 then some (off * 8 + ctz 64 x) else scanBit bit fuel (p.drop z) (off + z)

/-- The byte before which a scan ends. -/
def scanStop (size : Nat) (startOff endOff : Int) : Nat :=
  if startOff < endOff ∧ endOff < size then endOff.toNat else size

/-- The position of the first bit from an offset on. -/
def bitpos (data : Bytes) (bit startOff endOff : Int) : Int :=
  let stop := scanStop data.length startOff endOff
  let start := startOff.toNat
  match scanBit bit data.length ((data.take stop).drop start) start with
  | none => -1
  | some ival => if data.length * 8 ≤ ival then -1 else ival

def execBitpos (env : KeyEnv) (msg : CommandMsg) (entry : Option (Entry Bytes)) : KeyRun Bytes :=
  match msg.getArgInt 2, optionalInt msg 3 0, optionalInt msg 4 (-1) with
  | some bit, some startOff, some endOff =>
      if (bit = 0 ∨ bit = 1) ∧ 0 ≤ startOff then
        let found := getKeyRead env .string entry
        match found.kstatus, found.entry with
        | some .keyOk, some e => found.int env (bitpos e.data bit startOff endOff)
        | some .keyNotFound, _ => found.read .execSendZero
        | some .keyNoValue, _ => found.read .errBadType
        | _, _ => found.read .errKvStatus
      else unfetched .errBadArgs entry
  | _, _, _ => unfetched .errBadArgs entry

/-- A bit behind the end is zero. -/
def getbit (data : Bytes) (off : Int) : Bool :=
  let byteOff := (off / 8).toNat
  let mask : UInt8 := 1 <<< (off % 8).toNat.toUInt8
  byteOff < data.length && data.getD byteOff 0 &&& mask != 0

def execGetbit (env : KeyEnv) (msg : CommandMsg) (entry : Option (Entry Bytes)) : KeyRun Bytes :=
  match msg.getArgInt 2 with
  | none => unfetched .errBadArgs entry
  | some off =>
      if off < 0 then unfetched .execSendZero entry
      else
        let found := getKeyRead env .string entry
        match found.kstatus, found.entry with
        | some .keyOk, some e =>
            if env.valued ∧ env.validated then
              found.read (if getbit e.data off then .execSendOne else .execSendZero)
            else found.read .errKvStatus
        | some .keyNotFound, _ => found.read .execSendZero
        | some .keyNoValue, _ => found.read .errBadType
        | _, _ => found.read .errKvStatus

/-- The string is made long enough for the bit. -/
def setbit (data : Bytes) (off : Nat) (bitval : Int) : Bytes :=
  let byteOff := off / 8
  let mask : UInt8 := 1 <<< (off % 8).toUInt8
  let data := data ++ List.replicate (byteOff + 1 - data.length) 0
  let v := data.getD byteOff 0
  data.set byteOff (if bitval = 0 then v &&& ~~~mask else v ||| mask)

/-- The old bit is the reply. -/
def execSetbit (env : KeyEnv) (msg : CommandMsg) (entry : Option (Entry Bytes)) : KeyRun Bytes :=
  match msg.getArgInt 2, msg.getArgInt 3 with
  | some off, some bitval =>
      if 0 ≤ off ∧ (bitval = 0 ∨ bitval = 1) then
        let found := getKeyWrite env .string entry
        let store := fun data : Bytes =>
          if env.resized then
            { found.stop .execSendInt with
                entry := some (Entry.write found.entry (setbit data off.toNat bitval))
                ival := if getbit data off then 1 else 0 }
          else found.stop .errKvStatus
        match found.kstatus, found.entry with
        | some .keyOk, some e => if env.valued then store e.data else found.stop .errKvStatus
        | some .keyIsNew, _ => store []
        | some .keyNoValue, _ => found.stop .errBadType
        | _, _ => found.stop .errKvStatus
      else unfetched .errBadArgs entry
  | _, _ => unfetched .errBadArgs entry

end Raids.Key
