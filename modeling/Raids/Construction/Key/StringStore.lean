import Raids.Construction.Key.Bits
import Raids.Construction.Key.ListMove

namespace Raids.Key

/-- The string is stored, and the reply is its length. -/
def Fetched.storeLength (found : Fetched Bytes) (env : KeyEnv) (data : Bytes) : KeyRun Bytes :=
  if env.resized then
    { found.stop .execSendInt with
        entry := some (Entry.write found.entry data)
        ival := data.length }
  else { found.stop .errKvStatus with ival := data.length }

def execAppend (env : KeyEnv) (msg : CommandMsg) (entry : Option (Entry Bytes)) : KeyRun Bytes :=
  match msg.getArgStr 2 with
  | none => unfetched .errBadArgs entry
  | some value =>
      let found := getKeyWrite env .string entry
      match found.kstatus, found.entry with
      | some .keyOk, some e =>
          if env.valued then found.storeLength env (e.data ++ value) else found.stop .errKvStatus
      | some .keyIsNew, _ => found.storeLength env value
      | some .keyNoValue, _ => found.stop .errBadType
      | _, _ => found.stop .errKvStatus

/-- The string is filled with zeros up to the offset, and the value is written over it. -/
def setrange (data : Bytes) (off : Nat) (value : Bytes) : Bytes :=
  let data := data ++ List.replicate (off - data.length) 0
  data.take off ++ value ++ data.drop (off + value.length)

def execSetrange (env : KeyEnv) (msg : CommandMsg) (entry : Option (Entry Bytes)) : KeyRun Bytes :=
  match msg.getArgInt 2, msg.getArgStr 3 with
  | some off, some value =>
      if off < 0 then unfetched .errBadArgs entry
      else
        let found := getKeyWrite env .string entry
        match found.kstatus, found.entry with
        | some .keyOk, some e =>
            if env.valued then found.storeLength env (setrange e.data off.toNat value)
            else found.stop .errKvStatus
        | some .keyIsNew, _ => found.storeLength env (setrange [] off.toNat value)
        | some .keyNoValue, _ => found.stop .errBadType
        | _, _ => found.stop .errKvStatus
  | _, _ => unfetched .errBadArgs entry

/-- Both ends are outside of the string on one side, or they cross. -/
def outsideRange (size : Nat) (start stop : Int) : Bool :=
  let startOff := fromEnd size start
  let endOff := fromEnd size stop
  endOff < startOff || (startOff < 0 && endOff < 0) || (size ≤ startOff && size ≤ endOff)

/-- A range that is not outside is moved into the string. -/
def execGetrange (env : KeyEnv) (msg : CommandMsg) (entry : Option (Entry Bytes)) : KeyRun Bytes :=
  match optionalInt msg 2 0, optionalInt msg 3 (-1) with
  | some start, some stop =>
      let found := getKeyRead env .string entry
      match found.kstatus, found.entry with
      | some .keyOk, some e =>
          if env.valued ∧ env.validated then
            if e.data.isEmpty then found.read .execSendZeroString
            else if outsideRange e.data.length start stop then found.read .execSendZeroString
            else
              { found.read .execOk with out := sendConcatString (clipRange e.data start stop) }
          else found.read .errKvStatus
      | some .keyNotFound, _ => found.read .execSendZeroString
      | some .keyNoValue, _ => found.read .errBadType
      | _, _ => found.read .errKvStatus
  | _, _ => unfetched .errBadArgs entry

def execStrlen (env : KeyEnv) (entry : Option (Entry Bytes)) : KeyRun Bytes :=
  let found := getKeyRead env .string entry
  match found.kstatus, found.entry with
  | some .keyOk, some e =>
      if env.valued then { found.read .execSendInt with ival := e.data.length }
      else found.read .errKvStatus
  | some .keyNotFound, _ => { found.read .execSendInt with ival := 0 }
  | some .keyNoValue, _ => found.read .errBadType
  | _, _ => found.read .errKvStatus

def execGet (env : KeyEnv) (entry : Option (Entry Bytes)) : KeyRun Bytes :=
  let found := getKeyRead env .string entry
  match found.kstatus, found.entry with
  | some .keyOk, some e =>
      if env.valued ∧ env.validated then
        { found.read .execOk with out := sendConcatString e.data }
      else found.read .errKvStatus
  | some .keyNotFound, _ => found.read .execSendNil
  | some .keyNoValue, _ => found.read .errBadType
  | _, _ => found.read .errKvStatus

/-- The new string has no expiry, and the old one is sent. -/
def storeOld (env : KeyEnv) (found : Fetched Bytes) (value : Bytes) (old : Bytes) : KeyRun Bytes :=
  let cleared := found.entry.map fun e => { e with exp := 0 }
  if env.resized then
    let run := { found.stop .execSendNil with entry := some (Entry.write cleared value) }
    if found.isNew then run else { run with status := .execOk, out := old }
  else { found.stop .errKvStatus with entry := cleared }

def execGetset (env : KeyEnv) (msg : CommandMsg) (entry : Option (Entry Bytes)) : KeyRun Bytes :=
  match msg.getArgStr 2 with
  | none => unfetched .errBadArgs entry
  | some value =>
      let found := getKeyWrite env .string entry
      match found.kstatus, found.entry with
      | some .keyOk, some e =>
          if env.valued then storeOld env found value (sendConcatString e.data)
          else found.stop .errKvStatus
      | some .keyIsNew, _ => storeOld env found value []
      | some .keyNoValue, _ => found.stop .errBadType
      | _, _ => found.stop .errKvStatus

end Raids.Key
