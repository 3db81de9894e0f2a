import Raids.Construction.Key.Entry
import Raids.Construction.Msg.Json

namespace Raids.Key

/-- A value that is not a number counts as zero. -/
def currentInt (data : Bytes) : Int :=
  if 0 < data.length then
    match stringToInt data with
    | .ok ival => ival
    | .error _ => 0
  else 0

/-- The sum wraps around. It is sent before the memory for the new text is asked for, but it counts
only behind it. -/
def addValue (env : KeyEnv) (found : Fetched Bytes) (ival incr : Int) : KeyRun Bytes :=
  let ival := toInt64 (ival + incr)
  if env.resized then
    { found.stop .execOk with
        entry := some (Entry.write found.entry (int64ToString ival))
        out := sendInt ival
        ival := ival }
  else { found.stop .errKvStatus with ival := ival }

def doAdd (env : KeyEnv) (incr : Int) (entry : Option (Entry Bytes)) : KeyRun Bytes :=
  let found := getKeyWrite env .string entry
  match found.kstatus, found.entry with
  | some .keyOk, some e =>
      if env.valued then addValue env found (currentInt e.data) incr else found.stop .errKvStatus
  | some .keyIsNew, _ => addValue env found 0 incr
  | some .keyNoValue, _ => found.stop .errBadType
  | _, _ => found.stop .errKvStatus

/-- A command that does not fetch its key leaves the entry alone. -/
def unfetched {D : Type} (status : ExecStatus) (entry : Option (Entry D)) : KeyRun D :=
  { status := status, entry := entry, isReadOnly := true }

def execIncr (env : KeyEnv) (entry : Option (Entry Bytes)) : KeyRun Bytes := doAdd env 1 entry

def execDecr (env : KeyEnv) (entry : Option (Entry Bytes)) : KeyRun Bytes := doAdd env (-1) entry

def execIncrby (env : KeyEnv) (msg : CommandMsg) (entry : Option (Entry Bytes)) : KeyRun Bytes :=
  match msg.getArgInt 2 with
  | none => unfetched .errBadArgs entry
  | some incr => doAdd env incr entry

/-- The negation wraps around too. -/
def execDecrby (env : KeyEnv) (msg : CommandMsg) (entry : Option (Entry Bytes)) : KeyRun Bytes :=
  match msg.getArgInt 2 with
  | none => unfetched .errBadArgs entry
  | some decr => doAdd env (toInt64 (-decr)) entry

/-- A hash is a list of fields and values. -/
abbrev HashData := List (Bytes × Bytes)

def HashData.hget (hash : HashData) (field : Bytes) : Option Bytes := hash.lookup field

/-- The value of a field is replaced, and a new field is added behind the others. -/
def HashData.hupdate : HashData → Bytes → Bytes → HashData
  | [], field, value => [(field, value)]
  | pair :: hash, field, value =>
      if field == pair.1 then (field, value) :: hash else pair :: HashData.hupdate hash field value

/-- A value of the ring buffer that runs over its end has two parts, which are joined in a buffer of
64 bytes. -/
def joinParts (cut : Nat) (value : Bytes) : Bytes :=
  if (value.drop cut).isEmpty then value.take cut
  else if (value.take cut).isEmpty then value.drop cut
  else value.take 64

/-- The sum with the value of the field. A value that is not a number counts as zero. -/
def fieldSum (cut : Nat) (hash : HashData) (field : Bytes) (incr : Int) : Int :=
  match hash.hget field with
  | none => incr
  | some value =>
      match stringToInt (joinParts cut value) with
      | .ok jval => toInt64 (incr + jval)
      | .error _ => incr

/-- The update is tried again when a full hash has grown. -/
def hincrLoop (cut : Nat) (field : Bytes) (incr : Int) (run : KeyRun HashData) (e : Entry HashData) :
    List Bool → KeyRun HashData
  | [] =>
      let ival := fieldSum cut e.data field incr
      { run with
          status := .execOk
          entry := some { e with data := e.data.hupdate field (int64ToString ival) }
          out := sendInt ival }
  | true :: grow => hincrLoop cut field incr run e grow
  | false :: _ => { run with status := .errKvStatus, entry := some e }

/-- The write of one field of a hash, for an increment. The hash of a new key has no fields. -/
def execHincrby (env : KeyEnv) (cut : Nat) (msg : CommandMsg) (entry : Option (Entry HashData)) :
    KeyRun HashData :=
  match msg.getArgStr 2, msg.getArgInt 3 with
  | some field, some incr =>
      let found := getKeyWrite env .hash entry
      match found.kstatus, found.entry with
      | some .keyOk, some e =>
          if env.valued then hincrLoop cut field incr (found.stop .execOk) e env.grow
          else found.stop .errKvStatus
      | some .keyIsNew, old =>
          if env.resized then
            hincrLoop cut field incr { found.stop .execOk with isNew := true, type := .hash }
              (Entry.write old []) env.grow
          else found.stop .errKvStatus
      | some .keyNoValue, _ => found.stop .errBadType
      | _, _ => found.stop .errKvStatus
  | _, _ => unfetched .errBadArgs entry

end Raids.Key
