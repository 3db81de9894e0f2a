import Raids.Construction.Key.Bits
import Raids.Construction.Key.ListMove

namespace Raids.Key

/-- The fields are counted from one. -/
def HashData.hindex (hash : HashData) (n : Nat) : Option (Bytes × Bytes) :=
  match n with
  | 0 => none
  | n + 1 => hash[n]?

/-- The index of the fields counts too. -/
def HashData.count (hash : HashData) : Nat := hash.length + 1

/-- The commands that read many fields. -/
inductive HashMulti where
  | hgetall
  | hkeys
  | hvals
  | hmget
  deriving DecidableEq, Repr

/-- The fields are appended for these commands. -/
def HashMulti.keys : HashMulti → Bool
  | .hgetall | .hkeys => true
  | _ => false

/-- The values are appended for these commands. -/
def HashMulti.vals : HashMulti → Bool
  | .hgetall | .hvals | .hmget => true
  | _ => false

/-- A string or nil as an element. -/
def appendItem (item : Option Bytes) : Bytes :=
  match item with
  | some str => sendConcatString str
  | none => line "$-1"

/-- The elements with their number in front. -/
def sendItems (items : List (Option Bytes)) : Bytes :=
  arrayChar :: uint64ToString items.length ++ crlf ++ items.flatMap appendItem

/-- The elements of one field, which may be missing. -/
def HashMulti.items (cmd : HashMulti) (kv : Option (Bytes × Bytes)) : List (Option Bytes) :=
  (if cmd.keys then [kv.map Prod.fst] else []) ++ if cmd.vals then [kv.map Prod.snd] else []

/-- The scan goes through the fields in their order. -/
def hscanLoop (cmd : HashMulti) (hash : HashData) : Nat → Nat → List (Option Bytes)
  | 0, _ => []
  | left + 1, i =>
      match hash.hindex i with
      | none => []
      | some kv => cmd.items (some kv) ++ hscanLoop cmd hash left (i + 1)

/-- Each argument is looked up, and nothing is sent when one is not a string. -/
def hmgetLoop (hash : HashData) (msg : CommandMsg) : Nat → Bytes → Nat →
    Option (List (Option Bytes))
  | 0, key, _ => some [hash.hget key]
  | left + 1, key, argi =>
      if argi < msg.argc then
        match msg.getArgStr argi with
        | none => none
        | some next => (hmgetLoop hash msg left next (argi + 1)).map (hash.hget key :: ·)
      else some [hash.hget key]

/-- The elements are sent when the value has not changed while it was read. -/
def Fetched.sendItems (found : Fetched HashData) (env : KeyEnv) (items : List (Option Bytes)) :
    KeyRun HashData :=
  if env.validated then { found.read .execOk with out := Key.sendItems items }
  else found.read .errKvStatus

/-- One function reads many fields for all these commands. -/
def doHmultiscan (env : KeyEnv) (cmd : HashMulti) (msg : CommandMsg)
    (entry : Option (Entry HashData)) : KeyRun HashData :=
  let key := if cmd = .hmget then msg.getArgStr 2 else some []
  match key with
  | none => unfetched .errBadArgs entry
  | some key =>
      let found := getKeyRead env .hash entry
      match found.kstatus, found.entry with
      | some .keyOk, some e =>
          if env.valued then
            if cmd = .hmget then
              match hmgetLoop e.data msg (msg.argc - 3) key 3 with
              | none => found.read .errBadArgs
              | some items => found.sendItems env items
            else found.sendItems env (hscanLoop cmd e.data (e.data.count - 1) 1)
          else found.read .errKvStatus
      | some .keyNotFound, _ => found.sendItems env []
      | some .keyNoValue, _ => found.read .errBadType
      | _, _ => found.read .errKvStatus

/-- The commands that read one field, or the number of fields. -/
inductive HashRead where
  | hexists
  | hget
  | hlen
  | hstrlen
  deriving DecidableEq, Repr

/-- The status, the output and the number of a read. -/
def HashRead.result (cmd : HashRead) (hash : HashData) (arg : Bytes) : ExecStatus × Bytes × Int :=
  match cmd with
  | .hexists => (if (hash.hget arg).isSome then .execSendOne else .execSendZero, [], 0)
  | .hlen => (.execSendInt, [], hash.length)
  | .hget =>
      match hash.hget arg with
      | some lv => (.execOk, sendConcatString lv, 0)
      | none => (.execSendNil, [], 0)
  | .hstrlen =>
      match hash.hget arg with
      | some lv => (.execSendInt, [], lv.length)
      | none => (.execSendZero, [], 0)

def doHread (env : KeyEnv) (cmd : HashRead) (msg : CommandMsg) (entry : Option (Entry HashData)) :
    KeyRun HashData :=
  let arg := if cmd = .hlen then some [] else msg.getArgStr 2
  match arg with
  | none => unfetched .errBadArgs entry
  | some arg =>
      let found := getKeyRead env .hash entry
      match found.kstatus, found.entry with
      | some .keyOk, some e =>
          if env.valued then
            let (status, out, ival) := cmd.result e.data arg
            if env.validated then { found.read status with out := out, ival := ival }
            else { found.read .errKvStatus with ival := ival }
          else found.read .errKvStatus
      | some .keyNotFound, _ => found.read (if cmd = .hget then .execSendNil else .execSendZero)
      | some .keyNoValue, _ => found.read .errBadType
      | _, _ => found.read .errKvStatus

def execHexists (env : KeyEnv) := doHread env .hexists

def execHget (env : KeyEnv) := doHread env .hget

def execHlen (env : KeyEnv) := doHread env .hlen

def execHstrlen (env : KeyEnv) := doHread env .hstrlen

def execHgetall (env : KeyEnv) := doHmultiscan env .hgetall

def execHkeys (env : KeyEnv) := doHmultiscan env .hkeys

def execHvals (env : KeyEnv) := doHmultiscan env .hvals

def execHmget (env : KeyEnv) := doHmultiscan env .hmget

end Raids.Key
