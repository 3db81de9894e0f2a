import Raids.Construction.Key.Bits
import Raids.Construction.Key.Set

namespace Raids.Key

section Stamps

variable {D : Type} (env : KeyEnv)

/-- The nanoseconds of a second and of a millisecond. -/
def secondNs : Nat := 1000 * 1000 * 1000

def millisecondNs : Nat := 1000 * 1000

/-- A stamp of zero is no update. -/
def updateStamps (exp : Nat) (e : Entry D) : Entry D := if exp = 0 then e else { e with exp := exp }

/-- The stamp is set on a key that is found. -/
def setStamp (exp : Nat) (entry : Option (Entry D)) : KeyRun D :=
  let found := execKeyFetch env false entry
  match found.kstatus, found.entry with
  | some .keyOk, some e =>
      { found.stop .execSendInt with entry := some (updateStamps exp e), ival := 1 }
  | _, _ => found.stop .execSendInt

/-- A time that is smaller than the clock counts from now. -/
def doPexpire (units : Nat) (msg : CommandMsg) (entry : Option (Entry D)) : KeyRun D :=
  match msg.getArgInt 2 with
  | none => unfetched .errBadArgs entry
  | some ival =>
      let exp := toNs ival units
      setStamp env
        (if exp < env.currentStamp then (exp + env.currentStamp) % 2 ^ 64 else exp) entry

def doPexpireat (units : Nat) (msg : CommandMsg) (entry : Option (Entry D)) : KeyRun D :=
  match msg.getArgInt 2 with
  | none => unfetched .errBadArgs entry
  | some ival => setStamp env (toNs ival units) entry

def execPersist (entry : Option (Entry D)) : KeyRun D :=
  let found := execKeyFetch env false entry
  match found.kstatus, found.entry with
  | some .keyOk, some e =>
      { found.stop .execSendInt with entry := some { e with exp := 0 }, ival := 1 }
  | _, _ => found.stop .execSendInt

/-- The difference of the stamps is divided as a signed number. -/
def doPttl (units : Nat) (entry : Option (Entry D)) : KeyRun D :=
  let found := execKeyFetch env true entry
  match found.kstatus, found.entry with
  | some .keyOk, some e =>
      { found.read .execSendInt with
          ival :=
            if e.exp ≠ 0 then (toInt64 ((e.exp : Int) - env.currentStamp)).tdiv units else -1 }
  | some .keyNotFound, _ => { found.read .execSendInt with ival := -2 }
  | _, _ => found.read .errKvStatus

/-- A key that is found is deleted. The answer of the table is not read. -/
def execDel (tombstoned : Bool) (entry : Option (Entry D)) : KeyRun D :=
  let found := execKeyFetch env false entry
  if found.kstatus = some .keyOk then
    { found.stop .execSendInt with
        entry := if tombstoned then none else found.entry, ival := 1, keyspaceDel := true }
  else found.stop .execSendInt

def execUnlink (tombstoned : Bool) (entry : Option (Entry D)) : KeyRun D :=
  execDel env tombstoned entry

def execExists (entry : Option (Entry D)) : KeyRun D :=
  let found := execKeyFetch env true entry
  match found.kstatus with
  | some .keyOk => { found.read .execSendInt with ival := 1 }
  | some .keyNotFound => found.read .execSendInt
  | _ => found.read .errKvStatus

/-- The key is fetched for a write, so a missing one is new. -/
def execTouch (entry : Option (Entry D)) : KeyRun D :=
  let found := execKeyFetch env false entry
  match found.kstatus with
  | some .keyOk => { found.stop .execSendInt with ival := 1 }
  | some .keyIsNew => found.stop .execSendInt
  | _ => found.stop .errKvStatus

end Stamps

/-- The commands that set the expiry of a key. -/
inductive ExpireCmd where
  | expire | pexpire
  deriving DecidableEq, Repr

def ExpireCmd.units : ExpireCmd → Nat
  | .expire => secondNs
  | .pexpire => millisecondNs

def ExpireCmd.run {D : Type} (cmd : ExpireCmd) (env : KeyEnv) (msg : CommandMsg)
    (entry : Option (Entry D)) : KeyRun D :=
  doPexpire env cmd.units msg entry

inductive ExpireatCmd where
  | expireat | pexpireat
  deriving DecidableEq, Repr

def ExpireatCmd.units : ExpireatCmd → Nat
  | .expireat => secondNs
  | .pexpireat => millisecondNs

def ExpireatCmd.run {D : Type} (cmd : ExpireatCmd) (env : KeyEnv) (msg : CommandMsg)
    (entry : Option (Entry D)) : KeyRun D :=
  doPexpireat env cmd.units msg entry

def execTtl {D : Type} (env : KeyEnv) (entry : Option (Entry D)) : KeyRun D :=
  doPttl env secondNs entry

def execPttl {D : Type} (env : KeyEnv) (entry : Option (Entry D)) : KeyRun D :=
  doPttl env millisecondNs entry

/-- The time stands in front of the value. -/
def setWithTime (units : Nat) (env : KeyEnv) (msg : CommandMsg) (entry : Option (Entry Bytes)) :
    KeyRun Bytes :=
  match msg.getArgInt 2 with
  | none => unfetched .errBadArgs entry
  | some ival => doSetValueExpire env msg 3 (toNs ival units) { hasExpireNs := true } entry

def execSetex (env : KeyEnv) (msg : CommandMsg) (entry : Option (Entry Bytes)) : KeyRun Bytes :=
  setWithTime secondNs env msg entry

def execPsetex (env : KeyEnv) (msg : CommandMsg) (entry : Option (Entry Bytes)) : KeyRun Bytes :=
  setWithTime millisecondNs env msg entry

/-- The commands that store a string with an expiry. -/
inductive SetexCmd where
  | setex | psetex | setEx | setPx
  deriving DecidableEq, Repr

def SetexCmd.units : SetexCmd → Nat
  | .setex | .setEx => secondNs
  | .psetex | .setPx => millisecondNs

def SetexCmd.run : SetexCmd → KeyEnv → CommandMsg → Option (Entry Bytes) → KeyRun Bytes
  | .setex => execSetex
  | .psetex => execPsetex
  | .setEx | .setPx => execSet

/-- The commands that count keys; two of them delete the keys. -/
inductive CountCmd where
  | del | unlink | existing | touch
  deriving DecidableEq, Repr

def CountCmd.run {D : Type} (cmd : CountCmd) (env : KeyEnv) (entry : Option (Entry D)) : KeyRun D :=
  match cmd with
  | .del => execDel env true entry
  | .unlink => execUnlink env true entry
  | .existing => execExists env entry
  | .touch => execTouch env entry

end Raids.Key
