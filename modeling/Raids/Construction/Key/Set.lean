import Raids.Construction.Cmd.Table
import Raids.Construction.Key.Add
import Raids.Construction.Key.Continue

namespace Raids.Key

/-- The conditions and the kind of a store. -/
structure SetFlags where
  mustNotExist : Bool := false
  mustExist : Bool := false
  hasExpireNs : Bool := false
  deriving DecidableEq, Repr

def toUpper (c : UInt8) : UInt8 := if 97 ≤ c ∧ c ≤ 122 then c - 32 else c

/-- Times below this number of nanoseconds count from now. -/
def tenYearsNs : Nat := (10 * 12) * (30 * 24 * 60 * 60) * (1000 * 1000 * 1000)

/-- The product of a time and its unit wraps around. -/
def toNs (ival : Int) (unit : Nat) : Nat := toSize (ival * unit)

/-- A store fails when its condition does. -/
def SetFlags.refuses (flags : SetFlags) (isNew : Bool) : Bool :=
  isNew && flags.mustExist || !isNew && flags.mustNotExist

/-- The key of a store is written whatever its type is, and a value of another type counts as
new. -/
def getKeyOverwrite (env : KeyEnv) (entry : Option (Entry Bytes)) : Fetched Bytes :=
  let found := getKeyWrite env .string entry
  if found.kstatus = some .keyNoValue then { found with isNew := true, type := .string } else found

/-- The value is stored and the expiry is cleared. -/
def doSetValue (env : KeyEnv) (cmd : RedisCmd) (msg : CommandMsg) (n : Nat) (flags : SetFlags)
    (entry : Option (Entry Bytes)) : KeyRun Bytes :=
  match msg.getArgStr n with
  | none => unfetched .errBadArgs entry
  | some value =>
      let found := getKeyOverwrite env entry
      match found.kstatus with
      | some .keyNoValue | some .keyOk | some .keyIsNew =>
          if flags.refuses found.isNew then found.stop .execSendNil
          else
            let cleared := found.entry.map fun e => { e with exp := 0 }
            if env.resized then
              { found.stop (if cmd = .msetnxCmd then .execSendOne else .execSendOk) with
                  entry := some (Entry.write cleared value) }
            else { found.stop .errKvStatus with entry := cleared }
      | _ => found.stop .errKvStatus

/-- A stamp of zero is no update. -/
def updateExpire (env : KeyEnv) (ns : Nat) (e : Entry Bytes) : Entry Bytes :=
  let ns := if ns ≠ 0 ∧ ns < tenYearsNs then (ns + env.currentStamp) % 2 ^ 64 else ns
  if ns = 0 then e else { e with exp := ns }

/-- The value is stored with an expiry. -/
def doSetValueExpire (env : KeyEnv) (msg : CommandMsg) (n : Nat) (ns : Nat) (flags : SetFlags)
    (entry : Option (Entry Bytes)) : KeyRun Bytes :=
  match msg.getArgStr n with
  | none => unfetched .errBadArgs entry
  | some value =>
      let found := getKeyOverwrite env entry
      match found.kstatus with
      | some .keyNoValue | some .keyOk | some .keyIsNew =>
          if flags.refuses found.isNew then found.stop .execSendNil
          else if env.resized then
            { found.stop .execSendOk with
                entry := some (updateExpire env ns (Entry.write found.entry value)) }
          else found.stop .errKvStatus
      | _ => found.stop .errKvStatus

/-- An option has two letters, and the second one is an `X`. The index `i` grows with every option,
so `argc` is enough fuel. -/
def setOptions (msg : CommandMsg) : Nat → Nat → SetFlags → Nat → Option (SetFlags × Nat)
  | 0, _, flags, ns => some (flags, ns)
  | fuel + 1, i, flags, ns =>
      if i < msg.argc then
        match msg.getArgStr i with
        | some [op, x] =>
            if toUpper x ≠ 88 then none
            else
              match toUpper op with
              -- `EX` and `PX`
              | 69 =>
                  match msg.getArgInt (i + 1) with
                  | none => none
                  | some ival =>
                      setOptions msg fuel (i + 2) { flags with hasExpireNs := true }
                        (toNs ival (1000 * 1000 * 1000))
              | 80 =>
                  match msg.getArgInt (i + 1) with
                  | none => none
                  | some ival =>
                      setOptions msg fuel (i + 2) { flags with hasExpireNs := true }
                        (toNs ival (1000 * 1000))
              -- `NX` and `XX`
              | 78 => setOptions msg fuel (i + 1) { flags with mustNotExist := true } ns
              | 88 => setOptions msg fuel (i + 1) { flags with mustExist := true } ns
              | _ => none
        | _ => none
      else some (flags, ns)

def execSet (env : KeyEnv) (msg : CommandMsg) (entry : Option (Entry Bytes)) : KeyRun Bytes :=
  match setOptions msg msg.argc 3 {} 0 with
  | none => unfetched .errBadArgs entry
  | some (flags, ns) =>
      if flags.hasExpireNs then doSetValueExpire env msg 2 ns flags entry
      else doSetValue env .setCmd msg 2 flags entry

def execSetnx (env : KeyEnv) (msg : CommandMsg) (entry : Option (Entry Bytes)) : KeyRun Bytes :=
  doSetValue env .setnxCmd msg 2 { mustNotExist := true } entry

def execMset (env : KeyEnv) (msg : CommandMsg) : Handler Bytes := fun _ ctx entry =>
  (doSetValue env .msetCmd msg (ctx.argn + 1) {} entry, none)

/-- The first turn of a key tests it, and a second one stores its value. -/
def execMsetnx (env : KeyEnv) (msg : CommandMsg) : Handler Bytes := fun s ctx entry =>
  let store (entry : Option (Entry Bytes)) := doSetValue env .msetnxCmd msg (ctx.argn + 1) {} entry
  if ctx.dep = 0 then
    let found := execKeyFetch env true entry
    if found.kstatus = some .keyOk then
      ({ found.stop .execAbortSendZero with isReadOnly := true }, none)
    else if s.keyDone + 1 < s.keys.length then
      ({ found.stop .execDepends with isReadOnly := true }, none)
    else (store found.entry, none)
  else (store entry, none)

end Raids.Key
