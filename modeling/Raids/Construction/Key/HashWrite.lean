import Raids.Construction.Key.HashRead

namespace Raids.Key

/-- What an operation finds: no such field, or a value of it. -/
inductive HashStatus where
  | ok | updated | exists | notFound
  deriving DecidableEq, Repr

namespace HashData

/-- A new field is told apart from one that is updated. -/
def hset (hash : HashData) (field value : Bytes) : HashStatus × HashData :=
  (if (hash.hget field).isSome then .updated else .ok, hash.hupdate field value)

/-- A field that is there keeps its value. -/
def hsetnx (hash : HashData) (field value : Bytes) : HashStatus × HashData :=
  if (hash.hget field).isSome then (.exists, hash) else (.ok, hash.hupdate field value)

/-- Both parts are put behind the value. -/
def happend (hash : HashData) (field data data2 : Bytes) : HashStatus × HashData :=
  (if (hash.hget field).isSome then .updated else .ok,
    hash.hupdate field ((hash.hget field).getD [] ++ data ++ data2))

/-- A field leaves the hash, if it is there. -/
def hdel (hash : HashData) (field : Bytes) : HashStatus × HashData :=
  (if (hash.hget field).isSome then .ok else .notFound, hash.filter fun pair => pair.1 != field)

def hcount (hash : HashData) : Nat := hash.length

end HashData

/-- The commands that write the fields of a hash. -/
inductive HashWrite where
  | hset | hmset | hsetnx | happend
  deriving DecidableEq, Repr

section Write

variable (env : WriteEnv) (msg : CommandMsg) (run : KeyRun HashData)

/-- The fields are set pair by pair, and the new ones are counted. The index `argi` grows with every
pair, so the number of the arguments is enough fuel. -/
def hsetLoop (cmd : HashWrite) : Nat → Nat → Bytes → Bytes → Int → Entry HashData →
    KeyRun HashData
  | 0, _, _, _, _, e => { run with status := .errKvStatus, entry := some e }
  | fuel + 1, argi, arg, val, ival, e =>
      if env.room argi then
        let (hstatus, data) := e.data.hset arg val
        let ival := if cmd = .hset ∧ hstatus = .ok then ival + 1 else ival
        let e := { e with data := data }
        if argi < msg.argc then
          match msg.getArgStr argi, msg.getArgStr (argi + 1 : Nat) with
          | some arg, some val => hsetLoop cmd fuel (argi + 2) arg val ival e
          | _, _ => { run with status := .errBadArgs, entry := some e, ival := ival }
        else
          { run with
              status := if cmd = .hset then .execSendInt else .execSendOk
              entry := some e
              ival := ival }
      else { run with status := .errKvStatus, entry := some e, ival := ival }

/-- A field is set when it is not there. -/
def hsetnxField (argi : Nat) (arg val : Bytes) (e : Entry HashData) : KeyRun HashData :=
  if env.room argi then
    let (hstatus, data) := e.data.hsetnx arg val
    { run with
        status := if hstatus = .exists then .execSendZero else .execSendOne
        entry := some { e with data := data } }
  else { run with status := .errKvStatus, entry := some e }

/-- The values are put behind the field two by two. -/
def happendLoop (arg : Bytes) : Nat → Nat → Bytes → Bytes → Bool → Entry HashData →
    KeyRun HashData
  | 0, _, _, _, _, e => { run with status := .errKvStatus, entry := some e }
  | fuel + 1, argi, val, val2, isNew, e =>
      if env.room argi then
        let (hstatus, data) := e.data.happend arg val val2
        let isNew := isNew || hstatus == .ok
        let e := { e with data := data }
        if argi < msg.argc then
          match msg.getArgStr argi with
          | none => { run with status := .errBadArgs, entry := some e }
          | some val =>
              if argi + 1 < msg.argc then
                match msg.getArgStr (argi + 1 : Nat) with
                | none => { run with status := .errBadArgs, entry := some e }
                | some val2 => happendLoop arg fuel (argi + 2) val val2 isNew e
              else happendLoop arg fuel (argi + 1) val [] isNew e
        else
          { run with
              status := if isNew then .execSendOne else .execSendZero, entry := some e }
      else { run with status := .errKvStatus, entry := some e }

end Write

/-- The arguments from an index on are strings. -/
def sizedFrom (msg : CommandMsg) (i : Nat) : Bool :=
  (List.range' i (msg.argc - i)).all fun j => (msg.getArgStr (j : Nat)).isSome

/-- The arguments from an index on are pairs of strings. -/
def sizedPairs (msg : CommandMsg) : Nat → Nat → Bool
  | 0, _ => true
  | fuel + 1, j =>
      if j < msg.argc then
        (msg.getArgStr j).isSome && (msg.getArgStr (j + 1 : Nat)).isSome &&
          sizedPairs msg fuel (j + 2)
      else true

/-- The second part of the first value of an append, and the index behind it. -/
def secondPart (cmd : HashWrite) (msg : CommandMsg) : Option (Bytes × Nat) :=
  if cmd = .happend ∧ 4 < msg.argc then (msg.getArgStr 4).map (·, 5) else some ([], 4)

def HashWrite.loop (cmd : HashWrite) (env : WriteEnv) (msg : CommandMsg) (run : KeyRun HashData)
    (arg val val2 : Bytes) (argi : Nat) (e : Entry HashData) : KeyRun HashData :=
  match cmd with
  | .hset | .hmset => hsetLoop env msg run cmd msg.argc argi arg val 0 e
  | .hsetnx => hsetnxField env run argi arg val e
  | .happend => happendLoop env msg run arg msg.argc argi val val2 false e

/-- One function writes fields for all these commands. The hash of a new key has no fields. -/
def doHwrite (env : WriteEnv) (cmd : HashWrite) (msg : CommandMsg)
    (entry : Option (Entry HashData)) : KeyRun HashData :=
  match msg.getArgStr 2, msg.getArgStr 3, secondPart cmd msg with
  | some arg, some val, some (val2, argi) =>
      let found := getKeyWrite env.table .hash entry
      match found.kstatus, found.entry with
      | some .keyOk, some e =>
          if env.table.valued then cmd.loop env msg (found.stop .execOk) arg val val2 argi e
          else found.stop .errKvStatus
      | some .keyIsNew, old =>
          let sized :=
            if cmd = .happend then sizedFrom msg argi else sizedPairs msg msg.argc argi
          if ¬sized then found.stop .errBadArgs
          else if env.table.resized then
            cmd.loop env msg { found.stop .execOk with isNew := true, type := .hash } arg val val2
              argi (Entry.write old [])
          else found.stop .errKvStatus
      | some .keyNoValue, _ => found.stop .errBadType
      | _, _ => found.stop .errKvStatus
  | _, _, _ => unfetched .errBadArgs entry

def execHset (env : WriteEnv) := doHwrite env .hset

def execHmset (env : WriteEnv) := doHwrite env .hmset

def execHsetnx (env : WriteEnv) := doHwrite env .hsetnx

def execHappend (env : WriteEnv) := doHwrite env .happend

/-- The fields that are there are counted, up to an argument that is no string. -/
def hdelLoop (msg : CommandMsg) : Nat → Nat → Bytes → HashData → Int → Bool × HashData × Int
  | 0, _, arg, hash, ival =>
      (true, (hash.hdel arg).2, if (hash.hdel arg).1 = .ok then ival + 1 else ival)
  | more + 1, i, arg, hash, ival =>
      let (hstatus, hash) := hash.hdel arg
      let ival := if hstatus = .ok then ival + 1 else ival
      match msg.getArgStr i with
      | none => (false, hash, ival)
      | some arg => hdelLoop msg more (i + 1) arg hash ival

/-- A hash that loses its last field is deleted. -/
def execHdel (env : WriteEnv) (msg : CommandMsg) (entry : Option (Entry HashData)) :
    KeyRun HashData :=
  match msg.getArgStr 2 with
  | none => unfetched .errBadArgs entry
  | some arg =>
      let found := getKeyWrite env.table .hash entry
      match found.kstatus, found.entry with
      | some .keyOk, some e =>
          if env.table.valued then
            let (whole, data, ival) := hdelLoop msg (msg.argc - 3) 3 arg e.data 0
            let run := { found.stop .execSendInt with
              entry := some { e with data := data }, ival := ival }
            if ¬whole then { run with status := .errBadArgs }
            else if 0 < ival ∧ data.hcount = 0 then
              if env.tombstoned then { run with entry := none, keyspaceDel := true }
              else { run with status := .errKvStatus, keyspaceDel := true }
            else run
          else found.stop .errKvStatus
      | some .keyIsNew, _ => found.stop .execSendZero
      | some .keyNoValue, _ => found.stop .errBadType
      | _, _ => found.stop .errKvStatus

end Raids.Key
