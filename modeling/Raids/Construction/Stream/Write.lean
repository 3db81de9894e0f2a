import Mathlib.Data.Prod.Lex
import Raids.Construction.Exec.Request

namespace Raids

/-- The milliseconds and the serial number of an id, in lexicographic order. -/
abbrev StreamId := Nat ×ₗ Nat

/-- An entry keeps the text of its id in front of its fields. -/
structure StreamEntry where
  id : Bytes
  fields : List Bytes
  deriving DecidableEq, Repr

/-- The functions of the stream library that the commands call. -/
structure StreamData where
  strToId : Bytes → Option StreamId
  compare : StreamId → StreamId → Int
  bsearchEq : List StreamEntry → Bytes → Option Nat

/-- What a key holds. A key without a type counts as missing. -/
inductive StreamValue where
  | missing
  | stream (entries : List StreamEntry)
  | other
  deriving DecidableEq, Repr

/-- A key of the table with its update stamp; zero stands for no stamp. -/
structure StreamKey where
  value : StreamValue := .missing
  upd : UInt64 := 0
  deriving DecidableEq

/-- What one command meets outside: the clock, and whether the table finds the key, its value and
the memory of each growth that the stream asks for. -/
structure StreamEnv where
  clock : UInt64
  fetched : Bool := true
  opened : Bool := true
  grow : List Bool := []

/-- The result of a command. -/
inductive StreamReply where
  | status (status : ExecStatus)
  | string (id : Bytes)
  | int (ival : Nat)
  deriving DecidableEq, Repr

/-- The fetch of a key for writing; no status stands for an error of the table. -/
def getKeyWrite (env : StreamEnv) : StreamValue → Option KeyStatus
  | .missing => if env.fetched then some .keyIsNew else none
  | .stream _ => if env.fetched then some .keyOk else none
  | .other => if env.fetched then some .keyNoValue else none

def StreamValue.entries : StreamValue → List StreamEntry
  | .stream entries => entries
  | _ => []

/-- The text of an id. -/
def idText (ms ser : UInt64) : Bytes :=
  uint64ToString ms.toNat ++ minus :: if ser = 0 then text "0" else uint64ToString ser.toNat

/-- The update stamp serializes the ids of one millisecond. -/
def getNextId (clock upd : UInt64) : Bytes × UInt64 :=
  let (ms, ser) :=
    if upd ≠ 0 ∧ clock ≤ upd / 1000000 then (upd / 1000000, upd % 1000000 + 1) else (clock, 0)
  (idText ms ser, ms * 1000000 + ser)

/-- The arguments of `XADD`. -/
structure XaddArgs where
  maxlen : Nat
  id : Bytes
  fields : List Bytes
  deriving DecidableEq, Repr

/-- The arguments from index `j` on. -/
def CommandMsg.argsFrom (msg : CommandMsg) (j : Nat) : List (Option Bytes) :=
  (List.range' j (msg.argc - j)).map fun k => msg.getArgStr k

/-- A length comes behind an optional tilde; the index behind it is returned too. -/
def lengthArg (msg : CommandMsg) (j : Nat) : Option (Nat × Nat) := do
  let arg ← msg.getArgStr j
  let (arg, j) ←
    if arg = text "~" then (msg.getArgStr (j + 1)).map (·, j + 2) else some (arg, j + 1)
  let maxlen ← (stringToUint arg).toOption
  return (maxlen, j)

def xaddArgs (msg : CommandMsg) : Option XaddArgs := do
  let arg ← msg.getArgStr 2
  let (maxlen, j) ← if arg.map lower = text "maxlen" then lengthArg msg 3 else some (0, 2)
  let idval ← msg.getArgStr j
  let fields ← (msg.argsFrom (j + 1)).mapM id
  return ⟨maxlen, idval, fields⟩

section Commands

variable (lib : StreamData)

/-- The id of a new entry with the stamp that is left behind. A given id is compared with the last
entry of the stream. -/
def xaddId (clock upd : UInt64) (entries : List StreamEntry) (idval : Bytes) :
    Except ExecStatus (Bytes × UInt64) :=
  if idval = text "*" then .ok (getNextId clock upd)
  else
    match lib.strToId idval with
    | none => .error .errStreamId
    | some sid =>
        match entries.getLast? with
        | none => .ok (idval, upd)
        | some last =>
            match lib.strToId last.id with
            | none => .error .errStreamId
            | some sid2 =>
                if lib.compare sid sid2 ≤ 0 then .error .errStreamId else .ok (idval, upd)

/-- The stream grows until it has room for the entry. -/
def streamRpush (entries : List StreamEntry) (entry : StreamEntry) :
    List Bool → Option (List StreamEntry)
  | [] => some (entries ++ [entry])
  | true :: grow => streamRpush entries entry grow
  | false :: _ => none

/-- The oldest entries are removed. -/
def streamLtrim (maxlen : Nat) (entries : List StreamEntry) : List StreamEntry :=
  if maxlen < entries.length then entries.drop (entries.length - maxlen) else entries

/-- The entry is stored behind the others, and the stream is trimmed to a positive length. -/
def xaddPush (env : StreamEnv) (key : StreamKey) (args : XaddArgs) (idval : Bytes)
    (upd : UInt64) : StreamReply × StreamKey :=
  match streamRpush key.value.entries ⟨idval, args.fields⟩ env.grow with
  | none => (.status .errKvStatus, { key with upd := upd })
  | some entries =>
      let entries := if 0 < args.maxlen then streamLtrim args.maxlen entries else entries
      (.string idval, ⟨.stream entries, upd⟩)

/-- The entry is added to the opened stream, unless its id is refused. -/
def xaddEntry (env : StreamEnv) (key : StreamKey) (args : XaddArgs) : StreamReply × StreamKey :=
  match xaddId lib env.clock key.upd key.value.entries args.id with
  | .error status => (.status status, key)
  | .ok result => xaddPush env key args result.1 result.2

/-- A new stream is created before its id is known, but its key has no type until the command
succeeds. -/
def execXadd (env : StreamEnv) (msg : CommandMsg) (key : StreamKey) : StreamReply × StreamKey :=
  match xaddArgs msg with
  | none => (.status .errBadArgs, key)
  | some args =>
      match getKeyWrite env key.value with
      | some .keyNoValue => (.status .errBadType, key)
      | some .keyIsNew | some .keyOk =>
          if env.opened then xaddEntry lib env key args else (.status .errKvStatus, key)
      | _ => (.status .errKvStatus, key)

/-- A length of zero does not trim. -/
def execXtrim (env : StreamEnv) (msg : CommandMsg) (key : StreamKey) : StreamReply × StreamKey :=
  if msg.matchArg 2 [text "maxlen"] = 0 then (.status .errBadArgs, key)
  else
    match lengthArg msg 3 with
    | none => (.status .errBadArgs, key)
    | some (maxlen, _) =>
        if maxlen = 0 then (.int 0, key)
        else
          match getKeyWrite env key.value with
          | some .keyNoValue => (.status .errBadType, key)
          | some .keyIsNew => (.status .execSendZero, key)
          | some .keyOk =>
              if env.opened then
                (.int (key.value.entries.length - maxlen),
                  { key with value := .stream (streamLtrim maxlen key.value.entries) })
              else (.status .errKvStatus, key)
          | _ => (.status .errKvStatus, key)

/-- The entries of the ids are removed one by one, up to an argument that is not a string. -/
def xdelLoop (entries : List StreamEntry) (ival : Nat) :
    List (Option Bytes) → StreamReply × List StreamEntry
  | [] => (.int ival, entries)
  | none :: _ => (.status .errBadArgs, entries)
  | some arg :: args =>
      match lib.bsearchEq entries arg with
      | some off =>
          if off < entries.length then xdelLoop (entries.eraseIdx off) (ival + 1) args
          else xdelLoop entries ival args
      | none => xdelLoop entries ival args

/-- The key is fetched for the first id. -/
def execXdel (env : StreamEnv) (msg : CommandMsg) (key : StreamKey) : StreamReply × StreamKey :=
  match msg.argsFrom 2 with
  | [] => (.int 0, key)
  | none :: _ => (.status .errBadArgs, key)
  | some arg :: args =>
      match getKeyWrite env key.value with
      | some .keyNoValue => (.status .errBadType, key)
      | some .keyIsNew => (.status .execSendZero, key)
      | some .keyOk =>
          if env.opened then
            let (reply, entries) := xdelLoop lib key.value.entries 0 (some arg :: args)
            (reply, { key with value := .stream entries })
          else (.status .errKvStatus, key)
      | _ => (.status .errKvStatus, key)

end Commands

/-- The commands that change the entries of a stream. -/
inductive StreamWrite where
  | xadd (msg : CommandMsg)
  | xtrim (msg : CommandMsg)
  | xdel (msg : CommandMsg)

def execStreamWrite (lib : StreamData) (env : StreamEnv) (key : StreamKey) :
    StreamWrite → StreamReply × StreamKey
  | .xadd msg => execXadd lib env msg key
  | .xtrim msg => execXtrim env msg key
  | .xdel msg => execXdel lib env msg key

end Raids
