import Raids.Construction.Key.Add
import Raids.Construction.Key.Continue

namespace Raids.Key

/-- The two commands. -/
inductive RenameCmd where
  | rename
  | renamenx
  deriving DecidableEq, Repr

/-- What a renaming meets: the table when the key is read, and whether the table finds the new key,
has memory for its value, and finds the key again. The clock is the same in all turns. -/
structure RenameEnv where
  source : KeyEnv := {}
  destFetched : Bool := true
  destResized : Bool := true
  deleteFetched : Bool := true

def RenameEnv.dest (env : RenameEnv) : KeyEnv :=
  { env.source with fetched := env.destFetched, resized := env.destResized }

def RenameEnv.delete (env : RenameEnv) : KeyEnv :=
  { env.source with fetched := env.deleteFetched }

/-- The status of a turn that has written. -/
def RenameCmd.sent : RenameCmd → ExecStatus
  | .rename => .execSendOk
  | .renamenx => .execSendInt

/-- The new key takes the value that was read from the key, and its type. Its own expiry stays. -/
def renameDest (env : RenameEnv) (cmd : RenameCmd) (s : CommandRun Bytes)
    (entry : Option (Entry Bytes)) : KeyRun Bytes :=
  match s.keys[0]?.bind fun key => key.part.map (key, ·) with
  | none => unfetched .execDepends entry
  | some (key, part) =>
      if part.isEmpty then unfetched .errKeyDoesntExist entry
      else
        let found := execKeyFetch env.dest false entry
        match found.kstatus with
        | some .keyOk | some .keyIsNew =>
            if env.dest.resized then
              { found.stop cmd.sent with
                entry := some { Entry.write found.entry part with type := key.type } }
            else found.stop .errKvStatus
        | _ => found.stop .errKvStatus

/-- The value of the key is saved; a key that is missing saves no bytes. -/
def renameRead (env : RenameEnv) (entry : Option (Entry Bytes)) : KeyRun Bytes × Option Bytes :=
  let found := execKeyFetch env.source true entry
  let stop := fun status => { found.stop status with isReadOnly := true }
  match found.kstatus, found.entry with
  | some .keyOk, some e =>
      if env.source.valued then
        if env.source.validated then (stop .execDepends, some e.data)
        else (stop .errKvStatus, some e.data)
      else (stop .errKvStatus, none)
  | some .keyNotFound, _ =>
      if env.source.validated then (stop .execDepends, some []) else (stop .errKvStatus, some [])
  | _, _ => (stop .errKvStatus, none)

/-- The key is deleted behind the write of the new one. -/
def renameDelete (env : RenameEnv) (cmd : RenameCmd) (entry : Option (Entry Bytes)) :
    KeyRun Bytes :=
  let found := execKeyFetch env.delete false entry
  match found.kstatus with
  | some .keyOk | some .keyIsNew =>
      { found.stop cmd.sent with
        entry := none
        ival := if cmd = .rename then 0 else 1
        keyspaceDel := true }
  | _ => found.stop .errKvStatus

def execRename (env : RenameEnv) (cmd : RenameCmd) : Handler Bytes := fun s ctx entry =>
  if ctx.argn = 2 then (renameDest env cmd s entry, none)
  else if ctx.dep = 0 then renameRead env entry
  else (renameDelete env cmd entry, none)

/-- The first turn of the new key looks whether it is there. -/
def execRenamenx (env : RenameEnv) : Handler Bytes := fun s ctx entry =>
  if ctx.argn = 2 ∧ ctx.dep = 0 then
    let found := execKeyFetch env.dest true entry
    let stop := fun status => { found.stop status with isReadOnly := true }
    match found.kstatus with
    | some .keyNotFound => execRename env .renamenx s ctx found.entry
    | some .keyOk => (stop .execAbortSendZero, none)
    | _ => (stop .errKvStatus, none)
  else execRename env .renamenx s ctx entry

def RenameCmd.handler (cmd : RenameCmd) (env : RenameEnv) : Handler Bytes :=
  match cmd with
  | .rename => execRename env .rename
  | .renamenx => execRenamenx env

end Raids.Key
