import Raids.Construction.Exec.Request
import Raids.Construction.Msg.Pack

namespace Raids.Key

/-- The types of the values that the commands store. An entry may have no type yet. -/
inductive MdType where
  | noData | string | list | hash | set | sortedSet | geo | hyperLogLog | stream
  deriving DecidableEq, Repr

/-- An entry of the table has a type, its data and a stamp of its expiry in nanoseconds, where zero
stands for none. -/
structure Entry (D : Type) where
  type : MdType
  data : D
  exp : Nat := 0
  deriving DecidableEq, Repr

/-- What one key of a command meets: the clock of the table, the stamps that are over, and whether
the table finds the key and its value, gives memory for a new value, and has not changed the value
meanwhile. Each item of `grow` is a container that is full, and whether it can grow. -/
structure KeyEnv where
  currentStamp : Nat := 0
  isExpired : Nat → Bool := fun exp => exp != 0 && exp ≤ currentStamp
  fetched : Bool := true
  valued : Bool := true
  resized : Bool := true
  validated : Bool := true
  grow : List Bool := []

/-- No call of the table fails. -/
structure KeyEnv.Works (env : KeyEnv) : Prop where
  fetched : env.fetched
  valued : env.valued
  resized : env.resized
  validated : env.validated
  grows : ∀ grown ∈ env.grow, grown = true

/-- What a write of many arguments meets: the table, how often the container is full at an argument
and whether it can grow then, and whether a container that loses its last element is deleted. -/
structure WriteEnv where
  table : KeyEnv := {}
  grow : Nat → List Bool := fun _ => []
  tombstoned : Bool := true

/-- No call of the table fails, and every container can grow. -/
structure WriteEnv.Works (env : WriteEnv) : Prop where
  table : env.table.Works
  grows : ∀ i, ∀ grown ∈ env.grow i, grown = true
  tombstoned : env.tombstoned

/-- The write of an argument is tried again until the container has grown enough. -/
def WriteEnv.room (env : WriteEnv) (i : Nat) : Bool := (env.grow i).all id

/-- The context of a key behind its fetch. No status stands for a failure of the table. -/
structure Fetched (D : Type) where
  kstatus : Option KeyStatus
  entry : Option (Entry D)
  isNew : Bool := false
  type : MdType := .noData

/-- What the handler of one key leaves: its status, the bytes of its output, the number and the
marks of the context, and the entry. -/
structure KeyRun (D : Type) where
  status : ExecStatus
  entry : Option (Entry D)
  out : Bytes := []
  ival : Int := 0
  isReadOnly : Bool := false
  isNew : Bool := false
  type : MdType := .noData
  keyspaceDel : Bool := false

section Fetch

variable {D : Type} (env : KeyEnv)

/-- An entry is live until its stamp is over. -/
def live (entry : Option (Entry D)) : Option (Entry D) := entry.filter fun e => !env.isExpired e.exp

/-- A fetch finds the key or acquires it. The entry of a key that expired is released first. -/
def execKeyFetch (readOnly : Bool) (entry : Option (Entry D)) : Fetched D :=
  if env.fetched then
    match live env entry with
    | some e => ⟨some .keyOk, some e, false, e.type⟩
    | none =>
        if readOnly then ⟨some .keyNotFound, none, false, .noData⟩
        else ⟨some .keyIsNew, none, true, .noData⟩
  else ⟨none, entry, false, .noData⟩

/-- A key of another type has no value for the command, and one without a type is not found. -/
def getKeyRead (type : MdType) (entry : Option (Entry D)) : Fetched D :=
  let found := execKeyFetch env true entry
  if found.kstatus = some .keyOk ∧ found.type ≠ type then
    { found with
        kstatus := some (if found.type = .noData then .keyNotFound else .keyNoValue) }
  else found

/-- A key of another type has no value for the command, and one without a type counts as new. -/
def getKeyWrite (type : MdType) (entry : Option (Entry D)) : Fetched D :=
  let found := execKeyFetch env false entry
  if found.kstatus = some .keyOk ∧ found.type ≠ type then
    if found.type = .noData then { found with kstatus := some .keyIsNew, isNew := true }
    else { found with kstatus := some .keyNoValue }
  else found

end Fetch

section Settle

variable {D : Type}

/-- The entry that a value is written to. An entry comes into existence with its first value. -/
def Entry.write (entry : Option (Entry D)) (data : D) : Entry D :=
  match entry with
  | none => { type := .noData, data := data }
  | some e => { e with data := data }

/-- A handler that fails leaves the entry as it found it. -/
def Fetched.stop (found : Fetched D) (status : ExecStatus) : KeyRun D :=
  { status := status, entry := found.entry, isNew := found.isNew, type := found.type }

/-- The type of a new key is set behind its handler, from the context or from the category of the
command. -/
def KeyRun.settle (run : KeyRun D) (catg : MdType) : Option (Entry D) :=
  if ¬run.isReadOnly ∧ run.status.isSuccess ∧ ¬run.keyspaceDel ∧ run.isNew then
    run.entry.map fun e =>
      let type := if run.type = .noData then catg else run.type
      { e with type := if type = .noData then e.type else type }
  else run.entry

end Settle

/-- The text of an error. The errors of the table and of a message have texts of their own. -/
def errString : ExecStatus → String
  | .errBadCmd => "-ERR unknown"
  | .errBadArgs => "-ERR arguments format"
  | .errBadType => "-ERR type invalid"
  | .errBadRange => "-ERR index invalid"
  | .errNoGroup => "-ERR group missing"
  | .errGroupExists => "-ERR group exists"
  | .errStreamId => "-ERR stream id invalid"
  | .errAllocFail => "-ERR alloc failed"
  | .errKeyExists => "-ERR key exists"
  | .errKeyDoesntExist => "-ERR key missing"
  | .errBadMulti => "-ERR bad multi, no nesting"
  | .errBadExec => "-ERR bad exec, no multi"
  | .errBadDiscard => "-ERR bad discard, no multi"
  | .errAbortTrans => "-ERR transaction aborted, error"
  | .errSave => "-ERR save failed, file error"
  | .errLoad => "-ERR load failed, file error"
  | .errKvStatus => "-ERR kv"
  | .errMsgStatus => "-ERR message"
  | _ => "-ERR"

/-- A line of the output. -/
def line (s : String) : Bytes := text s ++ crlf

/-- A number as an integer reply. -/
def sendInt (ival : Int) : Bytes := integerChar :: int64ToString ival ++ crlf

/-- An error names its command. -/
def sendErrString (arg0 : Bytes) (status : ExecStatus) : Bytes :=
  text (errString status) ++ text " cmd: '" ++ arg0.take 32 ++ text "'" ++ crlf

/-- The reply of a status. Some handlers have sent their reply already. -/
def sendStatus (arg0 : Bytes) (ival : Int) (status : ExecStatus) : Bytes :=
  match status with
  | .execOk | .execSetupOk | .execSendData => []
  | .execSendOk => line "+OK"
  | .execAbortSendNil | .execSendNil => line "$-1"
  | .execSendNull => line "*-1"
  | .execSendInt => sendInt ival
  | .execAbortSendZero | .execSendZeroarr => line "*0"
  | .execSendZero => line ":0"
  | .execSendOne => line ":1"
  | .execSendNegOne => line ":-1"
  | .execSendZeroString => line "$0" ++ crlf
  | .execQueued => line "+QUEUED"
  | .execBlocked | .execSuccess | .execDepends | .execContinue | .execSkip => []
  | .execQuit | .execDebug => line "+OK"
  | status => sendErrString arg0 status

/-- The reply of a command of one key. -/
def KeyRun.reply {D : Type} (run : KeyRun D) (arg0 : Bytes) : Bytes :=
  run.out ++ sendStatus arg0 run.ival run.status

end Raids.Key
