import Raids.Construction.Multi.Fetch

namespace Raids
open Machine

/-- The transaction state of a connection. A connection that queues commands has a queue. -/
structure RedisExec (E : Type) where
  multi : Option RedisMultiExec := none
  multiQueued : Bool := false
  session : Session E
  queueing : multiQueued = true → multi.isSome = true := by simp

/-- A connection answers with a status, with the reply of a command, or with an array of
replies in front of which stands their count. -/
inductive Response (E R : Type) where
  | status (status : ExecStatus)
  | command (log : CommandLog E R)
  | transaction (count : Nat) (logs : List (CommandLog E R))

variable {E R : Type}

def RedisExec.withMulti (c : RedisExec E) (mul : RedisMultiExec) : RedisExec E :=
  { c with multi := some mul, queueing := fun _ => rfl }

def RedisExec.discardMulti (c : RedisExec E) : RedisExec E :=
  match c.multi with
  | none => c
  | some _ => { c with multi := none, multiQueued := false, queueing := nofun }

def execDiscard (c : RedisExec E) : Response E R × RedisExec E :=
  match c.multi with
  | none => (.status .errBadDiscard, c)
  | some _ => (.status .execSendOk, c.discardMulti)

/-- The watched keys are the keys of a message at the head of the queue. -/
def RedisMultiExec.watchMsg (mul : RedisMultiExec) : RedisMultiMsg × List (Nat × Nat) :=
  mul.watchList.foldl (fun (mm, filter) wl => pushKey [] wl.key mm filter)
    (⟨none, .watchCmd, [], []⟩, mul.filter)

/-- The queue starts. Without memory for the watch message the connection queues without it. -/
def RedisExec.startMulti (c : RedisExec E) (mul : RedisMultiExec) (req : Request) :
    Response E R × RedisExec E :=
  let mul := { mul with multiStart := true }
  let started (mul : RedisMultiExec) : RedisExec E :=
    { c with multi := some mul, multiQueued := true, queueing := fun _ => rfl }
  if mul.watchCount ≠ 0 then
    if req.grants .watchMsg then
      let (mm, filter) := mul.watchMsg
      (.status .execSendOk,
        started { mul with
          msgList := mm :: mul.msgList, msgCount := mul.msgCount + 1, filter := filter })
    else (.status .errAllocFail, started mul)
  else (.status .execSendOk, started mul)

def execMulti (c : RedisExec E) (req : Request) : Response E R × RedisExec E :=
  match c.multi with
  | some mul => if mul.multiStart then (.status .errBadMulti, c) else c.startMulti mul req
  | none => if req.grants .multi then c.startMulti {} req else (.status .errAllocFail, c)

def execUnwatch (c : RedisExec E) : Response E R × RedisExec E :=
  match c.multi with
  | none => (.status .execSendOk, c)
  | some mul =>
      let c := c.withMulti { mul with watchList := [], watchCount := 0 }
      (.status .execSendOk, if mul.msgCount = 0 ∧ ¬mul.multiStart then c.discardMulti else c)

section Table

variable [TableEntry E]

/-- The serial number of an entry; the watch list holds zero for a missing key. -/
def serialOf (entry : Option E) : Nat := entry.elim 0 TableEntry.serial

/-- One key joins the watch list, and the first one makes it. -/
def execWatch (c : RedisExec E) (req : Request) (idx : Nat) (ctx : EvKeyCtx) :
    ExecStatus × RedisExec E :=
  let (ctx, db) := execKeyFetch .read c.session.db ctx
  let c := { c with session := { c.session with db := db } }
  let push (mul : RedisMultiExec) : ExecStatus × RedisExec E :=
    if req.grants (.watch idx) then
      (.execSendOk, c.withMulti { mul with
        watchList := mul.watchList ++ [⟨serialOf (db ctx.hash), ctx⟩]
        watchCount := mul.watchCount + 1 })
    else (.errAllocFail, c.withMulti mul)
  match c.multi with
  | some mul => push mul
  | none => if req.grants .multi then push {} else (.errAllocFail, c)

/-- The keys join one after the other, up to the first error. -/
def watchKeys (req : Request) : RedisExec E → Nat → List EvKeyCtx → ExecStatus × RedisExec E
  | c, _, [] => (.execSendOk, c)
  | c, idx, ctx :: rest =>
      let (status, c) := execWatch c req idx ctx
      if status = .execSendOk then watchKeys req c (idx + 1) rest else (status, c)

/-- The watch list and the watch message share their keys. -/
def RedisMultiExec.watchStatus (mul : RedisMultiExec) (i : Nat) (wl : RedisWatchList) : KeyStatus :=
  match mul.msgList with
  | ⟨none, _, keys, _⟩ :: _ => (keys.getD i wl.key).kstatus
  | _ => wl.key.kstatus

/-- The key that owns the lock of the watched key `i`. -/
def RedisMultiExec.watchLock (mul : RedisMultiExec) (i : Nat) : Option EvKeyCtx :=
  match mul.msgList with
  | [] => none
  | mm :: _ => (mm.kptr[i]?).bind (mul.allKeys[·]?)

/-- The check compares the serial number and the hashes of a key that exists. -/
def watchChanged (db : Keyspace E) (mul : RedisMultiExec) (i : Nat) (wl : RedisWatchList) : Bool :=
  if mul.watchStatus i wl = .keyOk then
    match mul.watchLock i with
    | none => true
    | some lock => wl.serial ≠ serialOf (db lock.hash) ∨ wl.key.hash ≠ lock.hash
  else wl.serial ≠ 0

def anyChanged (db : Keyspace E) (mul : RedisMultiExec) : Nat → List RedisWatchList → Bool
  | _, [] => false
  | i, wl :: rest => watchChanged db mul i wl || anyChanged db mul (i + 1) rest

/-- The queue runs after its first `skip` messages. -/
def runQueue (handlers : Handlers E R) (session : Session E) (msgs : List RedisMultiMsg)
    (skip : Nat) : List (CommandLog E R) × Session E :=
  let (logs, s) := run (execQueued handlers)
    ⟨session, (msgs.take skip).flatMap (·.keys)⟩ (msgs.drop skip)
  (logs.reduceOption, s.session)

def execExec (handlers : Handlers E R) (c : RedisExec E) (req : Request) :
    Response E R × RedisExec E :=
  match c.multi with
  | none => (.status .errBadExec, c)
  | some mul =>
      if mul.multiAbort then (.status .errAbortTrans, c.discardMulti)
      else
        let mul := { mul with msgList := multiTryLock c.session.db [] mul.msgList }
        let skip := if 0 < mul.watchCount then 1 else 0
        if 0 < mul.watchCount ∧
            (mul.msgCount = 0 ∨ anyChanged c.session.db mul 0 mul.watchList) then
          (.status .execSendNull, c.discardMulti)
        else if req.grants .result then
          let (logs, session) := runQueue handlers c.session mul.msgList skip
          (.transaction (mul.msgCount - skip) logs, { c.discardMulti with session := session })
        else (.status .errAllocFail, c.discardMulti)

/-- A connection that queues still executes these commands. -/
def isTransactionCmd (cmd : RedisCmd) : Bool :=
  cmd = .execCmd ∨ cmd = .multiCmd ∨ cmd = .discardCmd

/-- A request that cannot be prepared marks the queue of the connection. -/
def RedisExec.abort (c : RedisExec E) : RedisExec E :=
  if queued : c.multiQueued then
    c.withMulti { c.multi.get (c.queueing queued) with multiAbort := true }
  else c

/-- The command joins the queue, or its error is the reply. -/
def queueCommand (hash : Nat → Bytes → KeyHash) (c : RedisExec E) (queued : c.multiQueued = true)
    (req : Request) (cmd : RedisCmd) (g : Geometry) : Response E R × RedisExec E :=
  let (status, mul) :=
    multiQueued (hash c.session.dbNum) (c.multi.get (c.queueing queued)) req cmd g
  (.status (if status = .execOk then .execQueued else status), c.withMulti mul)

/-- A command that is not queued runs to its end. -/
def execNow (hash : Nat → Bytes → KeyHash) (handlers : Handlers E R) (c : RedisExec E)
    (req : Request) (cmd : RedisCmd) (g : Geometry) : Response E R × RedisExec E :=
  match cmd with
  | .execCmd => execExec handlers c req
  | .multiCmd => execMulti c req
  | .discardCmd => execDiscard c
  | .unwatchCmd => execUnwatch c
  | cmd =>
      match execSetup (hash c.session.dbNum) req g with
      | .error status => (.status status, c)
      | .ok keys =>
          if cmd = .watchCmd then
            let (status, c) := watchKeys req c 0 keys
            (.status status, c)
          else
            let (log, session) := execCommand handlers cmd req.msg keys c.session
            (.command log, { c with session := session })

/-- One request of the connection. -/
def exec (hash : Nat → Bytes → KeyHash) (handlers : Handlers E R) (c : RedisExec E)
    (req : Request) : Response E R × RedisExec E :=
  match prepareExecCommand req with
  | .error status => (.status status, c.abort)
  | .ok (cmd, g) =>
      if queued : c.multiQueued = true ∧ isTransactionCmd cmd = false then
        queueCommand hash c queued.1 req cmd g
      else execNow hash handlers c req cmd g

end Table

open Dialogue

/-- A string of the table, without a time to live. -/
structure StringEntry where
  value : Bytes
  serial : Nat
  positive : 0 < serial

instance : TableEntry StringEntry := ⟨StringEntry.serial, StringEntry.positive, fun _ => false⟩

/-- The serial number of an entry grows when its value is replaced. -/
def StringEntry.replace (entry : Option StringEntry) (value : Bytes) : StringEntry :=
  ⟨value, serialOf entry + 1, Nat.succ_pos _⟩

/-- A string command replies with a status or with the string. -/
inductive StringReply where
  | status (status : ExecStatus)
  | string (value : Bytes)
  deriving DecidableEq

abbrev StringProgram := Program (KeyQuery StringEntry) (Option (KeyView StringEntry)) StringReply

def execGet : StringProgram :=
  .ask (.fetch 0 true) fun view =>
    match view with
    | some ⟨_, .keyOk, _, some entry⟩ => .done (.string entry.value)
    | some ⟨_, .keyNotFound, _, _⟩ => .done (.status .execSendNil)
    | some ⟨_, .keyNoValue, _, _⟩ => .done (.status .errBadType)
    | _ => .done (.status .errKvStatus)

/-- The command without its options. A key of another type is replaced. -/
def execSet (msg : CommandMsg) : StringProgram :=
  match msg.getArgStr 2 with
  | none => .done (.status .errBadArgs)
  | some value =>
      .ask (.fetch 0 false) fun view =>
        match view with
        | none | some ⟨_, .keyNotFound, _, _⟩ => .done (.status .errKvStatus)
        | some ⟨_, kstatus, _, entry⟩ =>
            .ask (.finish 0 (.store (.replace entry value)) .keyOk (kstatus = .keyNoValue))
              fun _ => .done (.status .execSendOk)

/-- A server of two commands. -/
def stringHandlers : Handlers StringEntry StringReply
  | .getCmd, _ => .keys execGet
  | .setCmd, msg => .keys (execSet msg)
  | _, _ => .keys (.done (.status .errBadCmd))

/-- A short hash tells the keys of short words apart. -/
def shortHash (dbNum : Nat) (kbuf : Bytes) : KeyHash :=
  ⟨kbuf.foldl (fun h b => h * 256 + b.toUInt64) 0, dbNum.toUInt64⟩

/-- A table of strings without entries. -/
def emptySession : Session StringEntry := ⟨fun _ => none, 0⟩

def newConnection : RedisExec StringEntry := { session := emptySession }

def multiRequest : Request := wordsRequest (some .multiCmd) ["multi"]

def execRequest : Request := wordsRequest (some .execCmd) ["exec"]

/-- A connection behind its first `MULTI`. -/
def multiConnection : RedisExec StringEntry :=
  (exec shortHash stringHandlers newConnection multiRequest).2

end Raids
