import Raids.Construction.Exec.Request
import Raids.Library.Dialogue
import Raids.Library.Machine

namespace Raids

/-- A queued command with its keys; `kptr` gives the position of the lock of each key, counted
over all keys of the queue. The watch list is queued as a message of its own. -/
structure RedisMultiMsg where
  msg : Option CommandMsg
  cmd : RedisCmd
  keys : List EvKeyCtx
  kptr : List Nat

/-- A watched key and its serial number, zero when the key was missing. -/
structure RedisWatchList where
  serial : Nat
  key : EvKeyCtx

/-- The queue and the watch list of one connection. The filter holds the word and the bit of each
key hash that was queued. -/
structure RedisMultiExec where
  msgList : List RedisMultiMsg := []
  watchList : List RedisWatchList := []
  msgCount : Nat := 0
  watchCount : Nat := 0
  filter : List (Nat × Nat) := []
  multiStart : Bool := false
  multiAbort : Bool := false

/-- All keys of the queue in its order. -/
def RedisMultiExec.allKeys (mul : RedisMultiExec) : List EvKeyCtx := mul.msgList.flatMap (·.keys)

def filterBit (h : UInt64) : Nat × Nat := (h.toNat / 64 % 4, h.toNat % 64)

/-- The first key with the same hash owns the lock. -/
def getDupKctx (keys : List EvKeyCtx) (hash : KeyHash) : Option Nat :=
  keys.findIdx? (·.hash = hash)

/-- The filter saves the search for a key that is not in the queue. -/
def lockPosition (filter : List (Nat × Nat)) (keys : List EvKeyCtx) (hash : KeyHash) : Nat :=
  if filterBit hash.hash1 ∈ filter then (getDupKctx keys hash).getD keys.length else keys.length

/-- A key that joins the message at the end of the queue sees the keys `before` the message and
the keys that joined it earlier. -/
def pushKey (before : List EvKeyCtx) (ctx : EvKeyCtx) (mm : RedisMultiMsg)
    (filter : List (Nat × Nat)) : RedisMultiMsg × List (Nat × Nat) :=
  ({ mm with
      keys := mm.keys ++ [ctx]
      kptr := mm.kptr ++ [lockPosition filter (before ++ mm.keys) ctx.hash] },
    filterBit ctx.hash.hash1 :: filter)

/-- The loop adds the keys of the command, and stops at the first that is no key. -/
def queueKeys (hash : Bytes → KeyHash) (req : Request) (before : List EvKeyCtx) :
    List Int → RedisMultiMsg → List (Nat × Nat) → ExecStatus × RedisMultiMsg × List (Nat × Nat)
  | [], mm, filter => (.execOk, mm, filter)
  | i :: rest, mm, filter =>
      match req.msg.getArgStr i with
      | none => (.errBadArgs, mm, filter)
      | some key =>
          if req.grants (.key mm.keys.length) then
            let (mm, filter) :=
              pushKey before { kbuf := key, argn := i, hash := hash key } mm filter
            queueKeys hash req before rest mm filter
          else (.errAllocFail, mm, filter)

/-- The command is pushed to the queue before its keys are known to be good. -/
def multiQueued (hash : Bytes → KeyHash) (mul : RedisMultiExec) (req : Request) (cmd : RedisCmd)
    (g : Geometry) : ExecStatus × RedisMultiExec :=
  let keyCount := if 0 < g.first then calcKeyCount g req.msg.argc else 0
  let mm : RedisMultiMsg := ⟨some req.msg, cmd, [], []⟩
  if req.grants .message then
    if 0 < keyCount then
      let (status, mm, filter) :=
        queueKeys hash req mul.allKeys (keyIndices g req.msg.argc) mm mul.filter
      let mul := { mul with
        msgList := mul.msgList ++ [mm], msgCount := mul.msgCount + 1, filter := filter }
      if status ≠ .execOk then (status, mul)
      else if mm.keys.length ≠ keyCount then (.errBadArgs, mul)
      else (.execOk, mul)
    else (.execOk, { mul with msgList := mul.msgList ++ [mm], msgCount := mul.msgCount + 1 })
  else (.errAllocFail, mul)

open Dialogue

/-- What the table keeps of an entry besides its value. The serial number of an entry is never
zero, and the clock stands still while a command runs. -/
class TableEntry (E : Type) where
  serial : E → Nat
  serial_pos : ∀ e, 0 < serial e
  isExpired : E → Bool

/-- The table is a map of the key hashes to the entries. -/
abbrev Keyspace (E : Type) := KeyHash → Option E

/-- A fetch is for a read, for a write, or for a command that declares neither. -/
inductive FetchMode where
  | read | write | neither
  deriving DecidableEq, Repr

def fetchMode (cmd : RedisCmd) (forceRead : Bool) : FetchMode :=
  if (cmdDb cmd).flags &&& cmdReadFlag ≠ 0 ∨ forceRead then .read
  else if (cmdDb cmd).flags &&& cmdWriteFlag ≠ 0 then .write
  else .neither

/-- What a handler may do to the entry that it fetched. -/
inductive Update (E : Type) where
  | keep
  | store (entry : E)
  | tombstone

/-- A handler fetches the keys of its command by their index, and finishes each with an update,
a status and perhaps the flag of a new key. -/
inductive KeyQuery (E : Type) where
  | fetch (idx : Nat) (forceRead : Bool)
  | finish (idx : Nat) (update : Update E) (kstatus : KeyStatus) (isNew : Bool)

/-- A handler sees which key it reached, its status and flag, and the entry of the table. -/
structure KeyView (E : Type) where
  hash : KeyHash
  kstatus : KeyStatus
  isNew : Bool
  entry : Option E

/-- A handler that fetches keys is a program; the other handlers select a database or only
reply. -/
inductive Handler (E R : Type) where
  | keys (program : Program (KeyQuery E) (Option (KeyView E)) R)
  | select (dbNum : Nat) (reply : R)

abbrev Handlers (E R : Type) := RedisCmd → CommandMsg → Handler E R

section Fetch

variable {E : Type} [TableEntry E]

/-- The lock of an entry that the table does not have creates it. -/
def acquire (db : Keyspace E) (hash : KeyHash) : KeyStatus :=
  if (db hash).isSome then .keyOk else .keyIsNew

def isExpired (db : Keyspace E) (hash : KeyHash) : Bool :=
  (db hash).elim false TableEntry.isExpired

def expire (db : Keyspace E) (hash : KeyHash) : Keyspace E := Function.update db hash none

/-- The fetch of a key outside of a transaction. -/
def execKeyFetch (mode : FetchMode) (db : Keyspace E) (ctx : EvKeyCtx) : EvKeyCtx × Keyspace E :=
  match mode with
  | .read =>
      if isExpired db ctx.hash then
        ({ ctx with kstatus := .keyNotFound, isReadOnly := true, isExpired := true },
          expire db ctx.hash)
      else
        let kstatus := if (db ctx.hash).isSome then .keyOk else .keyNotFound
        ({ ctx with kstatus := kstatus, isReadOnly := true }, db)
  | .write =>
      if isExpired db ctx.hash then
        ({ ctx with kstatus := .keyIsNew, isReadOnly := false, isExpired := true, isNew := true },
          expire db ctx.hash)
      else
        let kstatus := acquire db ctx.hash
        ({ ctx with
            kstatus := kstatus, isReadOnly := false, isNew := ctx.isNew || kstatus = .keyIsNew },
          db)
  | .neither => ({ ctx with kstatus := .keyNoValue, isReadOnly := true }, db)

/-- The fetch of a key that owns its lock. The status is the one of the lock, or the one that an
earlier fetch left. -/
def multiOwnerFetch (mode : FetchMode) (db : Keyspace E) (ctx : EvKeyCtx) :
    EvKeyCtx × Keyspace E :=
  match mode with
  | .read =>
      if ctx.kstatus = .keyIsNew then
        ({ ctx with kstatus := .keyNotFound, isReadOnly := true }, db)
      else if ctx.kstatus = .keyOk ∧ isExpired db ctx.hash then
        ({ ctx with kstatus := .keyNotFound, isReadOnly := true, isExpired := true },
          expire db ctx.hash)
      else ({ ctx with isReadOnly := true }, db)
  | .write =>
      if ctx.kstatus = .keyOk ∧ isExpired db ctx.hash then
        ({ ctx with kstatus := .keyIsNew, isReadOnly := false, isExpired := true, isNew := true },
          expire db ctx.hash)
      else
        ({ ctx with isReadOnly := false, isNew := ctx.isNew || ctx.kstatus = .keyIsNew }, db)
  | .neither => ({ ctx with kstatus := .keyNoValue, isReadOnly := true }, db)

/-- The last key with the same hash that was written to, if any, else the key itself. -/
def getDupKey (before : List EvKeyCtx) (ctx : EvKeyCtx) : EvKeyCtx :=
  ((before.filter fun key => key.hash = ctx.hash ∧ (¬key.isReadOnly ∨ key.isExpired)).getLast?).getD
    ctx

/-- A status that changed tells that the key was created or deleted. -/
def dupStatus (key ctx : EvKeyCtx) : KeyStatus :=
  if key.kstatus = .keyOk then
    let kstatus := if ctx.kstatus = .keyIsNew ∧ key.isNew then key.kstatus else ctx.kstatus
    if kstatus = .keyOk ∧ key.keyspaceDel then .keyIsNew else kstatus
  else ctx.kstatus

/-- The fetch of a key that shares the lock of another. -/
def multiDupFetch (mode : FetchMode) (before : List EvKeyCtx) (ctx : EvKeyCtx) : EvKeyCtx :=
  let kstatus := dupStatus (getDupKey before ctx) ctx
  match mode with
  | .read =>
      let kstatus := if kstatus = .keyIsNew then .keyNotFound else kstatus
      { ctx with kstatus := kstatus, isReadOnly := true }
  | .write | .neither =>
      let kstatus := if kstatus = .keyNotFound then .keyIsNew else kstatus
      { ctx with
          kstatus := kstatus, isReadOnly := false, isNew := ctx.isNew || kstatus = .keyIsNew }

/-- The fetch of the key at `position` in a transaction, where `before` are the keys before
it. -/
def multiKeyFetch (mode : FetchMode) (db : Keyspace E) (before : List EvKeyCtx)
    (position lock : Nat) (ctx : EvKeyCtx) : EvKeyCtx × Keyspace E :=
  if lock = position then multiOwnerFetch mode db ctx
  else (multiDupFetch mode before ctx, db)

def Update.apply (update : Update E) (db : Keyspace E) (hash : KeyHash) : Keyspace E :=
  match update with
  | .keep => db
  | .store entry => Function.update db hash (some entry)
  | .tombstone => Function.update db hash none

def Update.isDel : Update E → Bool
  | .tombstone => true
  | _ => false

/-- The handler leaves its marks in the context. -/
def EvKeyCtx.finish (ctx : EvKeyCtx) (update : Update E) (kstatus : KeyStatus) (isNew : Bool) :
    EvKeyCtx :=
  { ctx with
      kstatus := kstatus
      isNew := ctx.isNew || isNew
      keyspaceDel := ctx.keyspaceDel || update.isDel }

def EvKeyCtx.view (ctx : EvKeyCtx) (db : Keyspace E) : KeyView E :=
  ⟨ctx.hash, ctx.kstatus, ctx.isNew, db ctx.hash⟩

end Fetch

/-- The command that runs outside of a transaction and its keys. -/
structure CommandState (E : Type) where
  db : Keyspace E
  cmd : RedisCmd
  keys : List EvKeyCtx

/-- The queued command that runs, its keys and their locks, and the keys of the queue before
it. -/
structure MultiState (E : Type) where
  db : Keyspace E
  cmd : RedisCmd
  before : List EvKeyCtx
  keys : List EvKeyCtx
  kptr : List Nat

section Run

variable {E R : Type} [TableEntry E]

/-- The answer to a handler outside of a transaction. -/
def commandAnswer (s : CommandState E) (query : KeyQuery E) :
    Option (KeyView E) × CommandState E :=
  match query with
  | .fetch idx forceRead =>
      match s.keys[idx]? with
      | none => (none, s)
      | some ctx =>
          let (ctx, db) := execKeyFetch (fetchMode s.cmd forceRead) s.db ctx
          (some (ctx.view db), { s with db := db, keys := s.keys.set idx ctx })
  | .finish idx update kstatus isNew =>
      match s.keys[idx]? with
      | none => (none, s)
      | some ctx =>
          let db := update.apply s.db ctx.hash
          let ctx := ctx.finish update kstatus isNew
          (some (ctx.view db), { s with db := db, keys := s.keys.set idx ctx })

/-- The answer to a handler in a transaction. -/
def multiAnswer (s : MultiState E) (query : KeyQuery E) : Option (KeyView E) × MultiState E :=
  match query with
  | .fetch idx forceRead =>
      match s.keys[idx]? with
      | none => (none, s)
      | some ctx =>
          let (ctx, db) := multiKeyFetch (fetchMode s.cmd forceRead) s.db
            (s.before ++ s.keys.take idx) (s.before.length + idx)
            (s.kptr.getD idx (s.before.length + idx)) ctx
          (some (ctx.view db), { s with db := db, keys := s.keys.set idx ctx })
  | .finish idx update kstatus isNew =>
      match s.keys[idx]? with
      | none => (none, s)
      | some ctx =>
          let db := update.apply s.db ctx.hash
          let ctx := ctx.finish update kstatus isNew
          (some (ctx.view db), { s with db := db, keys := s.keys.set idx ctx })

/-- What a command did: the keys it was run with, what its handlers saw of them, and the
reply. -/
structure CommandLog (E R : Type) where
  keys : List (Int × Bytes)
  transcript : List (KeyQuery E × Option (KeyView E))
  reply : R

def keyArgs (keys : List EvKeyCtx) : List (Int × Bytes) := keys.map fun ctx => (ctx.argn, ctx.kbuf)

/-- A connection has a database selected in the shared table. -/
structure Session (E : Type) where
  db : Keyspace E
  dbNum : Nat

/-- A command runs outside of a transaction with keys of its own. -/
def execCommand (handlers : Handlers E R) (cmd : RedisCmd) (msg : CommandMsg)
    (keys : List EvKeyCtx) (session : Session E) : CommandLog E R × Session E :=
  match handlers cmd msg with
  | .select dbNum reply => (⟨keyArgs keys, [], reply⟩, { session with dbNum := dbNum })
  | .keys program =>
      let ((transcript, reply), s) := talk commandAnswer ⟨session.db, cmd, keys⟩ program
      (⟨keyArgs keys, transcript, reply⟩, { session with db := s.db })

/-- The queue runs with the keys that were locked; `done` are the keys of the commands that ran
before. -/
structure QueueState (E : Type) where
  session : Session E
  done : List EvKeyCtx

def execQueued (handlers : Handlers E R) (s : QueueState E) (mm : RedisMultiMsg) :
    Option (CommandLog E R) × QueueState E :=
  match mm.msg with
  | none => (none, { s with done := s.done ++ mm.keys })
  | some msg =>
      match handlers mm.cmd msg with
      | .select dbNum reply =>
          (some ⟨keyArgs mm.keys, [], reply⟩,
            ⟨{ s.session with dbNum := dbNum }, s.done ++ mm.keys⟩)
      | .keys program =>
          let ((transcript, reply), last) :=
            talk multiAnswer ⟨s.session.db, mm.cmd, s.done, mm.keys, mm.kptr⟩ program
          (some ⟨keyArgs mm.keys, transcript, reply⟩,
            ⟨{ s.session with db := last.db }, s.done ++ last.keys⟩)

/-- The first key with a hash takes the status of the lock, and the later ones copy it. -/
def lockKeys (db : Keyspace E) : List EvKeyCtx → List EvKeyCtx → List Nat → List EvKeyCtx
  | _, [], _ => []
  | locked, key :: keys, kptr =>
      let kstatus :=
        if kptr.head? = some locked.length then acquire db key.hash
        else ((locked ++ [key]).find? (·.hash = key.hash)).elim key.kstatus (·.kstatus)
      let key := { key with kstatus := kstatus }
      key :: lockKeys db (locked ++ [key]) keys kptr.tail

/-- All keys are locked in the order of the queue, and a busy lock is tried again. -/
def multiTryLock (db : Keyspace E) : List EvKeyCtx → List RedisMultiMsg → List RedisMultiMsg
  | _, [] => []
  | locked, mm :: rest =>
      let keys := lockKeys db locked mm.keys mm.kptr
      { mm with keys := keys } :: multiTryLock db (locked ++ keys) rest

end Run

end Raids
