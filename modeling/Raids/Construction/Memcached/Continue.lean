import Mathlib.Logic.Function.Basic
import Raids.Construction.Memcached.Exec

namespace Raids.Memcached

/-- The text of a failure of the table has at most 255 bytes. -/
def sendErrKv (failure : Bytes) : Bytes :=
  (sendString (text "SERVER_ERROR KeyCtx " ++ failure)).take 255

/-- The response that reports a status. The statuses without one send nothing. -/
def sendErr (m : MemcachedMsg) (status : MemcachedStatus) (failure : Bytes) : Bytes :=
  let sendBin := fun bin : MemcachedBinStatus => sendBinStatus m bin bin.text
  let sendEither := fun bin line => if m.binary then sendBin bin else sendString (text line)
  match status with
  | .allocFail => sendEither .allocFail "SERVER_ERROR alloc failed"
  | .badCmd => sendString (text "CLIENT_ERROR bad command")
  | .badArgs => sendString (text "CLIENT_ERROR bad args")
  | .badInt => sendString (text "CLIENT_ERROR bad integer")
  | .intOverflow => sendString (text "CLIENT_ERROR integer overflow")
  | .badType => sendString (text "CLIENT_ERROR bad type")
  | .notImpl => sendEither .notSupported "SERVER_ERROR not implemented"
  | .badIncr =>
      sendString (text "CLIENT_ERROR cannot increment or decrement non-numeric value")
  | .badPad => sendEither .internalError "SERVER_ERROR bad pad"
  | .badBinArgs => sendBin .badArgs
  | .badBinCmd => sendBin .unknownCommand
  | .errKv => if m.binary then sendBin .internalError else sendErrKv failure
  | .ok | .msgPartial | .empty | .setupOk | .success | .continue | .depends | .quit | .version
  | .badResult => []

/-- The context of one key of a request. -/
structure KeyCtx where
  key : Bytes
  status : MemcachedStatus := .continue
  part : Option Bytes := none
  deriving DecidableEq, Repr

/-- The keys of the table. -/
abbrev McTable := Bytes → Option McEntry

/-- A request with its keys, of which some are done. -/
structure MemcachedExec where
  msg : MemcachedMsg
  keys : List KeyCtx
  keyDone : Nat := 0
  out : Bytes := []
  table : McTable

/-- The status of a success. -/
def memcachedStatusSuccess (status : MemcachedStatus) : Bool :=
  status.ctorIdx ≤ MemcachedStatus.success.ctorIdx

/-- The key waits for its turn. -/
def KeyCtx.waits (ctx : KeyCtx) : Bool := ctx.status = .continue ∨ ctx.status = .depends

namespace MemcachedExec

/-- The keys of a request are set up. -/
def setup (m : MemcachedMsg) (table : McTable) : MemcachedExec where
  msg := m
  keys := m.keys.map fun arg => { key := arg.str }
  table := table

def keyCnt (s : MemcachedExec) : Nat := s.keys.length

/-- The saved values stand in the order of the keys, with the end line behind them. -/
def multiGetSend (s : MemcachedExec) : Bytes :=
  s.keys.flatMap (fun ctx => ctx.part.getD []) ++ sendString (text "END")

/-- What follows a turn. A failure in front of the last key takes the turns of all keys, and the
status of the last key of several is reported only when it is a success. -/
def skipKey (s : MemcachedExec) (env : KvEnv) (status : MemcachedStatus) :
    MemcachedStatus × MemcachedExec :=
  let err := env.send (sendErr s.msg status env.failure)
  let s := { s with keyDone := s.keyDone + 1 }
  if s.keyDone < s.keyCnt then
    if memcachedStatusSuccess status then (.continue, s)
    else
      (.continue, { s with
        keys := s.keys.map fun ctx => { ctx with status }
        out := s.out ++ err })
  else if 1 < s.keyCnt then
    (.success,
      if memcachedStatusSuccess status then { s with out := s.out ++ env.send s.multiGetSend }
      else s)
  else (.success, { s with out := s.out ++ err })

/-- A turn of one key. A key whose status was taken is only counted. -/
def execKeyContinue (s : MemcachedExec) (fetch : KeyFetch) (env : KvEnv) (idx : Nat) :
    MemcachedStatus × MemcachedExec :=
  match s.keys[idx]? with
  | none => (.success, s)
  | some ctx =>
      if ctx.waits then
        let run : KeyRun := { fetch, env, msg := s.msg, key := ctx.key, keyCnt := s.keyCnt }
        let result := run.execKey (s.table ctx.key)
        skipKey
          { s with
            table := Function.update s.table ctx.key result.entry
            keys := s.keys.set idx
              { ctx with
                status := result.status
                part := result.part.orElse fun _ => ctx.part }
            out := s.out ++ result.out }
          env result.status
      else
        let s := { s with keyDone := s.keyDone + 1 }
        (if s.keyDone < s.keyCnt then .continue else .success, s)

section Run

variable (fetch : KeyFetch) (envs : Nat → KvEnv)

/-- The turns of the only key. Nothing is left when there is not fuel enough. -/
def runKey : Nat → MemcachedExec → Option MemcachedExec
  | 0, _ => none
  | fuel + 1, s =>
      if s.keys[0]?.any KeyCtx.waits then
        match s.execKeyContinue fetch (envs 0) 0 with
        | (.success, s) => some s
        | (_, s) => runKey fuel s
      else some s

/-- The turns of several keys go around; `j` keys without a turn lie behind. -/
def runKeys : Nat → Nat → Nat → MemcachedExec → Option MemcachedExec
  | 0, _, _, _ => none
  | fuel + 1, i, j, s =>
      let next := if i + 1 = s.keyCnt then 0 else i + 1
      if s.keys[i]?.any KeyCtx.waits then
        match s.execKeyContinue fetch (envs i) i with
        | (.success, s) => some s
        | (_, s) => runKeys fuel next 0 s
      else if j + 1 = s.keyCnt then some s
      else runKeys fuel next (j + 1) s

/-- A turn for each key and one round behind them are enough. -/
def execRunToCompletion (s : MemcachedExec) : Option MemcachedExec :=
  if s.keyCnt = 1 then runKey fetch envs 2 s else runKeys fetch envs (2 * s.keyCnt) 0 0 s

end Run

end MemcachedExec

/-- The texts that the server says about itself. -/
structure ServerTexts where
  version : Bytes
  stats : Bytes
  settings : Bytes

/-- An argument is compared without regard to the case of its letters. -/
def MemcachedMsg.matchArg (m : MemcachedMsg) (name : String) : Bool :=
  m.argcnt ≠ 0 ∧ (m.arg 0).map lower = text name

/-- The lines of the statistics. The tables of items, sizes, slabs and connections have none. -/
def putStats (server : ServerTexts) (m : MemcachedMsg) : Bytes :=
  if m.argcnt = 0 then server.stats
  else if m.matchArg "settings" then server.settings
  else []

/-- The answer to a no-operation is the same for all requests. -/
def noOpResponse : Bytes := [0x80, 0x0a] ++ List.replicate 22 0

/-- A request without keys: its status and its output behind the output that is pending. -/
def execNoKeys (server : ServerTexts) (pending : Bytes) (m : MemcachedMsg) :
    MemcachedStatus × Bytes :=
  match m.command with
  | .stats =>
      let lines := putStats server m
      (.ok, if pending ++ lines = [] then sendString (text "ERROR")
        else lines ++ sendString (text "END"))
  | .slabs | .lru | .lruCrawler | .watch | .flushAll | .cacheMemlimit =>
      (.ok, if m.binary then sendBinStatus m .ok [] else sendString (text "OK"))
  | .noOp => (.ok, noOpResponse)
  | .version =>
      (.ok, if m.binary then sendBinStatus m .ok server.version else sendString server.version)
  | .quit => (.quit, if m.binary then sendBinStatus m .ok [] else [])
  | .none =>
      (if m.binary ∧ m.quiet = false ∧ m.wantsKey = false then m.res else .notImpl, [])
  | _ => (.notImpl, [])

/-- The output of one request and the table behind it. -/
def respond (fetch : KeyFetch) (server : ServerTexts) (envs : Nat → KvEnv) (pending : Bytes)
    (m : MemcachedMsg) (table : McTable) : Option (Bytes × McTable) :=
  if 0 < m.keycnt then
    ((MemcachedExec.setup m table).execRunToCompletion fetch envs).map fun s => (s.out, s.table)
  else
    let (status, out) := execNoKeys server pending m
    some ((envs 0).send (out ++ sendErr m status (envs 0).failure), table)

end Raids.Memcached
