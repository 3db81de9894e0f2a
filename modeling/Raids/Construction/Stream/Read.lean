import Raids.Construction.Exec.Request
import Raids.Construction.Stream.Range

namespace Raids

/-- The library gives the id of the last entry too, and a timeout is read as a number of
nanoseconds. -/
structure StreamRead extends StreamSearch where
  lastId : List StreamEntry → Option Bytes
  blockNanos : RedisMsg → Option Int

/-- What a reader finds at a key. A key without a type is there, but is read as missing. -/
inductive ReadValue where
  | missing
  | noType
  | stream (entries : List StreamEntry)
  | other
  deriving DecidableEq, Repr

def ReadValue.entries : ReadValue → List StreamEntry
  | .stream entries => entries
  | _ => []

/-- The status that the fetch leaves in the context of the key. -/
def ReadValue.kstatus : ReadValue → KeyStatus
  | .missing => .keyNotFound
  | _ => .keyOk

/-- Whether the table finds the key and its value, and the value has not changed while it was
read. -/
structure ReadEnv where
  fetched : Bool := true
  opened : Bool := true
  validated : Bool := true
  deriving DecidableEq, Repr

/-- The part of a key is the id at which a blocked reader goes on, and then its own reply. -/
inductive XreadPart where
  | id (id : Bytes)
  | reply (msg : RedisMsg)
  deriving DecidableEq

/-- A key of a reader, with its part. -/
structure XreadCtx extends EvKeyCtx where
  isSavedCont : Bool := false
  part : Option XreadPart := none
  deriving DecidableEq

/-- The options in front of the keys. -/
structure XreadArgs where
  maxcnt : Int := 0
  blocking : Bool := false
  ival : Int := 0
  deriving DecidableEq, Repr

section Key

variable (lib : StreamRead)

/-- Each option has one operand. -/
def xreadOptionArgs (msg : CommandMsg) (first : Int) : Nat → Nat → XreadArgs → Option XreadArgs
  | 0, _, args => some args
  | fuel + 1, n, args =>
      if (n : Int) + 1 < first then
        match msg.matchArg n [text "count", text "block"] with
        | 1 =>
            match msg.getArgInt (n + 1) with
            | none => none
            | some maxcnt => xreadOptionArgs msg first fuel (n + 2) { args with maxcnt := maxcnt }
        | 2 =>
            match msg.args[n + 1]?.bind lib.blockNanos with
            | none => none
            | some ival =>
                xreadOptionArgs msg first fuel (n + 2) { args with blocking := true, ival := ival }
        | _ => none
      else some args

def xreadArgs (msg : CommandMsg) (first : Int) : Option XreadArgs :=
  xreadOptionArgs lib msg first msg.argc 1 {}

/-- The various forms of the last element. -/
def isTail (arg : Bytes) : Bool := arg = text "$" || arg = text ">" || arg = text "+"

/-- A blocked reader goes on at the id that was saved, and another one starts at its argument. -/
def XreadCtx.arg (ctx : XreadCtx) (msg : CommandMsg) (g : Geometry) : Option Bytes :=
  if ctx.isSavedCont then
    match ctx.part with
    | some (.id id) => some id
    | _ => none
  else msg.getArgStr (g.last + 1 + ctx.argn - g.first)

/-- A missing key is blocked at the id zero. -/
def XreadCtx.saveZero (ctx : XreadCtx) (blocking : Bool) : XreadCtx :=
  if blocking ∧ ctx.isSavedCont = false then
    { ctx with isSavedCont := true, part := some (.id (text "0")) }
  else ctx

/-- A stream that is read at its tail is blocked at its last id. Its saved data is not used for
output. -/
def XreadCtx.saveTail (ctx : XreadCtx) (blocking : Bool) (arg : Bytes)
    (entries : List StreamEntry) : XreadCtx :=
  if blocking then
    match ctx.isSavedCont, isTail arg, lib.lastId entries with
    | false, true, some id =>
        { ctx with isSavedCont := true, part := some (.id id), kstatus := .keyNotFound }
    | _, _, _ => { ctx with kstatus := .keyNotFound }
  else ctx

/-- The entries behind an id are read up to the count. -/
def readKey (env : ReadEnv) (args : XreadArgs) (arg : Bytes) (ctx : XreadCtx) (value : ReadValue) :
    Except ExecStatus (XreadCtx × List StreamEntry) :=
  if env.fetched then
    let ctx := { ctx with kstatus := value.kstatus }
    match value with
    | .other => .error .errBadType
    | .missing => .ok (ctx.saveZero args.blocking, [])
    | .noType =>
        if env.validated then .ok (ctx.saveZero args.blocking, []) else .error .errKvStatus
    | .stream entries =>
        if env.opened then
          match lib.bsearchStr entries arg true with
          | none => .error .errStreamId
          | some off =>
              if off = entries.length then
                let ctx := ctx.saveTail lib args.blocking arg entries
                if ctx.kstatus = .keyNotFound ∨ env.validated then .ok (ctx, [])
                else .error .errKvStatus
              else if env.validated then
                .ok (ctx, xrangeUp entries (entries.length - off) off args.maxcnt)
              else .error .errKvStatus
        else .error .errKvStatus
  else .error .errKvStatus

end Key

/-- What a command sends. Nothing is known of a reply that takes a saved id for a part. -/
inductive XreadReply where
  | msg (msg : RedisMsg)
  | status (status : ExecStatus)
  | undefined
  deriving DecidableEq

/-- A reader with its keys, of which some are done. Either it ends, or it is saved as blocked. -/
structure XreadRun where
  keys : List XreadCtx
  keyDone : Nat := 0
  stopped : Bool := false
  blocked : Bool := false
  complete : Bool := false
  out : List XreadReply := []

/-- The name of a stream with its entries. -/
def streamReply (kbuf : Bytes) (items : List StreamEntry) : RedisMsg :=
  .array 2 [bulkReply kbuf, .array items.length (items.map constructXfieldOutput)]

/-- The parts of the keys that were found, unless one of them is an id. -/
def xreadParts : List XreadCtx → Option (List RedisMsg)
  | [] => some []
  | ctx :: keys =>
      if ctx.kstatus ≠ .keyNotFound then
        match ctx.part with
        | none => xreadParts keys
        | some (.reply msg) => (xreadParts keys).map (msg :: ·)
        | some (.id _) => none
      else xreadParts keys

/-- A single key replies at once. Of several keys each one saves its part, and the last one makes
the reply out of the parts. -/
def finishXread (s : XreadRun) (idx : Nat) (ctx : XreadCtx) (items : List StreamEntry) :
    XreadCtx × List XreadReply × ExecStatus :=
  let key := streamReply ctx.kbuf items
  if s.keys.length = 1 then
    if ctx.kstatus ≠ .keyNotFound ∧ items ≠ [] then (ctx, [.msg (.array 1 [key])], .execOk)
    else (ctx, [], .execSendNull)
  else
    let ctx :=
      if ctx.kstatus ≠ .keyNotFound ∧ items ≠ [] then { ctx with part := some (.reply key) }
      else ctx
    if s.keyDone + 1 = s.keys.length then
      match xreadParts (s.keys.set idx ctx) with
      | none => (ctx, [.undefined], .execOk)
      | some [] => (ctx, [], .execSendNull)
      | some parts => (ctx, [.msg (.array parts.length parts)], .execOk)
    else (ctx, [], .execOk)

section Run

variable (lib : StreamRead) (msg : CommandMsg) (g : Geometry)

/-- A reader without a reply is blocked, if it is allowed to. -/
def execXread (env : ReadEnv) (value : ReadValue) (s : XreadRun) (idx : Nat) (ctx : XreadCtx) :
    XreadCtx × List XreadReply × ExecStatus :=
  match xreadArgs lib msg g.first with
  | none => (ctx, [], .errBadArgs)
  | some args =>
      match ctx.arg msg g with
      | none => (ctx, [], .errBadArgs)
      | some arg =>
          match readKey lib env args arg ctx value with
          | .error status => (ctx, [], status)
          | .ok (ctx, items) =>
              let (ctx, out, status) := finishXread s idx ctx items
              (ctx, out, if status = .execSendNull ∧ args.blocking then .execBlocked else status)

/-- Two statuses send nothing of their own. -/
def sentStatus (status : ExecStatus) : List XreadReply :=
  if status = .execOk ∨ status = .execBlocked then [] else [.status status]

/-- The values of the keys during one execution, and what the table answers at each key. -/
structure XreadRound where
  table : KeyHash → ReadValue
  env : Nat → ReadEnv := fun _ => {}

/-- One key has its turn. The last one blocks the command or completes it; a blocked command is
executed again at a change of a key or at its timeout. -/
def xreadContinue (blk : Option Bool) (round : XreadRound) (s : XreadRun) (idx : Nat) : XreadRun :=
  match s.keys[idx]? with
  | none => s
  | some ctx =>
      if s.stopped then s
      else
        let (ctx, out, status) :=
          execXread lib msg g (round.env idx) (round.table ctx.hash) s idx ctx
        let s := { s with
          keys := s.keys.set idx ctx
          keyDone := s.keyDone + 1
          out := s.out ++ out }
        if s.keyDone = s.keys.length then
          if status = .execBlocked then
            match blk with
            | none => { s with blocked := true }
            | some false => s
            | some true => { s with complete := true, out := s.out ++ [.status .execSendNull] }
          else { s with complete := blk.isSome, out := s.out ++ sentStatus status }
        else if status.ctorIdx ≤ ExecStatus.execBlocked.ctorIdx then s
        else { s with stopped := true, out := s.out ++ sentStatus status }

/-- The keys have their turns in an order. -/
def runXread (blk : Option Bool) (round : XreadRound) (order : List Nat) (keys : List XreadCtx) :
    XreadRun :=
  order.foldl (xreadContinue lib msg g blk round) { keys := keys }

end Run

/-- The id that a blocked command keeps; the keys of a blocked command have no replies. -/
def XreadCtx.savedId (ctx : XreadCtx) : Option Bytes :=
  match ctx.isSavedCont, ctx.part with
  | true, some (.id id) => some id
  | _, _ => none

/-- The kept ids are put back. -/
def restoreIds (keys : List XreadCtx) (saved : List (Option Bytes)) : List XreadCtx :=
  List.zipWith (fun ctx id => match id with
    | none => ctx
    | some id => { ctx with isSavedCont := true, part := some (.id id) }) keys saved

/-- The keys of a command get new contexts. -/
def xreadSetup (hash : Bytes → KeyHash) (req : Request) (g : Geometry) :
    Except ExecStatus (List XreadCtx) :=
  (execSetup hash req g).map fun keys => keys.map fun key => { toEvKeyCtx := key }

section Continuation

variable (lib : StreamRead) (hash : Bytes → KeyHash) (req : Request) (g : Geometry)

/-- A blocked command is executed again until it is complete. -/
def drainContinuations (saved : List (Option Bytes)) : List (XreadRound × Bool) → List XreadReply
  | [] => []
  | (round, timeout) :: wakes =>
      match xreadSetup hash req g with
      | .error status => .status status :: drainContinuations saved wakes
      | .ok keys =>
          let s := runXread lib req.msg g (some timeout) round (List.range keys.length)
            (restoreIds keys saved)
          if s.complete then s.out else s.out ++ drainContinuations saved wakes

/-- All that a command sends, from its execution on to the last of its wake-ups. -/
def xread (round : XreadRound) (order : List Nat) (wakes : List (XreadRound × Bool)) :
    List XreadReply :=
  match xreadSetup hash req g with
  | .error status => [.status status]
  | .ok keys =>
      let s := runXread lib req.msg g none round order keys
      if s.blocked then
        s.out ++ drainContinuations lib hash req g (s.keys.map XreadCtx.savedId) wakes
      else s.out

end Continuation

end Raids
