import Raids.Construction.Cmd.Table
import Raids.Construction.Key.Add
import Raids.Construction.Key.Continue

namespace Raids.Key

/-- A list has its head in front. -/
abbrev ListData := List Bytes

/-- What a move between two keys meets: the output in front of it, of which `iov` has left the
buffer and `out` is still in it, whether the buffer gives memory for the element and leaves its
bytes to the others for that, and whether the table answers for the two keys. -/
structure MoveEnv where
  iov : Bytes := []
  out : Bytes := []
  granted : Bool := true
  flushed : Bool := false
  source : KeyEnv := {}
  tombstoned : Bool := true
  dest : KeyEnv := {}

/-- The output in front of the command. -/
def MoveEnv.pending (env : MoveEnv) : Bytes := env.iov ++ env.out

/-- The output buffer starts at this byte of the output. -/
def MoveEnv.outBuf (env : MoveEnv) : Nat :=
  if env.flushed then env.pending.length else env.iov.length

/-- A string with its length as a reply. -/
def sendConcatString (data : Bytes) : Bytes :=
  StringType.char .bulkString :: uint64ToString data.length ++ crlf ++ data ++ crlf

/-- The tail of a list leaves it, and a list without elements is deleted. -/
def doPop (env : MoveEnv) (entry : Option (Entry ListData)) : KeyRun ListData :=
  let found := getKeyWrite env.source .list entry
  match found.kstatus, found.entry with
  | some .keyOk, some e =>
      if env.source.valued then
        match e.data.getLast? with
        | none => found.stop .execAbortSendNil
        | some lv =>
            let x := { e with data := e.data.dropLast }
            let out := if env.granted then sendConcatString lv else []
            if x.data.isEmpty then
              if env.tombstoned then
                { found.stop .execOk with entry := none, out := out, keyspaceDel := true }
              else { found.stop .errKvStatus with entry := some x, out := out, keyspaceDel := true }
            else { found.stop .execOk with entry := some x, out := out }
      else found.stop .errKvStatus
  | some .keyIsNew, _ => found.stop .execAbortSendNil
  | some .keyNoValue, _ => found.stop .errBadType
  | _, _ => found.stop .errKvStatus

/-- The push is tried again when a full list has grown. -/
def lpushLoop (value : Bytes) (run : KeyRun ListData) (e : Entry ListData) :
    List Bool → KeyRun ListData
  | [] => { run with status := .execOk, entry := some { e with data := value :: e.data } }
  | true :: grow => lpushLoop value run e grow
  | false :: _ => { run with status := .errKvStatus, entry := some e }

/-- The size of a new list counts the other arguments, which must be strings. -/
def sizedArgs (msg : CommandMsg) : Bool :=
  (List.range' 3 (msg.argc - 3)).all fun j => (msg.getArgStr (j : Nat)).isSome

/-- The value becomes the head of a list. -/
def doPush (env : KeyEnv) (msg : CommandMsg) (value : Bytes) (entry : Option (Entry ListData)) :
    KeyRun ListData :=
  let found := getKeyWrite env .list entry
  match found.kstatus, found.entry with
  | some .keyOk, some e =>
      if env.valued then lpushLoop value (found.stop .execOk) e env.grow
      else found.stop .errKvStatus
  | some .keyIsNew, old =>
      if ¬sizedArgs msg then found.stop .errBadArgs
      else if env.resized then
        lpushLoop value { found.stop .execOk with isNew := true, type := .list }
          (Entry.write old []) env.grow
      else found.stop .errKvStatus
  | some .keyNoValue, _ => found.stop .errBadType
  | _, _ => found.stop .errKvStatus

/-- The loop looks for the return of a header, which is the byte before the newline before the
value. The value has one byte at least, and a return and a newline behind it. -/
def replyValue : Bytes → Option Bytes
  | [] => none
  | c :: rest =>
      if rest.length ≤ 3 then none
      else if c = cr then some ((rest.drop 1).take (rest.length - 3))
      else replyValue rest

/-- The source is popped, and the destination takes the value from the output buffer. -/
def execRpoplpush (env : MoveEnv) (msg : CommandMsg) : Handler ListData := fun s ctx entry =>
  if ctx.argn = 1 then (doPop env entry, none)
  else if s.keys.length ≠ s.keyDone + 1 then (unfetched .execDepends entry, none)
  else
    match replyValue ((s.out.drop env.outBuf).drop 2) with
    | some value => (doPush env.dest msg value entry, none)
    | none => (unfetched .execAbortSendNil entry, none)

/-- Without an element both keys are blocked until the timeout. -/
def execBrpoplpush (env : MoveEnv) (msg : CommandMsg) (timeout : Int) : Handler ListData :=
  fun s ctx entry =>
    if ctx.argn = 1 then
      let run := doPop env entry
      if run.status = .execAbortSendNil then
        ({ run with status := .execBlocked, ival := timeout }, none)
      else (run, none)
    else if s.keys.length ≠ s.keyDone + 1 then (unfetched .execDepends entry, none)
    else
      match s.keys[0]? with
      | some key =>
          if key.status = .execBlocked then
            ({ unfetched .execBlocked entry with ival := key.ival }, none)
          else execRpoplpush env msg s ctx entry
      | none => execRpoplpush env msg s ctx entry

/-- The two commands. -/
inductive MoveCmd where
  | rpoplpush
  | brpoplpush (timeout : Int)
  deriving DecidableEq, Repr

def MoveCmd.handler (cmd : MoveCmd) (env : MoveEnv) (msg : CommandMsg) : Handler ListData :=
  match cmd with
  | .rpoplpush => execRpoplpush env msg
  | .brpoplpush timeout => execBrpoplpush env msg timeout

/-- A command whose last key is blocked waits without a reply, or ends with a null when its time is
over. -/
def CommandRun.endBlocked {D : Type} (arg0 : Bytes) (timedOut : Bool) (s : CommandRun D) :
    CommandRun D :=
  if timedOut ∧ s.keys.getLast?.map KeyCtx.status = some .execBlocked then
    { s with out := s.out ++ sendStatus arg0 s.ival .execSendNull }
  else s

end Raids.Key
