import Mathlib.Tactic
import Raids.Construction.Cmd.KeyGeometry
import Raids.Construction.Msg.Unpack

namespace Raids

/-- The status of a command or of one of its keys, in the order of the source. -/
inductive ExecStatus where
  | execOk | execSetupOk | execSendOk | execSendNil | execSendNull | execSendInt | execSendZero
  | execSendZeroarr | execSendOne | execSendNegOne | execSendZeroString | execSuccess
  | execDepends | execContinue | execQueued | execBlocked | execQuit | execDebug | execSkip
  | execAbortSendZero | execAbortSendNil | execSendData
  | errKvStatus | errMsgStatus | errBadCmd | errBadArgs | errBadType | errBadRange | errNoGroup
  | errGroupExists | errStreamId | errAllocFail | errKeyExists | errKeyDoesntExist | errBadMulti
  | errBadExec | errBadDiscard | errAbortTrans | errSave | errLoad
  deriving DecidableEq, Repr

/-- The errors are the last values of the order. -/
def ExecStatus.isError (status : ExecStatus) : Bool :=
  ExecStatus.errKvStatus.ctorIdx ≤ status.ctorIdx

/-- The success values are the first ones, up to `EXEC_SUCCESS`. -/
def ExecStatus.isSuccess (status : ExecStatus) : Bool :=
  status.ctorIdx ≤ ExecStatus.execSuccess.ctorIdx

/-- The table identifies a key by 128 bits of hash. -/
structure KeyHash where
  hash1 : UInt64
  hash2 : UInt64
  deriving DecidableEq, Repr

/-- The statuses of a key that the commands tell apart. -/
inductive KeyStatus where
  | keyOk | keyIsNew | keyNotFound | keyNoValue
  deriving DecidableEq, Repr

/-- One key of one command, with the flags that a fetch or a handler sets. -/
structure EvKeyCtx where
  kbuf : Bytes
  argn : Int
  hash : KeyHash
  kstatus : KeyStatus := .keyOk
  isReadOnly : Bool := true
  isNew : Bool := false
  isExpired : Bool := false
  keyspaceDel : Bool := false
  deriving DecidableEq, Repr

/-- A key argument is a string with at least one byte. -/
def CommandMsg.getArgStr (msg : CommandMsg) (n : Int) : Option Bytes :=
  if n < 0 then none
  else
    match msg.args[n.toNat]? with
    | some (.string .errorString _ _) => none
    | some (.string _ len strval) => if 0 < len then some (strval.take len.toNat) else none
    | _ => none

/-- The places where a command asks for memory. -/
inductive Alloc where
  | message | keyArray | key (idx : Nat) | multi | watch (idx : Nat) | watchMsg | result
  deriving DecidableEq, Repr

/-- The request of a client: the result of the command lookup, the message, and the answers of
the memory. -/
structure Request where
  cmd : Option RedisCmd
  msg : CommandMsg
  grants : Alloc → Bool := fun _ => true

/-- A command of bulk strings. -/
def commandWords (words : List String) : List RedisMsg := words.map fun word => mkStr (text word)

/-- A request of bulk strings that finds its memory. -/
def wordsRequest (cmd : Option RedisCmd) (words : List String)
    (fits : (commandWords words).length < 2 ^ 31 := by decide) : Request :=
  { cmd := cmd, msg := ⟨commandWords words, fits⟩ }

/-- The lookup, the arity and the movable keys decide whether a command is executed. -/
def prepareExecCommand (req : Request) : Except ExecStatus (RedisCmd × Geometry) :=
  match req.cmd with
  | none => .error .errBadCmd
  | some cmd =>
      match keyGeometry cmd req.msg with
      | none => .error .errBadArgs
      | some g => .ok (cmd, g)

/-- Each key argument gets a context; `idx` counts the keys. -/
def execKeySetup (hash : Bytes → KeyHash) (req : Request) :
    Nat → List Int → Except ExecStatus (List EvKeyCtx)
  | _, [] => .ok []
  | idx, i :: rest =>
      match req.msg.getArgStr i with
      | none => .error .errBadArgs
      | some key =>
          if req.grants (.key idx) then
            (execKeySetup hash req (idx + 1) rest).map
              ({ kbuf := key, argn := i, hash := hash key } :: ·)
          else .error .errAllocFail

/-- The setup of the first key needs no array, so it does not look at the count of keys. -/
def execSetup (hash : Bytes → KeyHash) (req : Request) (g : Geometry) :
    Except ExecStatus (List EvKeyCtx) :=
  match keyIndices g req.msg.argc with
  | [] => .ok []
  | [i] => execKeySetup hash req 0 [i]
  | i :: rest =>
      match execKeySetup hash req 0 [i] with
      | .error status => .error status
      | .ok key =>
          if calcKeyCount g req.msg.argc = 0 then .error .errBadArgs
          else if req.grants .keyArray then (execKeySetup hash req 1 rest).map (key ++ ·)
          else .error .errAllocFail

end Raids
