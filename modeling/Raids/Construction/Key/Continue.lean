import Raids.Construction.Key.Entry

namespace Raids.Key

/-- The context of one key of a command: its place in the message, the turns in which it depended on
other keys, the value that its handler saved, the status of its last turn, and the type that its
turns found. -/
structure KeyCtx where
  argn : Nat
  hash : KeyHash
  dep : Nat := 0
  part : Option Bytes := none
  ival : Int := 0
  status : ExecStatus := .execContinue
  type : MdType := .noData
  deriving DecidableEq, Repr

/-- A command with its keys, of which some are done. -/
structure CommandRun (D : Type) where
  db : KeyHash → Option (Entry D)
  keys : List KeyCtx
  keyDone : Nat := 0
  out : Bytes := []

/-- The handler of a command runs one key and may save a value. -/
abbrev Handler (D : Type) := CommandRun D → KeyCtx → Option (Entry D) → KeyRun D × Option Bytes

/-- What follows a turn: the key has another turn, other keys have theirs, or the command ends. -/
inductive Turn where
  | depends | more | success
  deriving DecidableEq, Repr

section Continue

variable {D : Type} (handler : Handler D) (catg : MdType) (arg0 : Bytes)

/-- The numbers of the keys are added up. -/
def CommandRun.ival (s : CommandRun D) : Int := (s.keys.map KeyCtx.ival).sum

/-- The handler runs one key. The reply is the one of the last key, or of the first key that does
not go on. -/
def execKeyContinue (idx : Nat) (s : CommandRun D) : Turn × CommandRun D :=
  match s.keys[idx]? with
  | none => (.success, s)
  | some ctx =>
      let (run, part) := handler s ctx (s.db ctx.hash)
      let ctx := { ctx with
        part := part.orElse fun _ => ctx.part
        ival := run.ival
        status := run.status
        type := if run.type = MdType.noData then ctx.type else run.type }
      let s := { s with
        db := Function.update s.db ctx.hash (run.settle catg)
        keys := s.keys.set idx ctx
        out := s.out ++ run.out }
      if run.isReadOnly ∧ run.status = .execDepends then
        (.depends, { s with keys := s.keys.set idx { ctx with dep := ctx.dep + 1 } })
      else
        let s := { s with keyDone := s.keyDone + 1 }
        if s.keyDone < s.keys.length ∧ run.status.ctorIdx ≤ ExecStatus.execBlocked.ctorIdx then
          (.more, s)
        else (.success, { s with out := s.out ++ sendStatus arg0 s.ival run.status })

/-- The keys have their turns one behind the other, and a key that depends on the others has its
next turn behind them. Nothing is left when there is not fuel enough for all turns. -/
def runKeys : Nat → List Nat → CommandRun D → Option (CommandRun D)
  | _, [], s => some s
  | 0, _ :: _, _ => none
  | fuel + 1, idx :: queue, s =>
      match execKeyContinue handler catg arg0 idx s with
      | (.depends, s) => runKeys fuel (queue ++ [idx]) s
      | (.more, s) => runKeys fuel queue s
      | (.success, s) => some s

/-- The turns of a command start in the order of its keys. -/
def execRunToCompletion (s : CommandRun D) : Option (CommandRun D) :=
  runKeys handler catg arg0 (2 * s.keys.length) (List.range s.keys.length) s

end Continue

end Raids.Key
