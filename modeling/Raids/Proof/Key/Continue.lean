import Raids.Construction.Key.Continue
import Raids.Proof.Key.Entry

namespace Raids.Key

section Turns

variable {D : Type} {handler : Handler D} {catg : MdType} {arg0 : Bytes} {s : CommandRun D}
  {before behind : List KeyCtx} {ctx : KeyCtx} {run : KeyRun D} {part : Option Bytes}

/-- The context behind a turn of its key. -/
def KeyCtx.after (ctx : KeyCtx) (run : KeyRun D) (part : Option Bytes) : KeyCtx :=
  { ctx with
    part := part.orElse fun _ => ctx.part
    ival := run.ival
    status := run.status
    type := if run.type = .noData then ctx.type else run.type }

section Turn

variable {idx : Nat}

/-- A key that depends on the others has its next turn later. -/
theorem turn_depends (found : s.keys[idx]? = some ctx)
    (handled : handler s ctx (s.db ctx.hash) = (run, part)) (readOnly : run.isReadOnly)
    (depends : run.status = .execDepends) :
    execKeyContinue handler catg arg0 idx s =
      (.depends,
        { s with
            db := Function.update s.db ctx.hash run.entry
            keys := s.keys.set idx { ctx.after run part with dep := ctx.dep + 1 }
            out := s.out ++ run.out }) := by
  have settled : run.settle catg = run.entry := by
    rw [KeyRun.settle, if_neg]
    exact fun settles => settles.1 readOnly
  simp [execKeyContinue, found, handled, readOnly, depends, settled, KeyCtx.after]

/-- Other keys have their turns behind a key that is done. -/
theorem turn_more (found : s.keys[idx]? = some ctx)
    (handled : handler s ctx (s.db ctx.hash) = (run, part)) (done : run.status ≠ .execDepends)
    (left : s.keyDone + 1 < s.keys.length)
    (goesOn : run.status.ctorIdx ≤ ExecStatus.execBlocked.ctorIdx) :
    execKeyContinue handler catg arg0 idx s =
      (.more,
        { db := Function.update s.db ctx.hash (run.settle catg)
          keys := s.keys.set idx (ctx.after run part)
          keyDone := s.keyDone + 1
          out := s.out ++ run.out }) := by
  simp [execKeyContinue, found, handled, done, left, goesOn, KeyCtx.after]

/-- The last key, or a key that does not go on, sends the reply. -/
theorem turn_success (found : s.keys[idx]? = some ctx)
    (handled : handler s ctx (s.db ctx.hash) = (run, part)) (done : run.status ≠ .execDepends)
    (last : s.keyDone + 1 = s.keys.length ∨
      ExecStatus.execBlocked.ctorIdx < run.status.ctorIdx) :
    execKeyContinue handler catg arg0 idx s =
      (.success,
        { db := Function.update s.db ctx.hash (run.settle catg)
          keys := s.keys.set idx (ctx.after run part)
          keyDone := s.keyDone + 1
          out := s.out ++ run.out ++
            sendStatus arg0 ((s.keys.set idx (ctx.after run part)).map KeyCtx.ival).sum
              run.status }) := by
  have ends : ¬(s.keyDone + 1 < s.keys.length ∧
      run.status.ctorIdx ≤ ExecStatus.execBlocked.ctorIdx) := by omega
  simp [execKeyContinue, found, handled, done, ends, KeyCtx.after, CommandRun.ival]

end Turn

section Queue

variable {idx fuel : Nat} {queue : List Nat} {s' : CommandRun D}

theorem runKeys_success (turn : execKeyContinue handler catg arg0 idx s = (.success, s')) :
    runKeys handler catg arg0 (fuel + 1) (idx :: queue) s = some s' := by
  rw [runKeys, turn]

theorem runKeys_more (turn : execKeyContinue handler catg arg0 idx s = (.more, s')) :
    runKeys handler catg arg0 (fuel + 1) (idx :: queue) s =
      runKeys handler catg arg0 fuel queue s' := by
  rw [runKeys, turn]

theorem runKeys_depends (turn : execKeyContinue handler catg arg0 idx s = (.depends, s')) :
    runKeys handler catg arg0 (fuel + 1) (idx :: queue) s =
      runKeys handler catg arg0 fuel (queue ++ [idx]) s' := by
  rw [runKeys, turn]

end Queue

theorem key_at (keys : s.keys = before ++ ctx :: behind) : s.keys[before.length]? = some ctx := by
  simp [keys]

theorem set_key (keys : s.keys = before ++ ctx :: behind) (ctx' : KeyCtx) :
    s.keys.set before.length ctx' = before ++ ctx' :: behind := by
  simp [keys]

theorem execKeyContinue_depends (keys : s.keys = before ++ ctx :: behind)
    (handled : handler s ctx (s.db ctx.hash) = (run, part)) (readOnly : run.isReadOnly)
    (depends : run.status = .execDepends) :
    execKeyContinue handler catg arg0 before.length s =
      (.depends,
        { s with
            db := Function.update s.db ctx.hash run.entry
            keys := before ++ { ctx.after run part with dep := ctx.dep + 1 } :: behind
            out := s.out ++ run.out }) := by
  rw [turn_depends (key_at keys) handled readOnly depends, set_key keys]

theorem execKeyContinue_more (keys : s.keys = before ++ ctx :: behind)
    (handled : handler s ctx (s.db ctx.hash) = (run, part)) (done : run.status ≠ .execDepends)
    (left : s.keyDone + 1 < s.keys.length)
    (goesOn : run.status.ctorIdx ≤ ExecStatus.execBlocked.ctorIdx) :
    execKeyContinue handler catg arg0 before.length s =
      (.more,
        { db := Function.update s.db ctx.hash (run.settle catg)
          keys := before ++ ctx.after run part :: behind
          keyDone := s.keyDone + 1
          out := s.out ++ run.out }) := by
  rw [turn_more (key_at keys) handled done left goesOn, set_key keys]

theorem execKeyContinue_success (keys : s.keys = before ++ ctx :: behind)
    (handled : handler s ctx (s.db ctx.hash) = (run, part)) (done : run.status ≠ .execDepends)
    (last : s.keyDone + 1 = s.keys.length ∨
      ExecStatus.execBlocked.ctorIdx < run.status.ctorIdx) :
    execKeyContinue handler catg arg0 before.length s =
      (.success,
        { db := Function.update s.db ctx.hash (run.settle catg)
          keys := before ++ ctx.after run part :: behind
          keyDone := s.keyDone + 1
          out := s.out ++ run.out ++
            sendStatus arg0 ((before ++ ctx.after run part :: behind).map KeyCtx.ival).sum
              run.status }) := by
  rw [turn_success (key_at keys) handled done last, set_key keys]

end Turns

/-- An error ends the command. -/
theorem stops_of_isError {status : ExecStatus} (error : status.isError) :
    status ≠ .execDepends ∧ ExecStatus.execBlocked.ctorIdx < status.ctorIdx := by
  cases status <;> first | decide | exact absurd error (by decide)

/-- Two keys have two orders. -/
theorem orders_of_two {order : List Nat} (all : order.Perm (List.range 2)) :
    order = [0, 1] ∨ order = [1, 0] := by
  obtain ⟨a, b, rfl⟩ := List.length_eq_two.mp all.length_eq
  have first := List.mem_range.mp (all.mem_iff.mp (List.mem_cons_self : a ∈ [a, b]))
  have second := List.mem_range.mp (all.mem_iff.mp (by simp : b ∈ [a, b]))
  have different : a ≠ b := by simpa using all.nodup_iff.mpr List.nodup_range
  simp only [List.cons.injEq, and_true]
  omega

/-- A live entry stays live. -/
theorem live_live {D : Type} (env : KeyEnv) (entry : Option (Entry D)) :
    live env (live env entry) = live env entry := by
  cases entry with
  | none => rfl
  | some e => simp [live, Option.filter_filter]

/-- A fetch finds only what is there. -/
theorem eq_of_live {D : Type} {env : KeyEnv} {entry : Option (Entry D)} {e : Entry D}
    (found : live env entry = some e) : entry = some e := by
  rw [live, Option.filter_eq_some_iff] at found
  exact found.1

/-- An entry that is written back changes nothing. -/
theorem live_update {D : Type} {env : KeyEnv} {db : KeyHash → Option (Entry D)} {h : KeyHash}
    {entry : Option (Entry D)} (same : live env entry = live env (db h)) (h' : KeyHash) :
    live env (Function.update db h entry h') = live env (db h') := by
  by_cases here : h' = h
  · rw [here, Function.update_self, same]
  · rw [Function.update_of_ne here]

end Raids.Key
