import Raids.Construction.Key.Rename
import Raids.Proof.Key.Add
import Raids.Proof.Key.Continue

namespace Raids.Key

/-- The reply of a renaming that was done. -/
def RenameCmd.done : RenameCmd → Bytes
  | .rename => line "+OK"
  | .renamenx => sendInt 1

section Spec

variable (env : RenameEnv) (cmd : RenameCmd) (arg0 : Bytes) (src dst : KeyHash)
  (db : KeyHash → Option (Entry Bytes)) (s : CommandRun Bytes)

/-- The keys that have not expired are the same. -/
def SameKeys : Prop := ∀ h, live env.source (s.db h) = live env.source (db h)

/-- The new key is the old one with its value, type and expiry, and the old one is gone. A key that
is named twice stays as it is. -/
def Renamed : Prop :=
  s.out = cmd.done ∧ (cmd = .renamenx → live env.source (db dst) = none) ∧
    ∃ e, live env.source (db src) = some e ∧
      if src = dst then SameKeys env db s
      else ∀ h, live env.source (s.db h) =
        if h = src then none else if h = dst then some e else live env.source (db h)

/-- The keys are unchanged, and the reply is an error or the one of a new key that is there. -/
def RenameRefused : Prop :=
  SameKeys env db s ∧
    ∃ status : ExecStatus, s.out = sendStatus arg0 0 status ∧
      (status.isError ∨ status = .execAbortSendZero)

/-- A key is moved, or nothing changes. -/
def RenamesWhole : Prop := Renamed env cmd src dst db s ∨ RenameRefused env arg0 db s

/-- The table reads the key. -/
def ReadsKey (entry : Option (Entry Bytes)) : Prop :=
  env.source.fetched ∧ env.source.validated ∧
    ((live env.source entry).isSome → env.source.valued)

/-- The entry that is copied to the new key. -/
def Copied (e : Entry Bytes) : Prop :=
  ReadsKey env (db src) ∧ live env.source (db src) = some e ∧ e.data ≠ [] ∧
    env.destFetched ∧ env.destResized ∧ (cmd = .renamenx → live env.source (db dst) = none)

/-- The expiry that a written key keeps. -/
def keptExp (entry : Option (Entry Bytes)) : Nat := ((live env.source entry).map Entry.exp).getD 0

/-- A key that is copied is another one, and the new key has its expiry already; a deletion that
fails leaves a new key that had the value already. -/
def RenameCondition : Prop :=
  ∀ e, Copied env cmd src dst db e →
    if env.deleteFetched then src ≠ dst ∧ e.exp = keptExp env (db dst)
    else ∃ e', live env.source (db dst) = some e' ∧ e'.type = e.type ∧ e'.data = e.data

end Spec

section Turns

variable {env : RenameEnv} {cmd : RenameCmd} {entry : Option (Entry Bytes)} {s : CommandRun Bytes}

/-- A read that fails leaves the key. -/
theorem renameRead_fails (fails : ¬ReadsKey env entry) :
    (renameRead env entry).1.status = .errKvStatus ∧ (renameRead env entry).1.out = [] ∧
      (renameRead env entry).1.ival = 0 ∧
      live env.source ((renameRead env entry).1.settle .noData) = live env.source entry := by
  rw [ReadsKey] at fails
  rw [renameRead, execKeyFetch]
  by_cases fetched : env.source.fetched
  · cases found : live env.source entry with
    | none =>
        have invalid : env.source.validated = false := by simpa [fetched, found] using fails
        simp [fetched, invalid, Fetched.stop, KeyRun.settle, live]
    | some e =>
        have stays : live env.source (some e) = some e := by rw [← found, live_live]
        by_cases valued : env.source.valued
        · have invalid : env.source.validated = false := by
            simpa [fetched, found, valued] using fails
          simp [fetched, valued, invalid, Fetched.stop, KeyRun.settle, stays]
        · simp [fetched, valued, Fetched.stop, KeyRun.settle, stays]
  · simp [fetched, Fetched.stop, KeyRun.settle]

/-- A read saves the value, or no bytes for a key that is missing. -/
theorem renameRead_saves (reads : ReadsKey env entry) :
    ∃ run, renameRead env entry = (run, some (((live env.source entry).map Entry.data).getD [])) ∧
      run.status = .execDepends ∧ run.isReadOnly ∧ run.out = [] ∧ run.ival = 0 ∧
      run.entry = live env.source entry ∧
      run.type = ((live env.source entry).map Entry.type).getD .noData := by
  obtain ⟨fetched, validated, valued⟩ := reads
  rw [renameRead, execKeyFetch, if_pos fetched]
  cases found : live env.source entry with
  | none =>
      simp only [if_true, validated]
      exact ⟨_, rfl, rfl, rfl, rfl, rfl, rfl, rfl⟩
  | some e =>
      have here : env.source.valued := valued (by rw [found]; rfl)
      simp only [if_true, validated, here]
      exact ⟨_, rfl, rfl, rfl, rfl, rfl, rfl, rfl⟩

/-- The new key with the value of the old one. -/
def copiedEntry (env : RenameEnv) (type : MdType) (data : Bytes) (entry : Option (Entry Bytes)) :
    Entry Bytes :=
  { type := type, data := data, exp := keptExp env entry }

variable {key : KeyCtx} {part : Bytes}

theorem live_dest (entry : Option (Entry Bytes)) : live env.dest entry = live env.source entry :=
  rfl

/-- The new key takes a value that was saved. -/
theorem renameDest_takes (first : s.keys[0]? = some key) (saved : key.part = some part)
    (some' : part ≠ []) (fetched : env.destFetched) (resized : env.destResized) :
    (renameDest env cmd s entry).status = cmd.sent ∧ (renameDest env cmd s entry).out = [] ∧
      (renameDest env cmd s entry).ival = 0 ∧
      (renameDest env cmd s entry).settle .noData =
        some (copiedEntry env key.type part entry) := by
  have found : env.dest.fetched := fetched
  have room : env.dest.resized := resized
  have given : part.isEmpty = false := by simpa using some'
  rw [renameDest, first, Option.bind_some, saved, Option.map_some]
  simp only [given, execKeyFetch, found, live_dest, room, if_true, Bool.false_eq_true, if_false]
  cases present : live env.source entry with
  | none => simp [Fetched.stop, KeyRun.settle, Entry.write, copiedEntry, keptExp, present]
  | some e => simp [Fetched.stop, KeyRun.settle, Entry.write, copiedEntry, keptExp, present]

/-- A value that is missing or does not find its place is an error. -/
theorem renameDest_fails (first : s.keys[0]? = some key) (saved : key.part = some part)
    (fails : part = [] ∨ ¬(env.destFetched ∧ env.destResized)) :
    (renameDest env cmd s entry).status.isError ∧ (renameDest env cmd s entry).out = [] ∧
      (renameDest env cmd s entry).ival = 0 ∧
      live env.source ((renameDest env cmd s entry).settle .noData) = live env.source entry := by
  have missing : ExecStatus.errKeyDoesntExist.isError := rfl
  have kvStatus : ExecStatus.errKvStatus.isError := rfl
  rw [renameDest, first, Option.bind_some, saved, Option.map_some]
  by_cases empty : part = []
  · simp [empty, unfetched, KeyRun.settle, missing]
  · have given : part.isEmpty = false := by simpa using empty
    have stops := fails.resolve_left empty
    simp only [given, execKeyFetch, live_dest, Bool.false_eq_true, if_false]
    by_cases found : env.dest.fetched
    · have full : env.dest.resized = false := by
        rw [Bool.eq_false_iff]
        exact fun room => stops ⟨found, room⟩
      cases present : live env.source entry with
      | none => simp [found, full, Fetched.stop, KeyRun.settle, kvStatus, live]
      | some e =>
          have stays : live env.source (some e) = some e := by rw [← present, live_live]
          simp [found, full, Fetched.stop, KeyRun.settle, kvStatus, stays]
    · simp [found, Fetched.stop, KeyRun.settle, kvStatus]

/-- The key is deleted where the table finds it or not. -/
theorem renameDelete_deletes (fetched : env.deleteFetched) :
    (renameDelete env cmd entry).status = cmd.sent ∧ (renameDelete env cmd entry).out = [] ∧
      (renameDelete env cmd entry).ival = (if cmd = .rename then 0 else 1) ∧
      (renameDelete env cmd entry).settle .noData = none := by
  rw [renameDelete, execKeyFetch, RenameEnv.delete, if_pos fetched]
  split <;> rename_i found <;> split at found <;> simp_all [Fetched.stop, KeyRun.settle]

/-- A deletion that fails leaves the key. -/
theorem renameDelete_fails (lost : env.deleteFetched = false) :
    (renameDelete env cmd entry).status = .errKvStatus ∧ (renameDelete env cmd entry).out = [] ∧
      (renameDelete env cmd entry).ival = 0 ∧
      (renameDelete env cmd entry).settle .noData = entry := by
  simp [renameDelete, execKeyFetch, RenameEnv.delete, lost, Fetched.stop, KeyRun.settle]

end Turns

section Handler

variable {env : RenameEnv} {cmd : RenameCmd} {s : CommandRun Bytes} {ctx : KeyCtx}

theorem handler_reads (isSource : ctx.argn = 1) (early : ctx.dep = 0)
    (entry : Option (Entry Bytes)) : cmd.handler env s ctx entry = renameRead env entry := by
  cases cmd <;> simp [RenameCmd.handler, execRenamenx, execRename, isSource, early]

theorem handler_deletes (isSource : ctx.argn = 1) (late : ctx.dep ≠ 0)
    (entry : Option (Entry Bytes)) :
    cmd.handler env s ctx entry = (renameDelete env cmd entry, none) := by
  cases cmd <;> simp [RenameCmd.handler, execRenamenx, execRename, isSource, late]

/-- A new key that may be written takes the value, whether its turn looks first or not. -/
theorem handler_renames (isDest : ctx.argn = 2) (fetched : env.destFetched)
    {entry : Option (Entry Bytes)} (absent : cmd = .renamenx → live env.source entry = none) :
    ∃ entry', live env.source entry' = live env.source entry ∧
      cmd.handler env s ctx entry = (renameDest env cmd s entry', none) := by
  cases cmd with
  | rename => exact ⟨entry, rfl, by simp [RenameCmd.handler, execRename, isDest]⟩
  | renamenx =>
      have gone : live env.dest entry = none := absent rfl
      have found : env.dest.fetched := fetched
      by_cases looks : ctx.dep = 0
      · refine ⟨none, (absent rfl).symm, ?_⟩
        simp [RenameCmd.handler, execRenamenx, execRename, isDest, looks, execKeyFetch, found, gone]
      · exact ⟨entry, rfl, by simp [RenameCmd.handler, execRenamenx, execRename, isDest, looks]⟩

/-- The first turn of the second command stops where the table does not find the new key, or finds
that it is there. -/
theorem handler_looks (isDest : ctx.argn = 2) (looks : ctx.dep = 0) {entry : Option (Entry Bytes)}
    (stops : ¬(env.destFetched ∧ live env.source entry = none)) :
    ∃ run, RenameCmd.renamenx.handler env s ctx entry = (run, none) ∧
      (run.status.isError ∨ run.status = .execAbortSendZero) ∧ run.out = [] ∧
      live env.source (run.settle .noData) = live env.source entry := by
  have kvStatus : ExecStatus.errKvStatus.isError := rfl
  rw [RenameCmd.handler, execRenamenx, if_pos ⟨isDest, looks⟩, execKeyFetch, live_dest]
  by_cases fetched : env.destFetched
  · have found : env.dest.fetched := fetched
    cases present : live env.source entry with
    | none => exact absurd ⟨fetched, present⟩ stops
    | some e =>
        have stays : live env.source (some e) = some e := by rw [← present, live_live]
        simp only [found, if_true]
        exact ⟨_, rfl, .inr rfl, rfl, by simp [Fetched.stop, KeyRun.settle, stays]⟩
  · have lost : env.dest.fetched = false := by simpa [RenameEnv.dest] using fetched
    simp only [lost, Bool.false_eq_true, if_false]
    exact ⟨_, rfl, .inl kvStatus, rfl, by simp [Fetched.stop, KeyRun.settle]⟩

/-- A new key that is not written stays. -/
theorem handler_refuses (isDest : ctx.argn = 2) {key : KeyCtx} {part : Bytes}
    (first : s.keys[0]? = some key) (saved : key.part = some part) {entry : Option (Entry Bytes)}
    (looked : cmd = .renamenx → ctx.dep = 0 ∨ live env.source entry = none)
    (fails : ¬(part ≠ [] ∧ env.destFetched ∧ env.destResized ∧
      (cmd = .renamenx → live env.source entry = none))) :
    ∃ run, cmd.handler env s ctx entry = (run, none) ∧
      (run.status.isError ∨ run.status = .execAbortSendZero) ∧ run.out = [] ∧
      live env.source (run.settle .noData) = live env.source entry := by
  by_cases stops : cmd = .renamenx ∧ ctx.dep = 0 ∧
      ¬(env.destFetched ∧ live env.source entry = none)
  · obtain ⟨rfl, looks, stops⟩ := stops
    exact handler_looks isDest looks stops
  · have absent : cmd = .renamenx → live env.source entry = none := by
      intro nx
      rcases looked nx with looks | gone
      · exact (not_not.mp fun notGone => stops ⟨nx, looks, notGone⟩).2
      · exact gone
    have unable : part = [] ∨ ¬(env.destFetched ∧ env.destResized) := by
      by_contra able
      rw [not_or, not_not] at able
      exact fails ⟨able.1, able.2.1, able.2.2, absent⟩
    by_cases looks : cmd = .renamenx ∧ ctx.dep = 0
    · obtain ⟨rfl, looks⟩ := looks
      have fetched : env.destFetched :=
        (not_not.mp fun notGone => stops ⟨rfl, looks, notGone⟩).1
      obtain ⟨entry', same, handled⟩ := handler_renames (s := s) isDest fetched absent
      obtain ⟨error, noOut, _, stays⟩ :=
        @renameDest_fails env .renamenx entry' s key part first saved unable
      exact ⟨_, handled, .inl error, noOut, stays.trans same⟩
    · have handled : cmd.handler env s ctx entry = (renameDest env cmd s entry, none) := by
        cases cmd with
        | rename => simp [RenameCmd.handler, execRename, isDest]
        | renamenx =>
            have later : ctx.dep ≠ 0 := fun early => looks ⟨rfl, early⟩
            simp [RenameCmd.handler, execRenamenx, execRename, isDest, later]
      obtain ⟨error, noOut, _, stays⟩ := @renameDest_fails env cmd entry s key part first saved unable
      exact ⟨_, handled, .inl error, noOut, stays⟩

end Handler

section Outcome

variable {env : RenameEnv} {cmd : RenameCmd} {arg0 : Bytes} {src dst : KeyHash}
  {db db' : KeyHash → Option (Entry Bytes)} {s : CommandRun Bytes}

/-- Only the keys that have not expired count. -/
theorem renamesWhole_congr (same : ∀ h, live env.source (db' h) = live env.source (db h)) :
    RenamesWhole env cmd arg0 src dst db' s ↔ RenamesWhole env cmd arg0 src dst db s := by
  simp only [RenamesWhole, Renamed, RenameRefused, SameKeys, same]

theorem copied_congr (same : ∀ h, live env.source (db' h) = live env.source (db h))
    (e : Entry Bytes) : Copied env cmd src dst db' e ↔ Copied env cmd src dst db e := by
  simp only [Copied, ReadsKey, same]

theorem renameCondition_congr (same : ∀ h, live env.source (db' h) = live env.source (db h)) :
    RenameCondition env cmd src dst db' ↔ RenameCondition env cmd src dst db := by
  simp only [RenameCondition, copied_congr same, keptExp, same]

/-- A turn with one reply refuses the command. -/
theorem renameRefused_of_reply {status : ExecStatus} {ival : Int}
    (refuses : status.isError ∨ status = .execAbortSendZero)
    (same : SameKeys env db s) (reply : s.out = sendStatus arg0 ival status) :
    RenameRefused env arg0 db s := by
  refine ⟨same, status, ?_, refuses⟩
  rcases refuses with error | rfl
  · rw [reply, sendStatus_of_isError error, sendStatus_of_isError error]
  · exact reply

/-- Behind the deletion the key was moved, where the new key had its expiry already. -/
theorem renamesWhole_of_deleted {e : Entry Bytes} (there : live env.source (db src) = some e)
    (absent : cmd = .renamenx → live env.source (db dst) = none) (done : s.out = cmd.done)
    (moved : s.db = Function.update (Function.update db dst
      (some (copiedEntry env e.type e.data (db dst)))) src none) :
    RenamesWhole env cmd arg0 src dst db s ↔ src ≠ dst ∧ e.exp = keptExp env (db dst) := by
  have gone : live env.source (s.db src) = none := by rw [moved, Function.update_self]; rfl
  have changed : ¬SameKeys env db s := by
    intro same
    rw [SameKeys] at same
    rw [← same src, gone] at there
    cases there
  constructor
  · rintro (⟨-, -, e', there', ends⟩ | ⟨same, -⟩)
    · obtain rfl := Option.some.inj (there.symm.trans there')
      by_cases aliased : src = dst
      · rw [if_pos aliased] at ends
        exact absurd ends changed
      · rw [if_neg aliased] at ends
        have atDst := ends dst
        rw [if_neg (Ne.symm aliased), if_pos rfl, moved, Function.update_of_ne (Ne.symm aliased),
          Function.update_self] at atDst
        have same := Option.some.inj (eq_of_live atDst)
        exact ⟨aliased, (congrArg Entry.exp same).symm⟩
    · exact absurd same changed
  · rintro ⟨aliased, kept⟩
    refine .inl ⟨done, absent, e, there, ?_⟩
    rw [if_neg aliased]
    intro h
    have copy : copiedEntry env e.type e.data (db dst) = e := by rw [copiedEntry, ← kept]
    by_cases isSrc : h = src
    · rw [if_pos isSrc, isSrc, gone]
    · rw [if_neg isSrc, moved, Function.update_of_ne isSrc, copy]
      by_cases isDst : h = dst
      · rw [if_pos isDst, isDst, Function.update_self, ← there, live_live]
      · rw [if_neg isDst, Function.update_of_ne isDst]

/-- Where the deletion fails nothing has changed, if the new key had the value already. -/
theorem renamesWhole_of_kept {e : Entry Bytes} (there : live env.source (db src) = some e)
    (forever : env.source.isExpired 0 = false)
    (reply : s.out = sendErrString arg0 .errKvStatus)
    (moved : s.db = Function.update db dst (some (copiedEntry env e.type e.data (db dst)))) :
    RenamesWhole env cmd arg0 src dst db s ↔
      ∃ e', live env.source (db dst) = some e' ∧ e'.type = e.type ∧ e'.data = e.data := by
  have refused : SameKeys env db s → RenameRefused env arg0 db s := by
    exact fun same => ⟨same, .errKvStatus, reply, .inl rfl⟩
  have atDst : s.db dst = some (copiedEntry env e.type e.data (db dst)) := by
    rw [moved, Function.update_self]
  have same_of_copy : live env.source (s.db dst) = live env.source (db dst) → SameKeys env db s := by
    intro copy h
    by_cases isDst : h = dst
    · rw [isDst, copy]
    · rw [moved, Function.update_of_ne isDst]
  constructor
  · intro whole
    have same : SameKeys env db s := by
      rcases whole with ⟨-, -, e', there', ends⟩ | ⟨same, -⟩
      · by_cases aliased : src = dst
        · rwa [if_pos aliased] at ends
        · rw [if_neg aliased] at ends
          have atSrc := ends src
          rw [if_pos rfl, moved, Function.update_of_ne aliased, there] at atSrc
          cases atSrc
      · exact same
    have copy := same dst
    rw [atDst] at copy
    cases found : live env.source (db dst) with
    | none =>
        rw [found, copiedEntry, keptExp, found] at copy
        simp [live, forever] at copy
    | some e' =>
        rw [found] at copy
        obtain rfl := Option.some.inj (eq_of_live copy)
        exact ⟨_, rfl, rfl, rfl⟩
  · rintro ⟨e', found, sameType, sameData⟩
    refine .inr (refused (same_of_copy ?_))
    have copy : copiedEntry env e.type e.data (db dst) = e' := by
      rw [copiedEntry, keptExp, found, ← sameType, ← sameData]
      rfl
    rw [atDst, copy, found, ← found, live_live]

end Outcome

section Run

/-- A refusal ends the command. -/
theorem refusal_stops {status : ExecStatus}
    (refuses : status.isError ∨ status = .execAbortSendZero) :
    status ≠ .execDepends ∧ ExecStatus.execBlocked.ctorIdx < status.ctorIdx := by
  rcases refuses with error | rfl
  · exact stops_of_isError error
  · decide

variable (env : RenameEnv) (cmd : RenameCmd) (arg0 : Bytes)
  {db : KeyHash → Option (Entry Bytes)} {source dest : KeyCtx}

/-- The last turn deletes the key, or leaves it. -/
theorem run_delete {t : CommandRun Bytes} (keys : t.keys = [source, dest]) (last : t.keyDone = 1)
    (noOut : t.out = []) (isSource : source.argn = 1) (late : source.dep ≠ 0)
    (noIval : dest.ival = 0) (fuel : Nat) :
    ∃ s, runKeys (cmd.handler env) .noData arg0 (fuel + 1) [0] t = some s ∧
      if env.deleteFetched then
        s.out = cmd.done ∧ s.db = Function.update t.db source.hash none
      else s.out = sendErrString arg0 .errKvStatus ∧ s.db = t.db := by
  have first : t.keys[0]? = some source := by rw [keys]; rfl
  have ends : t.keyDone + 1 = t.keys.length := by rw [last, keys]; rfl
  have handled := @handler_deletes env cmd t source isSource late (t.db source.hash)
  have notDepends : cmd.sent ≠ .execDepends := by cases cmd <;> decide
  by_cases deleted : env.deleteFetched
  · obtain ⟨sent, noText, one, settled⟩ :=
      @renameDelete_deletes env cmd (t.db source.hash) deleted
    have turn := @turn_success _ _ .noData arg0 t _ _ _ 0 first handled
      (by rw [sent]; exact notDepends) (.inl ends)
    rw [settled, sent, noText, noOut, keys] at turn
    refine ⟨_, runKeys_success turn, ?_⟩
    rw [if_pos deleted]
    refine ⟨?_, rfl⟩
    cases cmd with
    | rename => rfl
    | renamenx =>
        simp [RenameCmd.sent, sendStatus, RenameCmd.done, KeyCtx.after, one, noIval]
  · obtain ⟨failed, noText, _, settled⟩ :=
      @renameDelete_fails env cmd (t.db source.hash) (by simpa using deleted)
    have turn := @turn_success _ _ .noData arg0 t _ _ _ 0 first handled
      (by rw [failed]; decide) (.inl ends)
    rw [settled, failed, noText, noOut, keys] at turn
    refine ⟨_, runKeys_success turn, ?_⟩
    rw [if_neg deleted]
    exact ⟨rfl, Function.update_eq_self _ _⟩

/-- The second turns of both keys rename the key under the condition only. -/
theorem run_behind (forever : env.source.isExpired 0 = false) (isSource : source.argn = 1)
    (late : source.dep ≠ 0) (isDest : dest.argn = 2) (reads : ReadsKey env (db source.hash))
    (saved : source.part = some (((live env.source (db source.hash)).map Entry.data).getD []))
    (typed : source.type = ((live env.source (db source.hash)).map Entry.type).getD .noData)
    (looked : cmd = .renamenx → dest.dep = 0 ∨ live env.source (db dest.hash) = none)
    (fuel : Nat) :
    ∃ s, runKeys (cmd.handler env) .noData arg0 (fuel + 2) [1, 0]
        { db := db, keys := [source, dest], out := [] } = some s ∧
      (RenamesWhole env cmd arg0 source.hash dest.hash db s ↔
        RenameCondition env cmd source.hash dest.hash db) := by
  have first : ({ db := db, keys := [source, dest], out := [] } : CommandRun Bytes).keys[0]? =
      some source := rfl
  by_cases copies : ∃ e, Copied env cmd source.hash dest.hash db e
  · obtain ⟨e, copied⟩ := copies
    have only : RenameCondition env cmd source.hash dest.hash db ↔
        if env.deleteFetched then
          source.hash ≠ dest.hash ∧ e.exp = keptExp env (db dest.hash)
        else ∃ e', live env.source (db dest.hash) = some e' ∧ e'.type = e.type ∧
          e'.data = e.data := by
      refine ⟨fun all => all e copied, fun one e' copied' => ?_⟩
      obtain rfl := Option.some.inj (copied.2.1.symm.trans copied'.2.1)
      exact one
    obtain ⟨-, there, given, fetched, resized, absent⟩ := copied
    rw [there] at saved typed
    obtain ⟨entry', same, handled⟩ := @handler_renames env cmd
      { db := db, keys := [source, dest], out := [] } dest isDest fetched _ absent
    obtain ⟨sent, noOut, noIval, settled⟩ :=
      @renameDest_takes env cmd entry' _ source e.data first saved given fetched resized
    have goesOn : cmd.sent ≠ .execDepends ∧ cmd.sent.ctorIdx ≤ ExecStatus.execBlocked.ctorIdx := by
      cases cmd <;> decide
    have copy : copiedEntry env source.type e.data entry' =
        copiedEntry env e.type e.data (db dest.hash) := by
      rw [copiedEntry, copiedEntry, typed, keptExp, keptExp, same]
      rfl
    rw [copy] at settled
    have turn := @turn_more _ (cmd.handler env) .noData arg0
      { db := db, keys := [source, dest], out := [] } dest _ none 1 rfl handled
      (by rw [sent]; exact goesOn.1) (by simp) (by rw [sent]; exact goesOn.2)
    rw [settled, noOut] at turn
    obtain ⟨s, ran, outcome⟩ := @run_delete env cmd arg0 source (dest.after _ none)
      { db := Function.update db dest.hash (some (copiedEntry env e.type e.data (db dest.hash)))
        keys := [source, dest.after (renameDest env cmd
          { db := db, keys := [source, dest], out := [] } entry') none]
        keyDone := 1
        out := [] } rfl rfl rfl isSource late noIval fuel
    refine ⟨s, (runKeys_more turn).trans ran, ?_⟩
    rw [only]
    by_cases deleted : env.deleteFetched
    · rw [if_pos deleted] at outcome ⊢
      exact renamesWhole_of_deleted there absent outcome.1 outcome.2
    · rw [if_neg deleted] at outcome ⊢
      exact renamesWhole_of_kept there forever outcome.1 outcome.2
  · -- The new key refuses the value, which leaves both keys.
    have fails : ¬(((live env.source (db source.hash)).map Entry.data).getD [] ≠ [] ∧
        env.destFetched ∧ env.destResized ∧
        (cmd = .renamenx → live env.source (db dest.hash) = none)) := by
      rintro ⟨given, fetched, resized, absent⟩
      cases there : live env.source (db source.hash) with
      | none => exact given (by rw [there]; rfl)
      | some e =>
          rw [there] at given
          exact copies ⟨e, reads, there, given, fetched, resized, absent⟩
    obtain ⟨run, handled, refuses, noOut, same⟩ := @handler_refuses env cmd
      { db := db, keys := [source, dest], out := [] } dest isDest source _ first saved
      (db dest.hash) looked fails
    have stops := refusal_stops refuses
    have turn := @turn_success _ (cmd.handler env) .noData arg0
      { db := db, keys := [source, dest], out := [] } dest _ none 1 rfl handled stops.1
      (.inr stops.2)
    refine ⟨_, runKeys_success turn, iff_of_true (.inr ?_) ?_⟩
    · exact renameRefused_of_reply refuses (live_update same) (by rw [noOut]; rfl)
    · exact fun e copied => absurd ⟨e, copied⟩ copies

/-- The turns rename the key under the condition only, when the key is read first. -/
theorem run_source_first (forever : env.source.isExpired 0 = false) (isSource : source.argn = 1)
    (early : source.dep = 0) (untyped : source.type = .noData) (isDest : dest.argn = 2)
    (looked : cmd = .renamenx → dest.dep = 0 ∨ live env.source (db dest.hash) = none)
    (fuel : Nat) :
    ∃ s, runKeys (cmd.handler env) .noData arg0 (fuel + 3) [0, 1]
        { db := db, keys := [source, dest], out := [] } = some s ∧
      (RenamesWhole env cmd arg0 source.hash dest.hash db s ↔
        RenameCondition env cmd source.hash dest.hash db) := by
  have handled := @handler_reads env cmd
    { db := db, keys := [source, dest], out := [] } source isSource early (db source.hash)
  by_cases reads : ReadsKey env (db source.hash)
  · obtain ⟨run, saves, depends, readOnly, noOut, _, found, typed⟩ := renameRead_saves reads
    rw [saves] at handled
    have turn := @turn_depends _ (cmd.handler env) .noData arg0
      { db := db, keys := [source, dest], out := [] } source run _ 0 rfl handled readOnly depends
    have same : ∀ h, live env.source (Function.update db source.hash run.entry h) =
        live env.source (db h) := live_update (by rw [found, live_live])
    have type : (source.after run (some (((live env.source (db source.hash)).map
        Entry.data).getD []))).type =
          ((live env.source (db source.hash)).map Entry.type).getD .noData := by
      rw [KeyCtx.after, typed, untyped]
      split
      · exact Eq.symm (by assumption)
      · rfl
    obtain ⟨s, ran, exact⟩ := @run_behind env cmd arg0
      (Function.update db source.hash run.entry)
      { source.after run (some (((live env.source (db source.hash)).map Entry.data).getD [])) with
        dep := source.dep + 1 } dest forever isSource (Nat.succ_ne_zero _) isDest
      (by simpa only [ReadsKey, same, KeyCtx.after] using reads)
      (by simp only [same, KeyCtx.after]; rfl) (by simpa only [same, KeyCtx.after] using type)
      (by simpa only [same] using looked) fuel
    refine ⟨s, (runKeys_depends turn).trans (by rw [noOut]; exact ran), ?_⟩
    exact (renamesWhole_congr same).symm.trans (exact.trans (renameCondition_congr same))
  · obtain ⟨failed, noOut, _, same⟩ := renameRead_fails reads
    have turn := @turn_success _ (cmd.handler env) .noData arg0
      { db := db, keys := [source, dest], out := [] } source (renameRead env (db source.hash)).1
      (renameRead env (db source.hash)).2 0 rfl handled (by rw [failed]; decide)
      (.inr (by rw [failed]; decide))
    rw [noOut, failed] at turn
    have error : ExecStatus.errKvStatus.isError := rfl
    refine ⟨_, runKeys_success turn, iff_of_true (.inr ?_) ?_⟩
    · exact ⟨live_update same, .errKvStatus, rfl, .inl error⟩
    · exact fun e copied => absurd copied.1 reads

/-- A new key that has its turn first waits for the key, unless it refuses at once. -/
theorem dest_first (isDest : dest.argn = 2) {s : CommandRun Bytes} {key : KeyCtx} (first : s.keys[0]? = some key) (unsaved : key.part = none)
    (entry : Option (Entry Bytes)) :
    (∃ entry', live env.source entry' = live env.source entry ∧
      (cmd = .renamenx → live env.source entry = none) ∧
      cmd.handler env s dest entry = (unfetched .execDepends entry', none)) ∨
    (cmd = .renamenx ∧ ¬(env.destFetched ∧ live env.source entry = none)) := by
  by_cases stops : cmd = .renamenx ∧ ¬(env.destFetched ∧ live env.source entry = none)
  · exact .inr stops
  · have waits : ∀ entry, renameDest env cmd s entry = unfetched .execDepends entry := by
      intro entry
      rw [renameDest, first, Option.bind_some, unsaved, Option.map_none]
    left
    cases cmd with
    | rename =>
        refine ⟨entry, rfl, by simp, ?_⟩
        simp [RenameCmd.handler, execRename, isDest, waits]
    | renamenx =>
        obtain ⟨fetched, gone⟩ := not_not.mp fun notGone => stops ⟨rfl, notGone⟩
        obtain ⟨entry', same, handled⟩ := @handler_renames env .renamenx s dest isDest fetched entry
          fun _ => gone
        exact ⟨entry', same, fun _ => gone, by rw [handled, waits]⟩

end Run

/-- RENAME and RENAMENX move a key under this condition only, in both orders of the keys. -/
theorem execRename_exact (env : RenameEnv) (cmd : RenameCmd) (arg0 : Bytes)
    (db : KeyHash → Option (Entry Bytes)) (src dst : KeyHash)
    (forever : env.source.isExpired 0 = false) {order : List Nat}
    (all : order.Perm (List.range 2)) :
    ∃ s, runKeys (cmd.handler env) .noData arg0 4 order
        { db := db, keys := [{ argn := 1, hash := src }, { argn := 2, hash := dst }],
          out := [] } = some s ∧
      (RenamesWhole env cmd arg0 src dst db s ↔ RenameCondition env cmd src dst db) := by
  rcases orders_of_two all with rfl | rfl
  · exact @run_source_first env cmd arg0 db { argn := 1, hash := src } { argn := 2, hash := dst }
      forever rfl rfl rfl rfl (fun _ => .inl rfl) 1
  · rcases @dest_first env cmd { argn := 2, hash := dst } rfl
      { db := db, keys := [{ argn := 1, hash := src }, { argn := 2, hash := dst }], out := [] }
      { argn := 1, hash := src } rfl rfl (db dst) with ⟨entry', same, absent, waits⟩ | stops
    · have turn := @turn_depends _ (cmd.handler env) .noData arg0
        { db := db, keys := [{ argn := 1, hash := src }, { argn := 2, hash := dst }], out := [] }
        _ _ none 1 rfl waits rfl rfl
      have sameDb : ∀ h, live env.source (Function.update db dst entry' h) =
          live env.source (db h) := live_update same
      obtain ⟨s, ran, exact⟩ := @run_source_first env cmd arg0 (Function.update db dst entry')
        { argn := 1, hash := src } { argn := 2, hash := dst, dep := 1, status := .execDepends }
        forever rfl rfl rfl rfl (fun nx => .inr (by rw [sameDb]; exact absent nx)) 0
      refine ⟨s, (runKeys_depends turn).trans ran, ?_⟩
      exact (renamesWhole_congr sameDb).symm.trans (exact.trans (renameCondition_congr sameDb))
    · obtain ⟨rfl, stops⟩ := stops
      obtain ⟨run, handled, refuses, noOut, same⟩ := @handler_looks env
        { db := db, keys := [{ argn := 1, hash := src }, { argn := 2, hash := dst }], out := [] }
        { argn := 2, hash := dst } rfl rfl (db dst) stops
      have turn := @turn_success _ (RenameCmd.renamenx.handler env) .noData arg0
        { db := db, keys := [{ argn := 1, hash := src }, { argn := 2, hash := dst }], out := [] }
        _ _ none 1 rfl handled (refusal_stops refuses).1 (.inr (refusal_stops refuses).2)
      refine ⟨_, runKeys_success turn, iff_of_true (.inr ?_) ?_⟩
      · exact renameRefused_of_reply refuses (live_update same) (by rw [noOut]; rfl)
      · exact fun e copied => absurd ⟨copied.2.2.2.1, copied.2.2.2.2.2 rfl⟩ stops

/-- A key without an expiry is moved, the new key first. -/
theorem execRename_exact_reversed :
    ∃ s, runKeys (RenameCmd.renamenx.handler {}) .noData [] 4 [1, 0]
        { db := fun h => if h = ⟨1, 0⟩ then some ⟨.string, [1], 0⟩ else none
          keys := [{ argn := 1, hash := ⟨1, 0⟩ }, { argn := 2, hash := ⟨2, 0⟩ }]
          out := [] } = some s ∧
      RenamesWhole {} .renamenx [] ⟨1, 0⟩ ⟨2, 0⟩
        (fun h => if h = ⟨1, 0⟩ then some ⟨.string, [1], 0⟩ else none) s := by
  obtain ⟨s, ran, exact⟩ := @execRename_exact {} .renamenx []
    (fun h => if h = ⟨1, 0⟩ then some ⟨.string, [1], 0⟩ else none) ⟨1, 0⟩ ⟨2, 0⟩ rfl [1, 0]
    (by decide)
  refine ⟨s, ran, exact.mpr ?_⟩
  intro e copied
  have found : some (⟨.string, [1], 0⟩ : Entry Bytes) = some e := copied.2.1
  obtain rfl := Option.some.inj found
  exact ⟨by decide, rfl⟩

/-- A key that is renamed to itself is gone. -/
theorem not_execRename_exact :
    ¬∃ s, runKeys (RenameCmd.rename.handler {}) .noData [] 4 [0, 1]
        { db := fun _ => some ⟨.string, [1], 0⟩
          keys := [{ argn := 1, hash := ⟨1, 0⟩ }, { argn := 2, hash := ⟨1, 0⟩ }]
          out := [] } = some s ∧
      RenamesWhole {} .rename [] ⟨1, 0⟩ ⟨1, 0⟩ (fun _ => some ⟨.string, [1], 0⟩) s := by
  intro given
  obtain ⟨s, ran, whole⟩ := given
  obtain ⟨s', ran', exact⟩ := @run_source_first {} .rename [] (fun _ => some ⟨.string, [1], 0⟩)
    { argn := 1, hash := ⟨1, 0⟩ } { argn := 2, hash := ⟨1, 0⟩ } rfl rfl rfl rfl rfl
    (fun _ => .inl rfl) 1
  obtain rfl := Option.some.inj (ran.symm.trans ran')
  have reads : ReadsKey {} (some ⟨.string, [1], 0⟩) := ⟨rfl, rfl, fun _ => rfl⟩
  have moved := exact.mp whole ⟨.string, [1], 0⟩
    ⟨reads, rfl, by decide, rfl, rfl, fun nx => by cases nx⟩
  exact moved.1 rfl

end Raids.Key
