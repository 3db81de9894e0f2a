import Raids.Construction.Key.SetMove
import Raids.Proof.Key.Add
import Raids.Proof.Key.Continue

namespace Raids.Key

section Spec

variable (env : SmoveEnv) (msg : CommandMsg) (arg0 : Bytes) (src dst : KeyHash)
  (db : KeyHash → Option (Entry SetData)) (s : CommandRun SetData)

/-- A member of the set of a key. A key of another type has none. -/
def IsMember (entry : Option (Entry SetData)) (m : Bytes) : Prop :=
  ∃ e, live env.source entry = some e ∧ e.type = .set ∧ m ∈ e.data.members

/-- The keys that have not expired are the same. -/
def SmoveKeeps : Prop := ∀ h, live env.source (s.db h) = live env.source (db h)

/-- The member was in the source and is in the destination, and no longer in the source if that is
another key. All other members and all other keys are the same. -/
def MemberMoved : Prop :=
  s.out = line ":1" ∧ ∃ m, msg.getArgStr 3 = some m ∧ IsMember env (db src) m ∧
    (∀ h x, IsMember env (s.db h) x ↔
      if x = m ∧ (h = src ∨ h = dst) then h = dst else IsMember env (db h) x) ∧
    ∀ h, h ≠ src → h ≠ dst → live env.source (s.db h) = live env.source (db h)

/-- The member was not in the source, and nothing has changed. -/
def MemberMissing : Prop :=
  s.out = line "*0" ∧ SmoveKeeps env db s ∧
    ∀ m, msg.getArgStr 3 = some m → ¬IsMember env (db src) m

/-- An error, and nothing has changed. -/
def SmoveFailed : Prop :=
  SmoveKeeps env db s ∧ ∃ status : ExecStatus, status.isError ∧ s.out = sendErrString arg0 status

/-- The reply of one, of zero or of an error tells what has happened. -/
def SmoveConserves : Prop :=
  MemberMoved env msg src dst db s ∨ MemberMissing env msg src db s ∨ SmoveFailed env arg0 db s

/-- The entry from which the member is taken. -/
def SmoveTaken (m : Bytes) (entry : Option (Entry SetData)) (e : Entry SetData) : Prop :=
  env.source.fetched ∧ env.source.valued ∧ live env.source entry = some e ∧ e.type = .set ∧
    m ∈ e.data.members

/-- The source without the member. A set without members is no entry. -/
def removeMember (e : Entry SetData) (m : Bytes) : Option (Entry SetData) :=
  if (e.data.srem m).2.hcount = 0 then none else some { e with data := (e.data.srem m).2 }

/-- The destination is a set that is read and has room, or there is memory for a new set. -/
def SmoveTakes (entry : Option (Entry SetData)) : Prop :=
  env.destFetched ∧ (∀ grown ∈ env.destGrow, grown = true) ∧
    match live env.source entry with
    | some e => if e.type = .set then env.destValued else env.destResized
    | none => env.destResized

/-- A member that is taken leaves a source that can be deleted if it is empty, and a destination
that takes the member. -/
def SmoveCondition : Prop :=
  ∀ m e, msg.getArgStr 3 = some m → SmoveTaken env m (db src) e →
    ((e.data.srem m).2.hcount = 0 → env.tombstoned) ∧
      SmoveTakes env (Function.update db src (removeMember e m) dst)

end Spec

section Source

variable {env : SmoveEnv} {m : Bytes} {entry : Option (Entry SetData)}

/-- A source that does not give the member stays as it is. -/
theorem doSwriteSource_refused (nothing : ∀ e, ¬SmoveTaken env m entry e) :
    (doSwriteSource env m entry).out = [] ∧
      live env.source ((doSwriteSource env m entry).settle .set) = live env.source entry ∧
      ((doSwriteSource env m entry).status.isError ∨
        (doSwriteSource env m entry).status = .execAbortSendZero ∧ ¬IsMember env entry m) := by
  have noSuccess : ExecStatus.execAbortSendZero.isSuccess = false := rfl
  have badType : ExecStatus.errBadType.isError := rfl
  have kvStatus : ExecStatus.errKvStatus.isError := rfl
  rw [doSwriteSource]
  by_cases fetched : env.source.fetched
  · rw [getKeyWrite_fetched fetched]
    cases found : live env.source entry with
    | none =>
        have noMember : ¬IsMember env entry m := by simp [IsMember, found]
        simp [Fetched.stop, KeyRun.settle, live, noMember]
    | some e =>
        have stays : live env.source (some e) = some e := by rw [← found, live_live]
        by_cases isSet : e.type = .set
        · by_cases valued : env.source.valued
          · have missing : m ∉ e.data.members := fun member =>
              nothing e ⟨fetched, valued, found, isSet, member⟩
            simp [isSet, valued, missing, Fetched.stop, KeyRun.settle, stays, SetData.srem,
              IsMember, found]
          · simp [isSet, valued, Fetched.stop, KeyRun.settle, stays, kvStatus]
        · by_cases untyped : e.type = .noData
          · simp [untyped, Fetched.stop, KeyRun.settle, stays, noSuccess, IsMember, found]
          · simp [isSet, untyped, Fetched.stop, KeyRun.settle, stays, badType]
  · simp [getKeyWrite, execKeyFetch, fetched, Fetched.stop, KeyRun.settle, kvStatus]

/-- A source that gives the member loses it, and is deleted without members. -/
theorem doSwriteSource_taken {e : Entry SetData} (taken : SmoveTaken env m entry e) :
    (doSwriteSource env m entry).out = [] ∧ (doSwriteSource env m entry).ival = 0 ∧
      if (e.data.srem m).2.hcount = 0 → env.tombstoned then
        (doSwriteSource env m entry).status = .execOk ∧
          (doSwriteSource env m entry).settle .set = removeMember e m
      else (doSwriteSource env m entry).status = .errKvStatus ∧
        (doSwriteSource env m entry).settle .set = some { e with data := (e.data.srem m).2 } := by
  obtain ⟨fetched, valued, found, isSet, member⟩ := taken
  have removed : (e.data.srem m).1 = true := by simp [SetData.srem, member]
  rw [doSwriteSource, getKeyWrite_fetched fetched]
  simp only [found, isSet, if_true, valued, removed, removeMember]
  by_cases empty : (e.data.srem m).2.hcount = 0
  · by_cases tombstoned : env.tombstoned
    · simp [empty, tombstoned, Fetched.stop, KeyRun.settle]
    · simp [empty, tombstoned, Fetched.stop, KeyRun.settle]
  · simp [empty, Fetched.stop, KeyRun.settle]

end Source

section Dest

variable {env : SmoveEnv} {m : Bytes} {entry : Option (Entry SetData)}

/-- A set that can grow takes the member. -/
theorem saddLoop_grows {grow : List Bool} (grows : ∀ grown ∈ grow, grown = true)
    (run : KeyRun SetData) (e : Entry SetData) :
    saddLoop m run e grow =
      { run with status := .execSendOne, entry := some { e with data := e.data.sadd m } } := by
  induction grow with
  | nil => rfl
  | cons grown grow ih =>
      obtain rfl := grows grown (by simp)
      exact ih fun other member => grows other (by simp [member])

/-- A set that cannot grow stays as it is. -/
theorem saddLoop_full {grow : List Bool} (full : ¬∀ grown ∈ grow, grown = true)
    (run : KeyRun SetData) (e : Entry SetData) :
    saddLoop m run e grow = { run with status := .errKvStatus, entry := some e } := by
  induction grow with
  | nil => simp at full
  | cons grown grow ih =>
      cases grown with
      | false => rfl
      | true => exact ih (by simpa using full)

/-- The destination with the member. -/
def addMember (m : Bytes) : Option (Entry SetData) → Entry SetData
  | none => ⟨.set, SetData.empty.sadd m, 0⟩
  | some e =>
      if e.type = .set then { e with data := e.data.sadd m }
      else { e with type := .set, data := SetData.empty.sadd m }

/-- A destination that takes the member has it. -/
theorem doSwriteDest_takes (takes : SmoveTakes env entry) :
    (doSwriteDest env.dest m entry).status = .execSendOne ∧
      (doSwriteDest env.dest m entry).out = [] ∧ (doSwriteDest env.dest m entry).ival = 0 ∧
      (doSwriteDest env.dest m entry).settle .set =
        some (addMember m (live env.source entry)) := by
  obtain ⟨fetched, grows, kind⟩ := takes
  have grows' : ∀ grown ∈ env.dest.grow, grown = true := grows
  have success : ExecStatus.execSendOne.isSuccess := rfl
  have same : live env.dest entry = live env.source entry := rfl
  rw [doSwriteDest, getKeyWrite_fetched (show env.dest.fetched from fetched), same]
  cases found : live env.source entry with
  | none =>
      rw [found] at kind
      have resized : env.dest.resized := kind
      simp [createAndAdd, resized, saddLoop_grows grows', Fetched.stop, KeyRun.settle, addMember,
        Entry.write, success]
  | some e =>
      simp only [found] at kind
      by_cases isSet : e.type = .set
      · rw [if_pos isSet] at kind
        have valued : env.dest.valued := kind
        simp [isSet, valued, saddLoop_grows grows', Fetched.stop, KeyRun.settle, addMember]
      · rw [if_neg isSet] at kind
        have resized : env.dest.resized := kind
        by_cases untyped : e.type = .noData
        · simp [untyped, createAndAdd, resized, saddLoop_grows grows', Fetched.stop,
            KeyRun.settle, addMember, Entry.write, success]
        · simp [isSet, untyped, createAndAdd, resized, saddLoop_grows grows', Fetched.stop,
            KeyRun.settle, addMember, Entry.write, success]

/-- Another destination is an error, and it has no new member. -/
theorem doSwriteDest_refused (refuses : ¬SmoveTakes env entry) :
    (doSwriteDest env.dest m entry).status.isError ∧ (doSwriteDest env.dest m entry).out = [] ∧
      ∀ e, (doSwriteDest env.dest m entry).entry = some e →
        e.data = SetData.empty ∨ entry = some e := by
  have kvStatus : ExecStatus.errKvStatus.isError := rfl
  have same : live env.dest entry = live env.source entry := rfl
  rw [doSwriteDest]
  by_cases fetched : env.destFetched
  · rw [getKeyWrite_fetched (show env.dest.fetched from fetched), same]
    rw [SmoveTakes, and_iff_right fetched] at refuses
    -- A new set is not created, or it cannot grow.
    have created : ∀ found : Fetched SetData,
        ¬((∀ grown ∈ env.destGrow, grown = true) ∧ env.destResized = true) →
        (∀ e, found.entry = some e → entry = some e) →
        (createAndAdd env.dest m found).status.isError ∧
          (createAndAdd env.dest m found).out = [] ∧
          ∀ e, (createAndAdd env.dest m found).entry = some e →
            e.data = SetData.empty ∨ entry = some e := by
      intro found fails old
      rw [createAndAdd]
      by_cases resized : env.dest.resized
      · have full : ¬∀ grown ∈ env.dest.grow, grown = true := fun grows => fails ⟨grows, resized⟩
        rw [if_pos resized, saddLoop_full full]
        refine ⟨kvStatus, rfl, fun e isEntry => .inl ?_⟩
        obtain rfl := Option.some.inj isEntry
        cases found.entry <;> rfl
      · rw [if_neg resized]
        exact ⟨kvStatus, rfl, fun e isEntry => .inr (old e isEntry)⟩
    cases found : live env.source entry with
    | none =>
        rw [found] at refuses
        exact created _ refuses (by simp)
    | some e =>
        simp only [found] at refuses
        have there := eq_of_live found
        by_cases isSet : e.type = .set
        · rw [if_pos isSet] at refuses
          by_cases valued : env.dest.valued
          · have full : ¬∀ grown ∈ env.dest.grow, grown = true :=
              fun grows => refuses ⟨grows, valued⟩
            simp [isSet, valued, saddLoop_full full, Fetched.stop, kvStatus, there]
          · simp [isSet, valued, Fetched.stop, kvStatus, there]
        · rw [if_neg isSet] at refuses
          by_cases untyped : e.type = .noData
          · simpa [untyped] using created ⟨some .keyIsNew, some e, true, .noData⟩ refuses
              fun e' isEntry => there.trans isEntry
          · simpa [isSet, untyped] using created ⟨some .keyNoValue, some e, false, e.type⟩ refuses
              fun e' isEntry => there.trans isEntry
  · have lost : env.dest.fetched = false := by simpa [SmoveEnv.dest] using fetched
    simp only [getKeyWrite, execKeyFetch, lost, if_false, Bool.false_eq_true, Fetched.stop,
      reduceCtorEq, false_and, kvStatus, true_and]
    exact fun e there => Or.inr there

end Dest

section Outcome

variable {env : SmoveEnv} {msg : CommandMsg} {arg0 : Bytes} {src dst : KeyHash}
  {db : KeyHash → Option (Entry SetData)} {s : CommandRun SetData} {m : Bytes} {e : Entry SetData}

/-- The members of a source without the member. -/
theorem isMember_removeMember (there : live env.source (db src) = some e) (isSet : e.type = .set)
    (x : Bytes) :
    IsMember env (removeMember e m) x ↔ x ≠ m ∧ IsMember env (db src) x := by
  have alive : env.source.isExpired e.exp = false := by
    have kept := (Option.filter_eq_some_iff.mp there).2
    simpa using kept
  have before : IsMember env (db src) x ↔ x ∈ e.data.members := by
    simp [IsMember, there, isSet]
  have left : x ∈ (e.data.srem m).2.members ↔ x ≠ m ∧ x ∈ e.data.members :=
    e.data.nodup.mem_erase_iff
  rw [before, ← left, removeMember]
  by_cases empty : (e.data.srem m).2.hcount = 0
  · have none : (e.data.srem m).2.members = [] := List.eq_nil_of_length_eq_zero empty
    simp [empty, none, IsMember, live]
  · simp [empty, IsMember, live, alive, isSet]

theorem mem_sadd (x : SetData) (arg y : Bytes) :
    y ∈ (x.sadd arg).members ↔ y = arg ∨ y ∈ x.members := by
  rw [SetData.sadd]
  split
  · rename_i present
    constructor
    · exact .inr
    · rintro (rfl | member)
      · exact present
      · exact member
  · simp [or_comm]

/-- The members of a destination with the member. -/
theorem isMember_addMember (forever : env.source.isExpired 0 = false)
    (entry : Option (Entry SetData)) (x : Bytes) :
    IsMember env (some (addMember m (live env.source entry))) x ↔
      x = m ∨ IsMember env entry x := by
  cases found : live env.source entry with
  | none =>
      have before : ¬IsMember env entry x := by simp [IsMember, found]
      simp only [before, or_false]
      simp [IsMember, addMember, live, forever, mem_sadd, SetData.empty]
  | some e =>
      have alive : env.source.isExpired e.exp = false := by
        have kept := (Option.filter_eq_some_iff.mp found).2
        simpa using kept
      have before : IsMember env entry x ↔ e.type = .set ∧ x ∈ e.data.members := by
        simp [IsMember, found]
      rw [before]
      by_cases isSet : e.type = .set
      · simp [IsMember, addMember, live, alive, isSet, mem_sadd]
      · simp [IsMember, addMember, live, alive, isSet, mem_sadd, SetData.empty]

/-- A member that is taken and added has moved. -/
theorem memberMoved_of_added (forever : env.source.isExpired 0 = false)
    (isArg : msg.getArgStr 3 = some m) (taken : SmoveTaken env m (db src) e)
    (table : s.db = Function.update (Function.update db src (removeMember e m)) dst
      (some (addMember m (live env.source (Function.update db src (removeMember e m) dst)))))
    (reply : s.out = line ":1") : MemberMoved env msg src dst db s := by
  obtain ⟨-, -, there, isSet, member⟩ := taken
  have isMember : IsMember env (db src) m := ⟨e, there, isSet, member⟩
  have between : ∀ h x, IsMember env (Function.update db src (removeMember e m) h) x ↔
      if h = src then x ≠ m ∧ IsMember env (db src) x else IsMember env (db h) x := by
    intro h x
    by_cases here : h = src
    · rw [here, Function.update_self, if_pos rfl, isMember_removeMember there isSet]
    · rw [Function.update_of_ne here, if_neg here]
  refine ⟨reply, m, isArg, isMember, fun h x => ?_, fun h noSource noDest => ?_⟩
  · rw [table]
    by_cases isDest : h = dst
    · rw [isDest, Function.update_self, isMember_addMember forever, between]
      by_cases same : x = m
      · simp [same]
      · by_cases isSource : dst = src
        · simp [same, isSource]
        · simp [same, isSource]
    · rw [Function.update_of_ne isDest, between]
      by_cases isSource : h = src
      · by_cases same : x = m
        · simp [same, isSource, isSource ▸ isDest]
        · simp [same, isSource]
      · simp [isSource, isDest]
  · rw [table, Function.update_of_ne noDest, Function.update_of_ne noSource]

/-- An error behind the loss of the member conserves nothing. -/
theorem not_smoveConserves_of_lost (isArg : msg.getArgStr 3 = some m)
    (taken : SmoveTaken env m (db src) e)
    (lost : ∀ e', s.db src = some e' → m ∉ e'.data.members) {status : ExecStatus}
    (reply : s.out = sendErrString arg0 status) : ¬SmoveConserves env msg arg0 src dst db s := by
  obtain ⟨-, -, there, isSet, member⟩ := taken
  have head := head_sendErrString arg0 status
  rw [← reply] at head
  rintro (⟨one, -⟩ | ⟨-, -, missing⟩ | ⟨same, -⟩)
  · rw [one] at head
    exact absurd head (by decide)
  · exact missing m isArg ⟨e, there, isSet, member⟩
  · have unchanged := same src
    rw [there] at unchanged
    exact lost e (eq_of_live unchanged) member

end Outcome

section Run

variable {env : SmoveEnv} {msg : CommandMsg} {arg0 : Bytes}
  {db : KeyHash → Option (Entry SetData)} {source dest : KeyCtx}

/-- The turn of the source. -/
theorem handler_smove_source {s : CommandRun SetData} (isSource : source.argn = 1) {m : Bytes}
    (isArg : msg.getArgStr 3 = some m) (entry : Option (Entry SetData)) :
    execSmove env msg s source entry = (doSwriteSource env m entry, none) := by
  have noDest : ¬(source.argn = 2 ∧ s.keyDone = 0) := by omega
  rw [execSmove, if_neg noDest, isArg]
  simp only [if_pos isSource]

/-- A message without a member is refused at the source. -/
theorem handler_smove_args {s : CommandRun SetData} (isSource : source.argn = 1)
    (noArg : msg.getArgStr 3 = none) (entry : Option (Entry SetData)) :
    execSmove env msg s source entry = (unfetched .errBadArgs entry, none) := by
  have noDest : ¬(source.argn = 2 ∧ s.keyDone = 0) := by omega
  rw [execSmove, if_neg noDest, noArg]

/-- The turn of the destination behind the source. -/
theorem handler_smove_dest {s : CommandRun SetData} (isDest : dest.argn = 2)
    (behind : s.keyDone ≠ 0) {m : Bytes} (isArg : msg.getArgStr 3 = some m)
    (entry : Option (Entry SetData)) :
    execSmove env msg s dest entry = (doSwriteDest env.dest m entry, none) := by
  have late : ¬(dest.argn = 2 ∧ s.keyDone = 0) := fun both => behind both.2
  have noSource : ¬dest.argn = 1 := by omega
  rw [execSmove, if_neg late, isArg]
  simp only [if_neg noSource]

/-- A command that ends with its source has changed nothing. -/
theorem run_source_ends {run : KeyRun SetData} (fuel : Nat)
    (handled : execSmove env msg { db := db, keys := [source, dest], out := [] } source
      (db source.hash) = (run, none))
    (noOut : run.out = []) (same : live env.source (run.settle .set) =
      live env.source (db source.hash))
    (ends : run.status.isError ∨ run.status = .execAbortSendZero ∧
      ∀ m, msg.getArgStr 3 = some m → ¬IsMember env (db source.hash) m) :
    ∃ s, runKeys (execSmove env msg) .set arg0 (fuel + 2) [0, 1]
        { db := db, keys := [source, dest], out := [] } = some s ∧
      SmoveConserves env msg arg0 source.hash dest.hash db s := by
  have stops : run.status ≠ .execDepends ∧
      ExecStatus.execBlocked.ctorIdx < run.status.ctorIdx := by
    rcases ends with error | ⟨zero, -⟩
    · exact stops_of_isError error
    · rw [zero]
      decide
  have turn := @turn_success _ (execSmove env msg) .set arg0
    { db := db, keys := [source, dest], out := [] } source run none 0 rfl handled stops.1
    (.inr stops.2)
  refine ⟨_, runKeys_success turn, .inr ?_⟩
  rcases ends with error | ⟨zero, missing⟩
  · refine .inr ⟨live_update same, run.status, error, ?_⟩
    simp only [noOut, List.nil_append, sendStatus_of_isError error]
  · refine .inl ⟨?_, live_update same, missing⟩
    simp only [noOut, zero]
    rfl

/-- The keys conserve the member under the condition only, when the source has its turn first. -/
theorem run_smove (forever : env.source.isExpired 0 = false) (isSource : source.argn = 1)
    (isDest : dest.argn = 2) (fuel : Nat) :
    ∃ s, runKeys (execSmove env msg) .set arg0 (fuel + 2) [0, 1]
        { db := db, keys := [source, dest], out := [] } = some s ∧
      (SmoveConserves env msg arg0 source.hash dest.hash db s ↔
        SmoveCondition env msg source.hash dest.hash db) := by
  cases isArg : msg.getArgStr 3 with
  | none =>
      have error : ExecStatus.errBadArgs.isError := rfl
      have handled := @handler_smove_args env msg source
        { db := db, keys := [source, dest], out := [] } isSource isArg (db source.hash)
      obtain ⟨s, ran, conserves⟩ := @run_source_ends env msg arg0 db source dest _ fuel handled rfl
        rfl (.inl error)
      refine ⟨s, ran, iff_of_true conserves fun m e given => ?_⟩
      rw [isArg] at given
      cases given
  | some m =>
      have handled := @handler_smove_source env msg source
        { db := db, keys := [source, dest], out := [] } isSource m isArg (db source.hash)
      by_cases taken : ∃ e, SmoveTaken env m (db source.hash) e
      · obtain ⟨e, taken⟩ := taken
        have only : SmoveCondition env msg source.hash dest.hash db ↔
            ((e.data.srem m).2.hcount = 0 → env.tombstoned) ∧
              SmoveTakes env (Function.update db source.hash (removeMember e m) dest.hash) := by
          refine ⟨fun all => all m e isArg taken, fun one m' e' isArg' taken' => ?_⟩
          obtain rfl := Option.some.inj (isArg.symm.trans isArg')
          obtain rfl := Option.some.inj (taken.2.2.1.symm.trans taken'.2.2.1)
          exact one
        rw [only]
        obtain ⟨noOut, _, outcome⟩ := doSwriteSource_taken taken
        have gone : m ∉ (e.data.srem m).2.members := fun member =>
          (e.data.nodup.mem_erase_iff.mp member).1 rfl
        by_cases kept : (e.data.srem m).2.hcount = 0 → env.tombstoned
        · rw [if_pos kept] at outcome
          have first := @turn_more _ (execSmove env msg) .set arg0
            { db := db, keys := [source, dest], out := [] } source _ none 0 rfl handled
            (by rw [outcome.1]; decide) (by simp) (by rw [outcome.1]; decide)
          rw [noOut, outcome.2] at first
          obtain ⟨s₁, isNext⟩ : ∃ s₁ : CommandRun SetData, s₁ =
              { db := Function.update db source.hash (removeMember e m)
                keys := [source.after (doSwriteSource env m (db source.hash)) none, dest]
                keyDone := 1
                out := [] } := ⟨_, rfl⟩
          have next : runKeys (execSmove env msg) .set arg0 (fuel + 2) [0, 1]
              { db := db, keys := [source, dest], out := [] } =
              runKeys (execSmove env msg) .set arg0 (fuel + 1) [1] s₁ := by
            rw [isNext]
            exact runKeys_more first
          have table : s₁.db = Function.update db source.hash (removeMember e m) := by rw [isNext]
          have behind := @handler_smove_dest env msg dest s₁ isDest
            (show s₁.keyDone ≠ 0 by rw [isNext]; exact Nat.one_ne_zero) m isArg (s₁.db dest.hash)
          have found : s₁.keys[1]? = some dest := by rw [isNext]; rfl
          have last : s₁.keyDone + 1 = s₁.keys.length := by rw [isNext]; rfl
          have noReply : s₁.out = [] := by rw [isNext]
          rw [next, and_iff_right kept, ← table]
          by_cases takes : SmoveTakes env (s₁.db dest.hash)
          · obtain ⟨one, noText, _, added⟩ := @doSwriteDest_takes env m _ takes
            have turn := @turn_success _ (execSmove env msg) .set arg0 s₁ dest _ none 1 found behind
              (by rw [one]; decide) (.inl last)
            rw [noText, one, added, noReply] at turn
            refine ⟨_, runKeys_success turn, iff_of_true (.inl ?_) takes⟩
            refine memberMoved_of_added forever isArg taken ?_ rfl
            rw [table]
          · -- The destination fails behind the loss of the member.
            obtain ⟨error, noText, nothingNew⟩ := @doSwriteDest_refused env m _ takes
            have stops := stops_of_isError error
            have turn := @turn_success _ (execSmove env msg) .set arg0 s₁ dest _ none 1 found behind
              stops.1 (.inl last)
            rw [noText, KeyRun.settle_of_isError error, sendStatus_of_isError error, noReply] at turn
            refine ⟨_, runKeys_success turn, iff_of_false ?_ takes⟩
            refine not_smoveConserves_of_lost isArg taken ?_ rfl
            have lost : ∀ e', s₁.db source.hash = some e' → m ∉ e'.data.members := by
              intro e' left
              rw [table, Function.update_self, removeMember] at left
              split at left
              · cases left
              · obtain rfl := Option.some.inj left
                exact gone
            intro e' left
            dsimp only at left
            by_cases here : source.hash = dest.hash
            · rw [here, Function.update_self] at left
              rcases nothingNew e' left with empty | old
              · rw [empty]
                simp [SetData.empty]
              · exact lost e' (by rw [here, old])
            · rw [Function.update_of_ne here] at left
              exact lost e' left
        · -- The empty source is not deleted, and the member is lost.
          rw [if_neg kept] at outcome
          have turn := @turn_success _ (execSmove env msg) .set arg0
            { db := db, keys := [source, dest], out := [] } source _ none 0 rfl handled
            (by rw [outcome.1]; decide) (.inr (by rw [outcome.1]; decide))
          rw [noOut, outcome.1, outcome.2] at turn
          refine ⟨_, runKeys_success turn, iff_of_false ?_ fun both => kept both.1⟩
          refine not_smoveConserves_of_lost isArg taken ?_
            (show _ = sendErrString arg0 .errKvStatus from rfl)
          intro e' left
          dsimp only at left
          rw [Function.update_self] at left
          obtain rfl := Option.some.inj left
          exact gone
      · rw [not_exists] at taken
        obtain ⟨noOut, same, ends⟩ := doSwriteSource_refused taken
        obtain ⟨s, ran, conserves⟩ := @run_source_ends env msg arg0 db source dest _ fuel handled
          noOut same (ends.imp id fun both => ⟨both.1, fun m' isArg' => by
            obtain rfl := Option.some.inj (isArg.symm.trans isArg')
            exact both.2⟩)
        refine ⟨s, ran, iff_of_true conserves fun m' e isArg' taken' => ?_⟩
        obtain rfl := Option.some.inj (isArg.symm.trans isArg')
        exact absurd taken' (taken e)

end Run

/-- SMOVE conserves the members under this condition only, in both orders of the keys. -/
theorem execSmove_exact (env : SmoveEnv) (msg : CommandMsg) (arg0 : Bytes)
    (db : KeyHash → Option (Entry SetData)) (src dst : KeyHash)
    (forever : env.source.isExpired 0 = false) {order : List Nat}
    (all : order.Perm (List.range 2)) :
    ∃ s, runKeys (execSmove env msg) .set arg0 4 order
        { db := db, keys := [{ argn := 1, hash := src }, { argn := 2, hash := dst }],
          out := [] } = some s ∧
      (SmoveConserves env msg arg0 src dst db s ↔ SmoveCondition env msg src dst db) := by
  rcases orders_of_two all with rfl | rfl
  · exact @run_smove env msg arg0 db { argn := 1, hash := src } { argn := 2, hash := dst } forever
      rfl rfl 2
  · have waits : execSmove env msg
        { db := db, keys := [{ argn := 1, hash := src }, { argn := 2, hash := dst }], out := [] }
        { argn := 2, hash := dst } (db dst) = (unfetched .execDepends (db dst), none) := rfl
    have turn := @turn_depends _ (execSmove env msg) .set arg0
      { db := db, keys := [{ argn := 1, hash := src }, { argn := 2, hash := dst }], out := [] }
      _ _ none 1 rfl waits rfl rfl
    obtain ⟨s, ran, conserves⟩ := @run_smove env msg arg0 db { argn := 1, hash := src }
      { argn := 2, hash := dst, dep := 1, status := .execDepends } forever rfl rfl 1
    refine ⟨s, (runKeys_depends turn).trans ?_, conserves⟩
    rw [← ran]
    simp [unfetched, KeyCtx.after]

/-- The set of one member. -/
def oneMember (m : Bytes) : Entry SetData :=
  ⟨.set, ⟨[m], List.nodup_singleton m⟩, 0⟩

/-- SMOVE of one member. -/
def smoveMsg (src dst : String) : CommandMsg :=
  ⟨commandWords ["smove", src, dst, "m"], by simp [commandWords]⟩

/-- SMOVE reads the member at its fourth word. -/
theorem smoveMsg_member (src dst : String) :
    (smoveMsg src dst).getArgStr 3 = some (text "m") := by
  have word : (smoveMsg src dst).args[(3 : Int).toNat]? = some (mkStr (text "m")) := rfl
  rw [CommandMsg.getArgStr, if_neg (by decide), word]
  decide

/-- A set that is its own destination keeps its member. -/
theorem execSmove_exact_same :
    ∃ s, runKeys (execSmove {} (smoveMsg "k" "k")) .set [] 4 [1, 0]
        { db := fun _ => some (oneMember (text "m"))
          keys := [{ argn := 1, hash := ⟨1, 0⟩ }, { argn := 2, hash := ⟨1, 0⟩ }]
          out := [] } = some s ∧
      SmoveConserves {} (smoveMsg "k" "k") [] ⟨1, 0⟩ ⟨1, 0⟩
        (fun _ => some (oneMember (text "m"))) s := by
  obtain ⟨s, ran, exact⟩ := @execSmove_exact {} (smoveMsg "k" "k") []
    (fun _ => some (oneMember (text "m"))) ⟨1, 0⟩ ⟨1, 0⟩ rfl [1, 0] (by decide)
  refine ⟨s, ran, exact.mpr fun m e isArg taken => ?_⟩
  obtain rfl := Option.some.inj ((smoveMsg_member "k" "k").symm.trans isArg)
  obtain rfl := Option.some.inj taken.2.2.1
  exact ⟨fun _ => rfl, rfl, by simp, rfl⟩

/-- The member of a source is lost where the table has no memory for the destination. -/
theorem not_execSmove_exact :
    ¬∃ s, runKeys (execSmove { destResized := false } (smoveMsg "a" "b")) .set [] 4 [0, 1]
        { db := fun h => if h = ⟨1, 0⟩ then some (oneMember (text "m")) else none
          keys := [{ argn := 1, hash := ⟨1, 0⟩ }, { argn := 2, hash := ⟨2, 0⟩ }]
          out := [] } = some s ∧
      SmoveConserves { destResized := false } (smoveMsg "a" "b") [] ⟨1, 0⟩ ⟨2, 0⟩
        (fun h => if h = ⟨1, 0⟩ then some (oneMember (text "m")) else none) s := by
  intro given
  obtain ⟨s, ran, conserves⟩ := given
  obtain ⟨s', ran', exact⟩ := @run_smove { destResized := false } (smoveMsg "a" "b") []
    (fun h => if h = ⟨1, 0⟩ then some (oneMember (text "m")) else none)
    { argn := 1, hash := ⟨1, 0⟩ } { argn := 2, hash := ⟨2, 0⟩ } rfl rfl rfl 2
  obtain rfl := Option.some.inj (ran.symm.trans ran')
  have takes := (exact.mp conserves (text "m") (oneMember (text "m"))
    (smoveMsg_member "a" "b") ⟨rfl, rfl, rfl, rfl, List.mem_singleton_self _⟩).2
  exact Bool.noConfusion takes.2.2

end Raids.Key
