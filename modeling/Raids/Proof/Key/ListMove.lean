import Raids.Construction.Key.ListMove
import Raids.Proof.Key.Add
import Raids.Proof.Key.Continue

namespace Raids.Key

open Decimal

/-- The source without its tail; a list without elements is no entry. -/
def removeTail (e : Entry ListData) : Option (Entry ListData) :=
  if e.data.dropLast = [] then none else some { e with data := e.data.dropLast }

/-- The destination with a value at its head. -/
def pushHead (value : Bytes) : Option (Entry ListData) → Entry ListData
  | none => ⟨.list, [value], 0⟩
  | some e =>
      if e.type = .list then { e with data := value :: e.data }
      else { e with type := .list, data := [value] }

section Move

variable (env : MoveEnv) (msg : CommandMsg) (arg0 : Bytes) (src dst : KeyHash)
  (db : KeyHash → Option (Entry ListData))

/-- The tail of the source is at the head of the destination, and it is the whole reply. -/
def Moved (s : CommandRun ListData) : Prop :=
  ∃ source value, live env.source (db src) = some source ∧ source.type = .list ∧
    source.data.getLast? = some value ∧
    s.db = Function.update (Function.update db src (removeTail source)) dst
      (some (pushHead value
        (live env.dest (Function.update db src (removeTail source) dst)))) ∧
    s.out = env.pending ++ sendConcatString value

/-- The table is unchanged, and the reply is a nil or an error, or the command is blocked. -/
def MoveRefused (s : CommandRun ListData) : Prop :=
  (∀ h, live env.source (s.db h) = live env.source (db h)) ∧
    ∃ reply, s.out = env.pending ++ reply ∧
      (reply = line "$-1" ∨ (∃ status, status.isError ∧ reply = sendErrString arg0 status) ∨
        (∀ key ∈ s.keys, key.status = .execBlocked) ∧ (reply = [] ∨ reply = line "*-1"))

/-- The elements are conserved when the command moves one or is refused. -/
def Conserves (s : CommandRun ListData) : Prop := Moved env src dst db s ∨ MoveRefused env arg0 db s

/-- The entry and the element that a pop takes from a source. -/
def poppedTail (entry : Option (Entry ListData)) : Option (Entry ListData × Bytes) :=
  if env.source.fetched ∧ env.source.valued then
    match live env.source entry with
    | some e => if e.type = .list then e.data.getLast?.map (e, ·) else none
    | none => none
  else none

/-- The destination is a list, or it is no value of any type and a new list finds its memory. -/
def DestTakes (entry : Option (Entry ListData)) : Prop :=
  env.dest.fetched ∧ (∀ grown ∈ env.dest.grow, grown = true) ∧
    match live env.dest entry with
    | some e =>
        e.type = .list ∧ env.dest.valued ∨ e.type = .noData ∧ sizedArgs msg ∧ env.dest.resized
    | none => sizedArgs msg ∧ env.dest.resized

/-- A pop has memory for its reply, takes an element that is not empty, finds no return in the
output in front of the reply, and leaves a destination that takes the element. -/
def MovesWhole : Prop :=
  ∀ source value, poppedTail env (db src) = some (source, value) →
    env.granted ∧ (source.data.length = 1 → env.tombstoned) ∧ value ≠ [] ∧
      (env.flushed ∨ cr ∉ env.out.drop 2) ∧
      DestTakes env msg (Function.update db src (removeTail source) dst)

end Move

section Pop

variable {env : MoveEnv}

/-- A list without its last element is empty only where that was the only one. -/
theorem dropLast_eq_nil {list : ListData} {value : Bytes} (last : list.getLast? = some value) :
    list.dropLast = [] ↔ list.length = 1 := by
  obtain ⟨before, rfl⟩ := List.getLast?_eq_some_iff.mp last
  simp

/-- A source without an element to pop stays as it is. -/
theorem doPop_refused {entry : Option (Entry ListData)} (nothing : poppedTail env entry = none) :
    (doPop env entry).out = [] ∧
      live env.source ((doPop env entry).settle .list) = live env.source entry ∧
      ((doPop env entry).status = .execAbortSendNil ∨ (doPop env entry).status.isError) := by
  have noSuccess : ExecStatus.execAbortSendNil.isSuccess = false := rfl
  have badType : ExecStatus.errBadType.isError := rfl
  have kvStatus : ExecStatus.errKvStatus.isError := rfl
  rw [doPop]
  by_cases fetched : env.source.fetched
  · rw [getKeyWrite_fetched fetched]
    cases found : live env.source entry with
    | none => simp [Fetched.stop, KeyRun.settle, live]
    | some e =>
        have stays : live env.source (some e) = some e := by rw [← found, live_live]
        by_cases isList : e.type = .list
        · by_cases valued : env.source.valued
          · have empty : e.data.getLast? = none := by
              simpa [poppedTail, fetched, valued, found, isList] using nothing
            simp [isList, valued, empty, Fetched.stop, KeyRun.settle, stays]
          · simp [isList, valued, Fetched.stop, KeyRun.settle, stays, kvStatus]
        · by_cases untyped : e.type = .noData
          · simp [untyped, Fetched.stop, KeyRun.settle, stays, noSuccess]
          · simp [isList, untyped, Fetched.stop, KeyRun.settle, stays, badType]
  · simp [getKeyWrite, execKeyFetch, fetched, Fetched.stop, KeyRun.settle, kvStatus]

/-- A pop finds a list with the element at its tail. -/
theorem live_of_popped {entry : Option (Entry ListData)} {source : Entry ListData} {value : Bytes}
    (popped : poppedTail env entry = some (source, value)) :
    live env.source entry = some source ∧ source.type = .list ∧
      source.data.getLast? = some value := by
  rw [poppedTail] at popped
  split at popped
  · cases found : live env.source entry with
    | none => simp [found] at popped
    | some e =>
        by_cases isList : e.type = .list
        · simp only [found, isList, if_true, Option.map_eq_some_iff, Prod.mk.injEq] at popped
          obtain ⟨lv, last, rfl, rfl⟩ := popped
          exact ⟨rfl, isList, last⟩
        · simp [found, isList] at popped
  · cases popped

theorem length_dropLast_lt {list : ListData} {value : Bytes} (last : list.getLast? = some value) :
    list.dropLast.length < list.length := by
  obtain ⟨before, rfl⟩ := List.getLast?_eq_some_iff.mp last
  simp

/-- A source without its tail has fewer elements. -/
theorem length_removeTail_lt {source e : Entry ListData} {value : Bytes}
    (last : source.data.getLast? = some value) (left : removeTail source = some e) :
    e.data.length < source.data.length := by
  rw [removeTail] at left
  split at left
  · cases left
  · obtain rfl := Option.some.inj left
    exact length_dropLast_lt last

/-- A pop takes the tail, and its reply is the tail. -/
theorem doPop_popped {entry : Option (Entry ListData)} {source : Entry ListData} {value : Bytes}
    (popped : poppedTail env entry = some (source, value)) :
    (doPop env entry).out = (if env.granted then sendConcatString value else []) ∧
      if source.data.length = 1 → env.tombstoned then
        (doPop env entry).status = .execOk ∧
          (doPop env entry).settle .list = removeTail source
      else (doPop env entry).status = .errKvStatus ∧
        ∀ e, (doPop env entry).settle .list = some e → e.data.length < source.data.length := by
  rw [poppedTail] at popped
  split at popped
  · rename_i reads
    cases found : live env.source entry with
    | none => simp [found] at popped
    | some e =>
        by_cases isList : e.type = .list
        · simp only [found, isList, if_true, Option.map_eq_some_iff, Prod.mk.injEq] at popped
          obtain ⟨lv, last, rfl, rfl⟩ := popped
          have only := dropLast_eq_nil last
          rw [doPop, getKeyWrite_fetched reads.1]
          simp only [found, isList, if_true, reads.2, last]
          by_cases single : e.data.length = 1
          · by_cases tombstoned : env.tombstoned
            · simp [only.mpr single, tombstoned, Fetched.stop, KeyRun.settle, removeTail, single]
            · simp [only.mpr single, tombstoned, Fetched.stop, KeyRun.settle, single]
          · have more : e.data.dropLast ≠ [] := fun empty => single (only.mp empty)
            simp [more, single, Fetched.stop, KeyRun.settle, removeTail, isList]
        · simp [found, isList] at popped
  · cases popped

end Pop

section Value

/-- The header of a reply has no return. -/
theorem cr_not_mem_header (n : Nat) : cr ∉ StringType.char .bulkString :: uint64ToString n := by
  intro member
  rcases List.mem_cons.mp member with isType | isDigit
  · exact absurd isType (by decide)
  · have bounds := isDigit_iff.mp (isDigit_of_mem_decimal _ _ isDigit)
    exact absurd bounds (by decide)

/-- Without a return in front the loop finds the value behind the header. -/
theorem replyValue_header {front : Bytes} (noReturn : cr ∉ front) (value : Bytes) :
    replyValue (front ++ cr :: lf :: (value ++ crlf)) =
      if value = [] then none else some value := by
  induction front with
  | nil =>
      cases value with
      | nil => simp [replyValue, crlf]
      | cons c value => simp [replyValue, crlf]
  | cons c front ih =>
      rw [List.mem_cons, not_or] at noReturn
      rw [List.cons_append, replyValue, if_neg (by simp [crlf]; omega),
        if_neg (Ne.symm noReturn.1), ih noReturn.2]

/-- With a return in front the loop takes more than the value. -/
theorem replyValue_longer {front : Bytes} (hasReturn : cr ∈ front) (value : Bytes) :
    ∃ longer, replyValue (front ++ cr :: lf :: (value ++ crlf)) = some longer ∧
      value.length < longer.length := by
  induction front with
  | nil => cases hasReturn
  | cons c front ih =>
      rw [List.cons_append, replyValue, if_neg (by simp [crlf]; omega)]
      by_cases isReturn : c = cr
      · rw [if_pos isReturn]
        refine ⟨_, rfl, ?_⟩
        simp [crlf]
        omega
      · rw [if_neg isReturn]
        rcases List.mem_cons.mp hasReturn with here | later
        · exact absurd here.symm isReturn
        · exact ih later

/-- The reply of a pop is its header, the value and a line end. -/
theorem sendConcatString_eq (value : Bytes) :
    sendConcatString value = (StringType.char .bulkString :: uint64ToString value.length) ++
      cr :: lf :: (value ++ crlf) := by
  simp [sendConcatString, crlf]

/-- The bytes of the buffer in front of the reply. -/
def MoveEnv.front (env : MoveEnv) : Bytes := if env.flushed then [] else env.out

variable (env : MoveEnv) (value : Bytes)

/-- The loop starts behind two bytes, which are in front of the return of the header. -/
theorem buffer_eq : ((env.pending ++ sendConcatString value).drop env.outBuf).drop 2 =
    (env.front ++ StringType.char .bulkString :: uint64ToString value.length).drop 2 ++
      cr :: lf :: (value ++ crlf) := by
  have front : (env.pending ++ sendConcatString value).drop env.outBuf =
      env.front ++ sendConcatString value := by
    rw [MoveEnv.outBuf, MoveEnv.front]
    split
    · simp
    · rw [MoveEnv.pending, List.append_assoc]
      simp
  have digits := List.length_pos_of_ne_nil (decimal_ne_nil value.length)
  rw [front, sendConcatString_eq, ← List.append_assoc, List.drop_append_of_le_length]
  rw [List.length_append, List.length_cons, uint64ToString]
  omega

/-- Only the bytes in front of the header can hold a return. -/
theorem return_in_front :
    cr ∈ (env.front ++ StringType.char .bulkString :: uint64ToString value.length).drop 2 ↔
      cr ∈ env.front.drop 2 := by
  have header := cr_not_mem_header value.length
  rw [List.drop_append, List.mem_append]
  exact or_iff_left fun member => header (List.mem_of_mem_drop member)

theorem replyValue_clean (clean : env.flushed ∨ cr ∉ env.out.drop 2) :
    replyValue (((env.pending ++ sendConcatString value).drop env.outBuf).drop 2) =
      if value = [] then none else some value := by
  have noReturn : cr ∉ env.front.drop 2 := by
    rw [MoveEnv.front]
    split
    · simp
    · exact clean.resolve_left (by assumption)
  rw [buffer_eq, replyValue_header (fun member => noReturn ((return_in_front env value).mp member))]

theorem replyValue_dirty (dirty : ¬(env.flushed ∨ cr ∉ env.out.drop 2)) :
    ∃ longer,
      replyValue (((env.pending ++ sendConcatString value).drop env.outBuf).drop 2) =
        some longer ∧ value.length < longer.length := by
  obtain ⟨stays, hasReturn⟩ := not_or.mp dirty
  have inFront : cr ∈ env.front.drop 2 := by
    rw [MoveEnv.front, if_neg stays]
    exact not_not.mp hasReturn
  rw [buffer_eq]
  exact replyValue_longer ((return_in_front env value).mpr inFront) value

end Value

section Push

variable {env : KeyEnv} {msg : CommandMsg}

/-- The head of a destination tells which value was pushed. -/
theorem pushHead_injective {first second : Bytes} {entry : Option (Entry ListData)}
    (same : pushHead first entry = pushHead second entry) : first = second := by
  cases entry with
  | none => simpa [pushHead] using same
  | some e =>
      simp only [pushHead] at same
      split at same <;> simpa using same

/-- A list that can grow takes the value. -/
theorem lpushLoop_grows {grow : List Bool} (grows : ∀ grown ∈ grow, grown = true) (value : Bytes)
    (run : KeyRun ListData) (e : Entry ListData) :
    lpushLoop value run e grow =
      { run with status := .execOk, entry := some { e with data := value :: e.data } } := by
  induction grow with
  | nil => rfl
  | cons grown grow ih =>
      obtain rfl := grows grown (by simp)
      exact ih fun other member => grows other (by simp [member])

/-- A list that cannot grow stays as it is. -/
theorem lpushLoop_full {grow : List Bool} (full : ¬∀ grown ∈ grow, grown = true) (value : Bytes)
    (run : KeyRun ListData) (e : Entry ListData) :
    lpushLoop value run e grow = { run with status := .errKvStatus, entry := some e } := by
  induction grow with
  | nil => simp at full
  | cons grown grow ih =>
      cases grown with
      | false => rfl
      | true => exact ih (by simpa using full)

end Push

section Dest

variable {env : MoveEnv} {msg : CommandMsg} {entry : Option (Entry ListData)}

/-- A destination that takes a value has it at its head. -/
theorem doPush_takes (takes : DestTakes env msg entry) (value : Bytes) :
    (doPush env.dest msg value entry).status = .execOk ∧
      (doPush env.dest msg value entry).out = [] ∧
      (doPush env.dest msg value entry).settle .list =
        some (pushHead value (live env.dest entry)) := by
  obtain ⟨fetched, grows, kind⟩ := takes
  have success : ExecStatus.execOk.isSuccess := rfl
  rw [doPush, getKeyWrite_fetched fetched]
  cases found : live env.dest entry with
  | none =>
      rw [found] at kind
      simp [kind.1, kind.2, lpushLoop_grows grows, Fetched.stop, KeyRun.settle, pushHead,
        Entry.write, success]
  | some e =>
      rw [found] at kind
      rcases kind with ⟨isList, valued⟩ | ⟨untyped, sized, resized⟩
      · simp [isList, valued, lpushLoop_grows grows, Fetched.stop, KeyRun.settle, pushHead]
      · simp [untyped, sized, resized, lpushLoop_grows grows, Fetched.stop, KeyRun.settle,
          pushHead, Entry.write, success]

/-- Another destination is an error, and it holds nothing new. -/
theorem doPush_refused (refuses : ¬DestTakes env msg entry) (value : Bytes) :
    (doPush env.dest msg value entry).status.isError ∧
      (doPush env.dest msg value entry).out = [] ∧
      ∀ e, (doPush env.dest msg value entry).entry = some e → e.data = [] ∨ entry = some e := by
  have kvStatus : ExecStatus.errKvStatus.isError := rfl
  have badType : ExecStatus.errBadType.isError := rfl
  have badArgs : ExecStatus.errBadArgs.isError := rfl
  rw [doPush]
  by_cases fetched : env.dest.fetched
  · rw [getKeyWrite_fetched fetched]
    rw [DestTakes, and_iff_right fetched] at refuses
    cases found : live env.dest entry with
    | none =>
        rw [found] at refuses
        by_cases sized : sizedArgs msg
        · by_cases resized : env.dest.resized
          · have full : ¬∀ grown ∈ env.dest.grow, grown = true :=
              fun grows => refuses ⟨grows, sized, resized⟩
            simp [sized, resized, lpushLoop_full full, Fetched.stop, Entry.write, kvStatus]
          · simp [sized, resized, Fetched.stop, kvStatus]
        · simp [sized, Fetched.stop, badArgs]
    | some e =>
        rw [found] at refuses
        have there := eq_of_live found
        by_cases isList : e.type = .list
        · by_cases valued : env.dest.valued
          · have full : ¬∀ grown ∈ env.dest.grow, grown = true :=
              fun grows => refuses ⟨grows, .inl ⟨isList, valued⟩⟩
            simp [isList, valued, lpushLoop_full full, Fetched.stop, kvStatus, there]
          · simp [isList, valued, Fetched.stop, kvStatus, there]
        · by_cases untyped : e.type = .noData
          · by_cases sized : sizedArgs msg
            · by_cases resized : env.dest.resized
              · have full : ¬∀ grown ∈ env.dest.grow, grown = true :=
                  fun grows => refuses ⟨grows, .inr ⟨untyped, sized, resized⟩⟩
                simp [untyped, sized, resized, lpushLoop_full full, Fetched.stop, Entry.write,
                  kvStatus]
              · simp [untyped, sized, resized, Fetched.stop, kvStatus, there]
            · simp [untyped, sized, Fetched.stop, badArgs, there]
          · simp [isList, untyped, Fetched.stop, badType, there]
  · simp only [getKeyWrite, execKeyFetch, fetched, if_false, Bool.false_eq_true, Fetched.stop,
      reduceCtorEq, false_and, kvStatus, true_and]
    exact fun e there => Or.inr there

end Dest

section Handler

variable {env : MoveEnv} {msg : CommandMsg} (cmd : MoveCmd) {s : CommandRun ListData}
  {ctx : KeyCtx}

/-- The turn of the source; without an element the second command is blocked. -/
def MoveCmd.sourceRun (env : MoveEnv) (entry : Option (Entry ListData)) : KeyRun ListData :=
  match cmd with
  | .rpoplpush => doPop env entry
  | .brpoplpush timeout =>
      if (doPop env entry).status = .execAbortSendNil then
        { doPop env entry with status := .execBlocked, ival := timeout }
      else doPop env entry

theorem handler_source (isSource : ctx.argn = 1) (entry : Option (Entry ListData)) :
    cmd.handler env msg s ctx entry = (cmd.sourceRun env entry, none) := by
  cases cmd with
  | rpoplpush => simp [MoveCmd.handler, execRpoplpush, isSource, MoveCmd.sourceRun]
  | brpoplpush timeout =>
      simp only [MoveCmd.handler, execBrpoplpush, isSource, if_true, MoveCmd.sourceRun]
      split <;> rfl

/-- The destination waits for the source. -/
theorem handler_waits (isDest : ctx.argn = 2) (early : s.keys.length ≠ s.keyDone + 1)
    (entry : Option (Entry ListData)) :
    cmd.handler env msg s ctx entry = (unfetched .execDepends entry, none) := by
  cases cmd <;> simp [MoveCmd.handler, execRpoplpush, execBrpoplpush, isDest, early]

/-- Behind the source the destination takes the value from the output. -/
theorem handler_dest (isDest : ctx.argn = 2) (last : s.keys.length = s.keyDone + 1)
    {key : KeyCtx} (first : s.keys[0]? = some key) (popped : key.status ≠ .execBlocked)
    (entry : Option (Entry ListData)) :
    cmd.handler env msg s ctx entry =
      match replyValue ((s.out.drop env.outBuf).drop 2) with
      | some value => (doPush env.dest msg value entry, none)
      | none => (unfetched .execAbortSendNil entry, none) := by
  have noSource : ¬ctx.argn = 1 := by omega
  cases taken : replyValue ((s.out.drop env.outBuf).drop 2) with
  | none =>
      cases cmd with
      | rpoplpush =>
          simp only [MoveCmd.handler, execRpoplpush, if_neg noSource, if_neg (not_not.mpr last),
            taken]
      | brpoplpush timeout =>
          simp only [MoveCmd.handler, execBrpoplpush, execRpoplpush, if_neg noSource,
            if_neg (not_not.mpr last), first, if_neg popped, taken]
  | some value =>
      cases cmd with
      | rpoplpush =>
          simp only [MoveCmd.handler, execRpoplpush, if_neg noSource, if_neg (not_not.mpr last),
            taken]
      | brpoplpush timeout =>
          simp only [MoveCmd.handler, execBrpoplpush, execRpoplpush, if_neg noSource,
            if_neg (not_not.mpr last), first, if_neg popped, taken]

/-- Behind a blocked source the destination is blocked. -/
theorem handler_blocked (timeout : Int) (isDest : ctx.argn = 2)
    (last : s.keys.length = s.keyDone + 1) {key : KeyCtx} (first : s.keys[0]? = some key)
    (blocked : key.status = .execBlocked) (entry : Option (Entry ListData)) :
    (MoveCmd.brpoplpush timeout).handler env msg s ctx entry =
      ({ unfetched .execBlocked entry with ival := key.ival }, none) := by
  have noSource : ¬ctx.argn = 1 := by omega
  rw [MoveCmd.handler, execBrpoplpush, if_neg noSource, if_neg (not_not.mpr last), first]
  dsimp only
  rw [if_pos blocked]

end Handler

section Run

variable (env : MoveEnv) (cmd : MoveCmd) (msg : CommandMsg) (arg0 : Bytes) (timedOut : Bool)
  {db : KeyHash → Option (Entry ListData)} {source dest : KeyCtx}

/-- A command whose last key is not blocked ends as it is. -/
theorem endBlocked_of_ne {s : CommandRun ListData}
    (last : s.keys.getLast?.map KeyCtx.status ≠ some .execBlocked) :
    s.endBlocked arg0 timedOut = s := by
  rw [CommandRun.endBlocked, if_neg]
  exact fun blocked => last blocked.2

/-- A turn with one reply refuses the command. -/
theorem moveRefused_of_reply {s : CommandRun ListData} {status : ExecStatus} {ival : Int}
    (refuses : status = .execAbortSendNil ∨ status.isError)
    (same : ∀ h, live env.source (s.db h) = live env.source (db h))
    (reply : s.out = env.pending ++ sendStatus arg0 ival status) :
    MoveRefused env arg0 db s := by
  refine ⟨same, _, reply, ?_⟩
  rcases refuses with rfl | error
  · exact .inl rfl
  · exact .inr (.inl ⟨status, error, sendStatus_of_isError error arg0 ival⟩)

/-- A nil and an error end the command. -/
theorem stops_of_refuses {status : ExecStatus}
    (refuses : status = .execAbortSendNil ∨ status.isError) :
    status ≠ .execDepends ∧ ExecStatus.execBlocked.ctorIdx < status.ctorIdx := by
  rcases refuses with rfl | error
  · decide
  · exact stops_of_isError error

/-- A command whose keys are blocked waits, or ends with a null. -/
theorem moveRefused_of_blocked {s : CommandRun ListData}
    (same : ∀ h, live env.source (s.db h) = live env.source (db h))
    (blocked : ∀ key ∈ s.keys, key.status = .execBlocked) (out : s.out = env.pending) :
    MoveRefused env arg0 db (s.endBlocked arg0 timedOut) := by
  rw [CommandRun.endBlocked]
  split
  · exact ⟨same, line "*-1", by rw [out]; rfl, .inr (.inr ⟨blocked, .inr rfl⟩)⟩
  · exact ⟨same, [], by rw [out, List.append_nil], .inr (.inr ⟨blocked, .inl rfl⟩)⟩

/-- A source without an element is refused, whatever the destination is. -/
theorem run_refused (isSource : source.argn = 1) (isDest : dest.argn = 2)
    (fresh : dest.status ≠ .execBlocked) (nothing : poppedTail env (db source.hash) = none)
    (fuel : Nat) :
    ∃ s, runKeys (cmd.handler env msg) .list arg0 (fuel + 2) [0, 1]
        { db := db, keys := [source, dest], out := env.pending } = some s ∧
      MoveRefused env arg0 db (s.endBlocked arg0 timedOut) := by
  obtain ⟨noOut, same, refuses⟩ := doPop_refused nothing
  have handled := @handler_source env msg cmd
    { db := db, keys := [source, dest], out := env.pending } source isSource (db source.hash)
  -- The first key ends the command unless it is blocked.
  have ends : cmd.sourceRun env (db source.hash) = doPop env (db source.hash) →
      ∃ s, runKeys (cmd.handler env msg) .list arg0 (fuel + 2) [0, 1]
          { db := db, keys := [source, dest], out := env.pending } = some s ∧
        MoveRefused env arg0 db (s.endBlocked arg0 timedOut) := by
    intro isPop
    rw [isPop] at handled
    have aborts := stops_of_refuses refuses
    have turn := @turn_success _ (cmd.handler env msg) .list arg0
      { db := db, keys := [source, dest], out := env.pending } source _ none 0 rfl handled
      aborts.1 (.inr aborts.2)
    refine ⟨_, runKeys_success turn, ?_⟩
    rw [endBlocked_of_ne arg0 timedOut (by simpa using fresh)]
    apply moveRefused_of_reply env arg0 refuses (live_update same)
    simp only [noOut, List.append_nil]
    rfl
  cases cmd with
  | rpoplpush => exact ends rfl
  | brpoplpush timeout =>
      by_cases nil : (doPop env (db source.hash)).status = .execAbortSendNil
      · rw [MoveCmd.sourceRun, if_pos nil] at handled
        obtain ⟨run, isRun⟩ : ∃ run : KeyRun ListData, run =
            { doPop env (db source.hash) with status := .execBlocked, ival := timeout } := ⟨_, rfl⟩
        rw [← isRun] at handled
        have blocked : run.status = .execBlocked := by rw [isRun]
        have noReply : run.out = [] := by rw [isRun, ← noOut]
        have keeps : run.settle .list = (doPop env (db source.hash)).settle .list := by
          rw [KeyRun.settle_of_fails (by rw [blocked]; rfl),
            KeyRun.settle_of_fails (by rw [nil]; rfl), isRun]
        have first := @turn_more _ ((MoveCmd.brpoplpush timeout).handler env msg) .list arg0
          { db := db, keys := [source, dest], out := env.pending } source run none 0 rfl handled
          (by rw [blocked]; decide) (by simp) (by rw [blocked])
        rw [keeps, noReply] at first
        -- The destination is blocked behind its source.
        have behind := @handler_blocked env msg
          { db := Function.update db source.hash ((doPop env (db source.hash)).settle .list)
            keys := [source.after run none, dest], keyDone := 1, out := env.pending ++ [] }
          dest timeout isDest rfl _ rfl blocked
        have second := @turn_success _ ((MoveCmd.brpoplpush timeout).handler env msg) .list arg0
          _ dest _ none 1 (by rfl) (behind _)
          (show ExecStatus.execBlocked ≠ .execDepends by decide) (.inl (by rfl))
        refine ⟨_, (runKeys_more first).trans (runKeys_success second), ?_⟩
        have dbSame : ∀ h, live env.source (Function.update
            (Function.update db source.hash ((doPop env (db source.hash)).settle .list)) dest.hash
            (Function.update db source.hash ((doPop env (db source.hash)).settle .list) dest.hash)
            h) = live env.source (db h) := by
          intro h
          rw [Function.update_eq_self]
          exact live_update same h
        have bothBlocked : ∀ key ∈ [source.after run none,
            dest.after ({ unfetched .execBlocked (Function.update db source.hash
              ((doPop env (db source.hash)).settle .list) dest.hash) with
              ival := (source.after run none).ival } : KeyRun ListData) none],
            key.status = .execBlocked := by
          intro key member
          rcases List.mem_pair.mp member with rfl | rfl
          · exact blocked
          · rfl
        apply moveRefused_of_blocked env arg0 timedOut
        · exact dbSame
        · exact bothBlocked
        · simp [unfetched, sendStatus]
      · exact ends (by rw [MoveCmd.sourceRun, if_neg nil])

/-- The second byte of a popped value is a digit, so the reply is no failure. -/
theorem sendConcatString_ne (value rest : Bytes) :
    sendConcatString value ++ rest ≠ line "$-1" ∧ sendConcatString value ++ rest ≠ line "*-1" ∧
      ∀ status, sendConcatString value ++ rest ≠ sendErrString arg0 status := by
  obtain ⟨digit, digits, isDecimal⟩ : ∃ digit digits, uint64ToString value.length =
      digit :: digits := List.exists_cons_of_ne_nil (decimal_ne_nil value.length)
  have isDigit : IsDigit digit :=
    isDigit_of_mem_decimal value.length digit (by
      rw [uint64ToString] at isDecimal
      rw [isDecimal]
      exact List.mem_cons_self)
  have head : (sendConcatString value ++ rest).head? = some 36 := rfl
  refine ⟨?_, ?_, ?_⟩
  · intro same
    have second : (sendConcatString value ++ rest)[1]? = some digit := by
      rw [sendConcatString, isDecimal]
      rfl
    have dash : (line "$-1")[1]? = some 45 := rfl
    rw [same, dash, Option.some.injEq] at second
    rw [← second] at isDigit
    exact absurd isDigit (by decide)
  · intro same
    have star : (line "*-1").head? = some 42 := rfl
    rw [same, star] at head
    exact absurd head (by decide)
  · intro status same
    rw [same, head_sendErrString] at head
    exact absurd head (by decide)

theorem not_moveRefused_of_value {s : CommandRun ListData} {value rest : Bytes}
    (reply : s.out = env.pending ++ (sendConcatString value ++ rest)) :
    ¬MoveRefused env arg0 db s := by
  rintro ⟨-, failure, out, isFailure⟩
  have same : sendConcatString value ++ rest = failure :=
    List.append_cancel_left (reply.symm.trans out)
  obtain ⟨noNil, noNull, noError⟩ := sendConcatString_ne arg0 value rest
  rcases isFailure with isNil | ⟨status, -, isError⟩ | ⟨-, isEmpty | isNull⟩
  · exact noNil (same.trans isNil)
  · exact noError status (same.trans isError)
  · rw [isEmpty] at same
    simp [sendConcatString] at same
  · exact noNull (same.trans isNull)

/-- A move replies the tail of the source and nothing else. -/
theorem not_moved_of_reply {s : CommandRun ListData} {e : Entry ListData} {value : Bytes}
    (there : live env.source (db source.hash) = some e) (last : e.data.getLast? = some value)
    (other : s.out ≠ env.pending ++ sendConcatString value) :
    ¬Moved env source.hash dest.hash db s := by
  rintro ⟨e', value', there', -, last', -, reply⟩
  obtain rfl := Option.some.inj (there.symm.trans there')
  obtain rfl := Option.some.inj (last.symm.trans last')
  exact other reply

/-- A popped source has changed, so the command is not refused. -/
theorem not_moveRefused_of_popped {s : CommandRun ListData} {e : Entry ListData}
    (there : live env.source (db source.hash) = some e)
    (shorter : ∀ e', s.db source.hash = some e' → e'.data.length < e.data.length) :
    ¬MoveRefused env arg0 db s := by
  rintro ⟨same, -⟩
  have unchanged := same source.hash
  rw [there] at unchanged
  exact absurd (shorter e (eq_of_live unchanged)) (by omega)

/-- A popped element is lost where a nil or an error follows it. -/
theorem not_conserves_of_failure {s : CommandRun ListData} {e : Entry ListData}
    {value rest : Bytes} (there : live env.source (db source.hash) = some e)
    (last : e.data.getLast? = some value)
    (out : s.out = env.pending ++ (if env.granted then sendConcatString value else []) ++ rest)
    (failure : rest = line "$-1" ∨ ∃ status, rest = sendErrString arg0 status)
    (shorter : ∀ e', s.db source.hash = some e' → e'.data.length < e.data.length) :
    ¬Conserves env arg0 source.hash dest.hash db s := by
  obtain ⟨noNil, -, noError⟩ := sendConcatString_ne arg0 value []
  rw [List.append_nil] at noNil noError
  have notEmpty : rest ≠ [] := by
    rintro rfl
    rcases failure with isNil | ⟨status, isError⟩
    · exact absurd (congrArg List.head? isNil) (by decide)
    · have heads := congrArg List.head? isError
      rw [head_sendErrString] at heads
      cases heads
  have notValue : rest ≠ sendConcatString value := by
    rintro rfl
    rcases failure with isNil | ⟨status, isError⟩
    · exact noNil isNil
    · exact noError status isError
  rintro (moved | refused)
  · refine not_moved_of_reply env there last ?_ moved
    intro same
    rw [same] at out
    split at out
    · rw [List.self_eq_append_right] at out
      exact notEmpty out
    · rw [List.append_nil] at out
      exact notValue (List.append_cancel_left out).symm
  · exact not_moveRefused_of_popped env arg0 there shorter refused

/-- The turn of the destination behind a popped source is the last one. -/
theorem run_dest (isDest : dest.argn = 2) {s : CommandRun ListData} (keys : s.keys = [source, dest])
    (done : s.keyDone = 1) (popped : source.status = .execOk) {run : KeyRun ListData}
    (handled : cmd.handler env msg s dest (s.db dest.hash) = (run, none))
    (last : run.status ≠ .execDepends ∧ run.status ≠ .execBlocked) (fuel : Nat) :
    ∃ s' ival, runKeys (cmd.handler env msg) .list arg0 (fuel + 1) [1] s = some s' ∧
      s'.endBlocked arg0 timedOut = s' ∧
      s'.db = Function.update s.db dest.hash (run.settle .list) ∧
      s'.out = s.out ++ run.out ++ sendStatus arg0 ival run.status ∧
      ¬∀ key ∈ s'.keys, key.status = .execBlocked := by
  have found : s.keys[1]? = some dest := by rw [keys]; rfl
  have turn := @turn_success _ (cmd.handler env msg) .list arg0 s dest run none 1 found handled
    last.1 (.inl (by rw [done, keys]; rfl))
  refine ⟨_, _, runKeys_success turn, ?_, rfl, rfl, ?_⟩
  · apply endBlocked_of_ne
    rw [keys]
    simpa [KeyCtx.after] using last.2
  · intro blocked
    have first := blocked source (by simp [keys])
    rw [popped] at first
    cases first

/-- A popped element is conserved under these conditions only. -/
theorem run_popped (isSource : source.argn = 1) (isDest : dest.argn = 2)
    (fresh : dest.status ≠ .execBlocked) {e : Entry ListData} {value : Bytes}
    (popped : poppedTail env (db source.hash) = some (e, value)) (fuel : Nat) :
    ∃ s, runKeys (cmd.handler env msg) .list arg0 (fuel + 2) [0, 1]
        { db := db, keys := [source, dest], out := env.pending } = some s ∧
      (Conserves env arg0 source.hash dest.hash db (s.endBlocked arg0 timedOut) ↔
        env.granted ∧ (e.data.length = 1 → env.tombstoned) ∧ value ≠ [] ∧
          (env.flushed ∨ cr ∉ env.out.drop 2) ∧
          DestTakes env msg (Function.update db source.hash (removeTail e) dest.hash)) := by
  obtain ⟨there, isList, isLast⟩ := live_of_popped popped
  obtain ⟨sent, outcome⟩ := doPop_popped popped
  have handled := @handler_source env msg cmd
    { db := db, keys := [source, dest], out := env.pending } source isSource (db source.hash)
  have isPop : cmd.sourceRun env (db source.hash) = doPop env (db source.hash) := by
    cases cmd with
    | rpoplpush => rfl
    | brpoplpush timeout =>
        rw [MoveCmd.sourceRun, if_neg]
        split at outcome
        · rw [outcome.1]
          decide
        · rw [outcome.1]
          decide
  rw [isPop] at handled
  by_cases kept : e.data.length = 1 → env.tombstoned
  · rw [if_pos kept] at outcome
    obtain ⟨ok, removed⟩ := outcome
    have first := @turn_more _ (cmd.handler env msg) .list arg0
      { db := db, keys := [source, dest], out := env.pending } source _ none 0 rfl handled
      (by rw [ok]; decide) (by simp) (by rw [ok]; decide)
    rw [removed, sent] at first
    obtain ⟨s₁, isNext⟩ : ∃ s₁ : CommandRun ListData, s₁ =
        { db := Function.update db source.hash (removeTail e)
          keys := [source.after (doPop env (db source.hash)) none, dest]
          keyDone := 1
          out := env.pending ++ if env.granted then sendConcatString value else [] } := ⟨_, rfl⟩
    have next : runKeys (cmd.handler env msg) .list arg0 (fuel + 2) [0, 1]
        { db := db, keys := [source, dest], out := env.pending } =
        runKeys (cmd.handler env msg) .list arg0 (fuel + 1) [1] s₁ := by
      rw [isNext]
      exact runKeys_more first
    rw [next]
    have behind := @handler_dest env msg cmd s₁ dest isDest (by rw [isNext]; rfl)
      (source.after (doPop env (db source.hash)) none) (by rw [isNext]; rfl)
      (show (doPop env (db source.hash)).status ≠ .execBlocked by rw [ok]; decide) (s₁.db dest.hash)
    have lastTurn := fun run handled last => @run_dest env cmd msg arg0 timedOut
      (source.after (doPop env (db source.hash)) none) dest isDest s₁ (by rw [isNext])
      (by rw [isNext]) ok run handled last fuel
    have table : s₁.db = Function.update db source.hash (removeTail e) := by rw [isNext]
    have reply : s₁.out = env.pending ++ if env.granted then sendConcatString value else [] := by
      rw [isNext]
    have shorter : ∀ e', s₁.db source.hash = some e' → e'.data.length < e.data.length := by
      intro e' left
      rw [table, Function.update_self] at left
      exact length_removeTail_lt isLast left
    have longEnough : 0 < e.data.length := by
      have less := length_dropLast_lt isLast
      omega
    -- The destination finds no value behind the header and sends a nil.
    have noValue : replyValue ((s₁.out.drop env.outBuf).drop 2) = none →
        ∃ s, runKeys (cmd.handler env msg) .list arg0 (fuel + 1) [1] s₁ = some s ∧
          ¬Conserves env arg0 source.hash dest.hash db (s.endBlocked arg0 timedOut) := by
      intro nothing
      rw [nothing] at behind
      obtain ⟨s, ival, ran, same, db', out, -⟩ := lastTurn _ behind
        ⟨show ExecStatus.execAbortSendNil ≠ _ by decide,
          show ExecStatus.execAbortSendNil ≠ _ by decide⟩
      refine ⟨s, ran, ?_⟩
      rw [same]
      have failure : s.out = env.pending ++
          (if env.granted then sendConcatString value else []) ++ line "$-1" := by
        rw [out, reply]
        exact congrArg (· ++ line "$-1") (List.append_nil _)
      apply not_conserves_of_failure env arg0 there isLast failure (.inl rfl)
      · intro e' left
        rw [db', show (unfetched .execAbortSendNil (s₁.db dest.hash)).settle .list =
          s₁.db dest.hash from rfl, Function.update_eq_self] at left
        exact shorter e' left
    -- The destination finds a value and does not take it.
    have noDest : ∀ found, replyValue ((s₁.out.drop env.outBuf).drop 2) = some found →
        ¬DestTakes env msg (s₁.db dest.hash) →
        ∃ s, runKeys (cmd.handler env msg) .list arg0 (fuel + 1) [1] s₁ = some s ∧
          ¬Conserves env arg0 source.hash dest.hash db (s.endBlocked arg0 timedOut) := by
      intro found isFound refuses
      rw [isFound] at behind
      obtain ⟨error, noOut, nothingNew⟩ := doPush_refused refuses found
      have stops := stops_of_refuses (.inr error)
      obtain ⟨s, ival, ran, same, db', out, -⟩ := lastTurn _ behind
        ⟨stops.1, by intro blocked; rw [blocked] at stops; exact absurd stops.2 (by decide)⟩
      refine ⟨s, ran, ?_⟩
      rw [same]
      rw [reply, noOut, List.append_nil, sendStatus_of_isError error] at out
      apply not_conserves_of_failure env arg0 there isLast out (.inr ⟨_, rfl⟩)
      · intro e' left
        rw [db', KeyRun.settle_of_isError error] at left
        by_cases here : source.hash = dest.hash
        · rw [here, Function.update_self] at left
          rcases nothingNew e' left with empty | old
          · rw [empty]
            exact longEnough
          · exact shorter e' (by rw [here, old])
        · rw [Function.update_of_ne here] at left
          exact shorter e' left
    -- The destination finds a value and takes it.
    have takesValue : ∀ found, replyValue ((s₁.out.drop env.outBuf).drop 2) = some found →
        DestTakes env msg (s₁.db dest.hash) →
        ∃ s, runKeys (cmd.handler env msg) .list arg0 (fuel + 1) [1] s₁ = some s ∧
          s.endBlocked arg0 timedOut = s ∧ s.out = s₁.out ∧
          s.db = Function.update s₁.db dest.hash
            (some (pushHead found (live env.dest (s₁.db dest.hash)))) ∧
          ¬∀ key ∈ s.keys, key.status = .execBlocked := by
      intro found isFound takes
      rw [isFound] at behind
      obtain ⟨isOk, noOut, pushed⟩ := doPush_takes takes found
      obtain ⟨s, ival, ran, same, db', out, unblocked⟩ := lastTurn _ behind
        (by rw [isOk]; decide)
      refine ⟨s, ran, same, ?_, ?_, unblocked⟩
      · rw [out, noOut, isOk, List.append_nil]
        exact List.append_nil _
      · rw [db', pushed]
    rw [← table]
    by_cases granted : env.granted
    · rw [if_pos granted] at reply
      by_cases clean : env.flushed ∨ cr ∉ env.out.drop 2
      · have found := replyValue_clean env value clean
        rw [← reply] at found
        by_cases empty : value = []
        · rw [if_pos empty] at found
          obtain ⟨s, ran, lost⟩ := noValue found
          exact ⟨s, ran, iff_of_false lost fun conditions => conditions.2.2.1 empty⟩
        · rw [if_neg empty] at found
          by_cases takes : DestTakes env msg (s₁.db dest.hash)
          · obtain ⟨s, ran, same, out, db', -⟩ := takesValue value found takes
            refine ⟨s, ran, iff_of_true ?_ ⟨granted, kept, empty, clean, takes⟩⟩
            rw [same]
            exact .inl ⟨e, value, there, isList, isLast, by rw [db', table], out.trans reply⟩
          · obtain ⟨s, ran, lost⟩ := noDest value found takes
            exact ⟨s, ran, iff_of_false lost fun conditions => takes conditions.2.2.2.2⟩
      · -- The output in front of the reply is pushed with the value.
        obtain ⟨longer, found, length⟩ := replyValue_dirty env value clean
        rw [← reply] at found
        have never : ¬(env.granted ∧ (e.data.length = 1 → env.tombstoned) ∧ value ≠ [] ∧
            (env.flushed ∨ cr ∉ env.out.drop 2) ∧ DestTakes env msg (s₁.db dest.hash)) :=
          fun conditions => clean conditions.2.2.2.1
        by_cases takes : DestTakes env msg (s₁.db dest.hash)
        · obtain ⟨s, ran, same, out, db', -⟩ := takesValue longer found takes
          refine ⟨s, ran, iff_of_false ?_ never⟩
          rw [same]
          rintro (⟨e', value', there', -, last', moved, -⟩ | refused)
          · obtain rfl := Option.some.inj (there.symm.trans there')
            obtain rfl := Option.some.inj (isLast.symm.trans last')
            have heads := congrFun (db'.symm.trans moved) dest.hash
            rw [Function.update_self, Function.update_self, table, Option.some.injEq] at heads
            have sameValue := pushHead_injective heads
            rw [sameValue] at length
            omega
          · exact @not_moveRefused_of_value env arg0 db s value []
              (by rw [out, reply, List.append_nil]) refused
        · obtain ⟨s, ran, lost⟩ := noDest longer found takes
          exact ⟨s, ran, iff_of_false lost never⟩
    · -- Without memory for the reply the element is nowhere.
      rw [if_neg granted, List.append_nil] at reply
      have never : ¬(env.granted ∧ (e.data.length = 1 → env.tombstoned) ∧ value ≠ [] ∧
          (env.flushed ∨ cr ∉ env.out.drop 2) ∧ DestTakes env msg (s₁.db dest.hash)) :=
        fun conditions => granted conditions.1
      cases found : replyValue ((s₁.out.drop env.outBuf).drop 2) with
      | none =>
          obtain ⟨s, ran, lost⟩ := noValue found
          exact ⟨s, ran, iff_of_false lost never⟩
      | some other =>
          by_cases takes : DestTakes env msg (s₁.db dest.hash)
          · obtain ⟨s, ran, same, out, -, unblocked⟩ := takesValue other found takes
            refine ⟨s, ran, iff_of_false ?_ never⟩
            rw [same]
            rintro (⟨-, value', -, -, -, -, moved⟩ | ⟨-, failure, refused, isFailure⟩)
            · rw [out, reply, List.self_eq_append_right] at moved
              simp [sendConcatString] at moved
            · rw [out, reply, List.self_eq_append_right] at refused
              subst refused
              rcases isFailure with isNil | ⟨status, -, isError⟩ | ⟨blocked, -⟩
              · exact absurd (congrArg List.head? isNil) (by decide)
              · have heads := congrArg List.head? isError
                rw [head_sendErrString] at heads
                cases heads
              · exact unblocked blocked
          · obtain ⟨s, ran, lost⟩ := noDest other found takes
            exact ⟨s, ran, iff_of_false lost never⟩
  · -- The delete failed behind the reply.
    rw [if_neg kept] at outcome
    obtain ⟨failed, shorter⟩ := outcome
    have turn := @turn_success _ (cmd.handler env msg) .list arg0
      { db := db, keys := [source, dest], out := env.pending } source _ none 0 rfl handled
      (by rw [failed]; decide) (.inr (by rw [failed]; decide))
    refine ⟨_, runKeys_success turn, ?_⟩
    rw [endBlocked_of_ne arg0 timedOut (by simpa using fresh)]
    apply iff_of_false
    · apply not_conserves_of_failure env arg0 there isLast
      · rw [sent, failed]
      · exact .inr ⟨_, rfl⟩
      · intro e' left
        exact shorter e' (by simpa using left)
    · exact fun conditions => kept conditions.2.1

/-- The two keys conserve the elements under the condition only. -/
theorem run_conserves (isSource : source.argn = 1) (isDest : dest.argn = 2)
    (fresh : dest.status ≠ .execBlocked) (fuel : Nat) :
    ∃ s, runKeys (cmd.handler env msg) .list arg0 (fuel + 2) [0, 1]
        { db := db, keys := [source, dest], out := env.pending } = some s ∧
      (Conserves env arg0 source.hash dest.hash db (s.endBlocked arg0 timedOut) ↔
        MovesWhole env msg source.hash dest.hash db) := by
  rw [MovesWhole]
  cases popped : poppedTail env (db source.hash) with
  | none =>
      obtain ⟨s, ran, refused⟩ := run_refused env cmd msg arg0 timedOut isSource isDest fresh
        popped fuel
      exact ⟨s, ran, iff_of_true (.inr refused) (by simp)⟩
  | some pair =>
      obtain ⟨e, value⟩ := pair
      obtain ⟨s, ran, conserves⟩ := run_popped env cmd msg arg0 timedOut isSource isDest fresh
        popped fuel
      refine ⟨s, ran, conserves.trans ?_⟩
      simp

end Run

/-- RPOPLPUSH and BRPOPLPUSH conserve the elements under this condition only, in both orders of the
keys. -/
theorem execMove_exact (env : MoveEnv) (cmd : MoveCmd) (msg : CommandMsg) (arg0 : Bytes)
    (timedOut : Bool) (db : KeyHash → Option (Entry ListData)) (src dst : KeyHash)
    {order : List Nat} (all : order.Perm (List.range 2)) :
    ∃ s, runKeys (cmd.handler env msg) .list arg0 4 order
        { db := db, keys := [{ argn := 1, hash := src }, { argn := 2, hash := dst }],
          out := env.pending } = some s ∧
      (Conserves env arg0 src dst db (s.endBlocked arg0 timedOut) ↔
        MovesWhole env msg src dst db) := by
  rcases orders_of_two all with rfl | rfl
  · exact run_conserves env cmd msg arg0 timedOut rfl rfl
      (show ExecStatus.execContinue ≠ .execBlocked by decide) 2
  · -- The destination waits for the source.
    have waits := @handler_waits env msg cmd
      { db := db, keys := [{ argn := 1, hash := src }, { argn := 2, hash := dst }],
        out := env.pending } { argn := 2, hash := dst } rfl (by simp) (db dst)
    have turn := @turn_depends _ (cmd.handler env msg) .list arg0
      { db := db, keys := [{ argn := 1, hash := src }, { argn := 2, hash := dst }],
        out := env.pending } _ _ none 1 rfl waits rfl rfl
    obtain ⟨s, ran, conserves⟩ := @run_conserves env cmd msg arg0 timedOut db
      { argn := 1, hash := src } { argn := 2, hash := dst, dep := 1, status := .execDepends } rfl rfl
      (show ExecStatus.execDepends ≠ .execBlocked by decide) 1
    refine ⟨s, (runKeys_depends turn).trans ?_, conserves⟩
    rw [← ran]
    simp [unfetched, KeyCtx.after]

/-- Two lists move their elements, the later key first. -/
theorem execMove_exact_reversed :
    ∃ s, runKeys (MoveCmd.rpoplpush.handler {} ⟨commandWords ["rpoplpush", "a", "b"], by decide⟩)
        .list [] 4 [1, 0]
        { db := fun _ => some ⟨.list, [[1], [2]], 0⟩
          keys := [{ argn := 1, hash := ⟨1, 0⟩ }, { argn := 2, hash := ⟨2, 0⟩ }]
          out := [] } = some s ∧
      Conserves {} [] ⟨1, 0⟩ ⟨2, 0⟩ (fun _ => some ⟨.list, [[1], [2]], 0⟩)
        (s.endBlocked [] false) := by
  obtain ⟨s, ran, exact⟩ := @execMove_exact {} .rpoplpush
    ⟨commandWords ["rpoplpush", "a", "b"], by decide⟩ [] false
    (fun _ => some ⟨.list, [[1], [2]], 0⟩) ⟨1, 0⟩ ⟨2, 0⟩ [1, 0] (by decide)
  refine ⟨s, ran, exact.mpr ?_⟩
  intro source value popped
  have found : poppedTail {} (some ⟨.list, [[1], [2]], 0⟩) =
      some (⟨.list, [[1], [2]], 0⟩, [2]) := by rfl
  obtain ⟨rfl, rfl⟩ := Prod.mk.inj (Option.some.inj (found.symm.trans popped))
  exact ⟨rfl, by simp, by simp, .inr (by simp), rfl, by simp, .inl ⟨rfl, rfl⟩⟩

/-- An earlier reply in the output buffer is pushed with the element. -/
theorem not_execMove_exact :
    ¬∃ s, runKeys (MoveCmd.rpoplpush.handler { out := line "+OK" }
          ⟨commandWords ["rpoplpush", "a", "b"], by decide⟩)
        .list [] 4 [0, 1]
        { db := fun _ => some ⟨.list, [[1], [2]], 0⟩
          keys := [{ argn := 1, hash := ⟨1, 0⟩ }, { argn := 2, hash := ⟨2, 0⟩ }]
          out := line "+OK" } = some s ∧
      Conserves { out := line "+OK" } [] ⟨1, 0⟩ ⟨2, 0⟩ (fun _ => some ⟨.list, [[1], [2]], 0⟩)
        (s.endBlocked [] false) := by
  rintro ⟨s, ran, conserves⟩
  obtain ⟨s', ran', exact⟩ := @run_conserves { out := line "+OK" } .rpoplpush
    ⟨commandWords ["rpoplpush", "a", "b"], by decide⟩ [] false
    (fun _ => some ⟨.list, [[1], [2]], 0⟩) { argn := 1, hash := ⟨1, 0⟩ }
    { argn := 2, hash := ⟨2, 0⟩ } rfl rfl (by decide) 2
  obtain rfl := Option.some.inj (ran.symm.trans ran')
  have moves := exact.mp conserves ⟨.list, [[1], [2]], 0⟩ [2] (by rfl)
  have noReturn : cr ∉ (line "+OK").drop 2 := by simpa using moves.2.2.2.1
  exact noReturn (by decide)

end Raids.Key
