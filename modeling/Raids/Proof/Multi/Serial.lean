import Mathlib.Data.List.ReduceOption
import Raids.Proof.Multi.Abort
import Raids.Proof.Multi.Fetch
import Raids.Proof.Multi.Lock

namespace Raids
open Dialogue Machine

/-- A context that was set up for a key argument and that no handler has marked. -/
structure KeyOf (msg : CommandMsg) (key : EvKeyCtx) (i : Int) : Prop where
  argn : key.argn = i
  kbuf : msg.getArgStr i = some key.kbuf
  isNew : key.isNew = false

/-- The key arguments that the queue keeps of a command. -/
def queuedIndices (req : Request) (g : Geometry) : List Int :=
  if 0 < keyCount req g then keyIndices g req.msg.argc else []

/-- A message of the queue for a request. -/
structure QueuedFor (req : Request) (cmd : RedisCmd) (g : Geometry) (mm : RedisMultiMsg) :
    Prop where
  command : prepareExecCommand req = .ok (cmd, g)
  msg : mm.msg = some req.msg
  cmd : mm.cmd = cmd
  keys : List.Forall₂ (KeyOf req.msg) mm.keys (queuedIndices req g)

theorem queueKeys_keyOf (hash : Bytes → KeyHash) (req : Request) (before : List EvKeyCtx)
    (is : List Int) (mm : RedisMultiMsg) (filter : List (Nat × Nat)) {done : List Int}
    (keys : List.Forall₂ (KeyOf req.msg) mm.keys done)
    (ok : (queueKeys hash req before is mm filter).1 = .execOk) :
    List.Forall₂ (KeyOf req.msg) (queueKeys hash req before is mm filter).2.1.keys (done ++ is) := by
  induction is generalizing mm filter done with
  | nil => simpa [queueKeys] using keys
  | cons i rest ih =>
      rw [queueKeys] at ok ⊢
      split at ok
      · cases ok
      · rename_i key isKey
        split at ok
        · rename_i granted
          rw [if_pos granted]
          have pushed : List.Forall₂ (KeyOf req.msg)
              (pushKey before { kbuf := key, argn := i, hash := hash key } mm filter).1.keys
              (done ++ [i]) :=
            List.rel_append keys (.cons ⟨rfl, isKey, rfl⟩ .nil)
          have more := ih _ _ pushed ok
          rwa [List.append_assoc] at more
        · cases ok

/-- An acknowledged command is pushed with its keys. -/
theorem multiQueued_ok {hash : Bytes → KeyHash} {req : Request} {mul : RedisMultiExec}
    {cmd : RedisCmd} {g : Geometry}
    (command : prepareExecCommand req = .ok (cmd, g))
    (ok : (multiQueued hash mul req cmd g).1 = .execOk) :
    ∃ mm filter, (multiQueued hash mul req cmd g).2 =
        { mul with
          msgList := mul.msgList ++ [mm], msgCount := mul.msgCount + 1, filter := filter } ∧
      QueuedFor req cmd g mm := by
  have room : (if 0 < g.first then calcKeyCount g req.msg.argc else 0) = keyCount req g := rfl
  simp only [multiQueued, room] at ok ⊢
  split at ok
  · rename_i granted
    rw [if_pos granted]
    split at ok
    · rename_i positive
      rw [if_pos positive]
      have msg := queueKeys_msg hash req mul.allKeys
        (keyIndices g req.msg.argc) ⟨some req.msg, cmd, [], []⟩ mul.filter
      have keys := queueKeys_keyOf hash req mul.allKeys
        (keyIndices g req.msg.argc) ⟨some req.msg, cmd, [], []⟩ mul.filter .nil
      generalize queueKeys hash req mul.allKeys (keyIndices g req.msg.argc)
        ⟨some req.msg, cmd, [], []⟩ mul.filter = result at msg keys ok
      obtain ⟨status, mm, filter⟩ := result
      simp only at msg keys ok
      split at ok <;> rename_i stopped
      · exact absurd ok stopped
      · split at ok <;> rename_i full
        · cases ok
        · refine ⟨mm, filter, ?_, command, msg.1, msg.2, ?_⟩
          · rw [if_neg stopped, if_neg full]
          · rw [queuedIndices, if_pos positive]
            simpa using keys (not_not.mp stopped)
    · rename_i none'
      refine ⟨⟨some req.msg, cmd, [], []⟩, mul.filter, ?_, command, rfl, rfl, ?_⟩
      · rw [if_neg none']
      · rw [queuedIndices, if_neg none']
        exact .nil
  · cases ok

section Serial

variable {E R : Type} [TableEntry E]

/-- One request of a connection without a queue that finds its memory. -/
def serialExec (hash : Nat → Bytes → KeyHash) (handlers : Handlers E R) (session : Session E)
    (req : Request) : Response E R × Session E :=
  match prepareExecCommand req with
  | .error status => (.status status, session)
  | .ok (cmd, g) =>
      match execSetup (hash session.dbNum) { req with grants := fun _ => true } g with
      | .error status => (.status status, session)
      | .ok keys =>
          let (log, session) := execCommand handlers cmd req.msg keys session
          (.command log, session)

/-- The connection queues the requests of a list behind a `MULTI`, and acknowledges each. -/
structure Accepted (hash : Nat → Bytes → KeyHash) (handlers : Handlers E R) (reqs : List Request)
    (c : RedisExec E) : Prop where
  history : ∃ (session : Session E) (before : List Request) (first : Request) (g : Geometry),
    prepareExecCommand first = .ok (.multiCmd, g) ∧
    (exec hash handlers (run (exec hash handlers) { session := session } before).2 first).1 =
      .status .execSendOk ∧
    (run (exec hash handlers)
        (exec hash handlers (run (exec hash handlers) { session := session } before).2 first).2
        reqs).2 = c ∧
    ∀ response ∈ (run (exec hash handlers)
        (exec hash handlers (run (exec hash handlers) { session := session } before).2 first).2
        reqs).1, response = .status .execQueued

/-- The locked queue behind the watch message, and the state in which it starts to run. -/
def RedisMultiExec.start (mul : RedisMultiExec) (session : Session E) :
    QueueState E × List RedisMultiMsg :=
  let msgs := multiTryLock session.db [] mul.msgList
  (⟨session, (msgs.take mul.skip).flatMap (·.keys)⟩, msgs.drop mul.skip)

/-- The command has its keys, and every query of its handlers is fresh. -/
structure FreshCommand (hash : Nat → Bytes → KeyHash) (handlers : Handlers E R) (s : QueueState E)
    (pair : Request × RedisMultiMsg) : Prop where
  keys : ∀ cmd g, prepareExecCommand pair.1 = .ok (cmd, g) →
    keyIndices g pair.1.msg.argc ≠ [] → keyCount pair.1 g ≠ 0
  queries : ∀ cmd g program, prepareExecCommand pair.1 = .ok (cmd, g) →
    handlers cmd pair.1.msg = .keys program →
      Throughout multiAnswer (Fresh (hash s.session.dbNum))
        ⟨s.session.db, cmd, s.done, pair.2.keys, pair.2.kptr⟩ program

variable {hash : Nat → Bytes → KeyHash} {handlers : Handlers E R}

omit [TableEntry E] in
theorem execKeySetup_ok (seed : Bytes → KeyHash) {req : Request} (granted : ∀ a, req.grants a = true)
    (idx : Nat) (is : List Int) (strings : ∀ i ∈ is, (req.msg.getArgStr i).isSome) :
    ∃ keys, execKeySetup seed req idx is = .ok keys ∧ List.Forall₂ (KeyOf req.msg) keys is ∧
      ∀ key ∈ keys, key.hash = seed key.kbuf := by
  induction is generalizing idx with
  | nil => exact ⟨[], rfl, .nil, by simp⟩
  | cons i rest ih =>
      obtain ⟨key, isKey⟩ := Option.isSome_iff_exists.mp (strings i List.mem_cons_self)
      obtain ⟨keys, ok, keyOf, hashes⟩ :=
        ih (idx + 1) fun i member => strings i (List.mem_cons_of_mem _ member)
      refine ⟨{ kbuf := key, argn := i, hash := seed key } :: keys, ?_, ?_, ?_⟩
      · simp [execKeySetup, isKey, granted, ok, Except.map]
      · exact .cons ⟨rfl, isKey, rfl⟩ keyOf
      · simpa using hashes

omit [TableEntry E] in
/-- A command with a count of keys is set up with its keys. -/
theorem execSetup_ok (seed : Bytes → KeyHash) (req : Request) {g : Geometry}
    (granted : ∀ a, req.grants a = true)
    (strings : ∀ i ∈ keyIndices g req.msg.argc, (req.msg.getArgStr i).isSome)
    (counted : keyIndices g req.msg.argc ≠ [] → keyCount req g ≠ 0) :
    ∃ keys, execSetup seed req g = .ok keys ∧
      List.Forall₂ (KeyOf req.msg) keys (keyIndices g req.msg.argc) ∧
      ∀ key ∈ keys, key.hash = seed key.kbuf := by
  rw [execSetup]
  generalize keyIndices g req.msg.argc = is at strings counted
  cases is with
  | nil => exact ⟨[], rfl, .nil, by simp⟩
  | cons i rest =>
      have count : calcKeyCount g req.msg.argc ≠ 0 := by
        have positive := counted (by simp)
        rw [keyCount] at positive
        split at positive
        · exact positive
        · exact absurd rfl positive
      obtain ⟨one, ok, keyOf, hashes⟩ := execKeySetup_ok seed granted 0 [i]
        (by simpa using strings i List.mem_cons_self)
      obtain ⟨others, ok', keyOf', hashes'⟩ := execKeySetup_ok seed granted 1 rest
        fun j member => strings j (List.mem_cons_of_mem _ member)
      cases rest with
      | nil => exact ⟨one, ok, keyOf, hashes⟩
      | cons j rest =>
          refine ⟨one ++ others, ?_, List.rel_append keyOf keyOf', ?_⟩
          · simp [ok, ok', count, granted, Except.map]
          · intro key member
            rcases List.mem_append.mp member with first | later
            · exact hashes key first
            · exact hashes' key later

omit [TableEntry E] in
theorem isSome_of_keyOf {msg : CommandMsg} {keys : List EvKeyCtx} {is : List Int}
    (keyOf : List.Forall₂ (KeyOf msg) keys is) : ∀ i ∈ is, (msg.getArgStr i).isSome := by
  induction keyOf with
  | nil => simp
  | cons first _ ih => simpa [first.kbuf] using ih

/-- Two contexts of the same key argument have the same key. -/
theorem sameKeys_of_keyOf {seed : Bytes → KeyHash} {req : Request} {keys own : List EvKeyCtx}
    {is : List Int} (queued : List.Forall₂ (KeyOf req.msg) keys is)
    (setup : List.Forall₂ (KeyOf req.msg) own is) (hashes : ∀ key ∈ own, key.hash = seed key.kbuf) :
    List.Forall₂ (SameKey seed) keys own ∧ keyArgs keys = keyArgs own := by
  induction queued generalizing own with
  | nil =>
      cases setup
      exact ⟨.nil, rfl⟩
  | cons first _ ih =>
      cases setup with
      | cons first' others =>
          obtain ⟨same, args⟩ := ih others fun key member => hashes key (List.mem_cons_of_mem _ member)
          have kbuf := Option.some.inj (first.kbuf.symm.trans first'.kbuf)
          refine ⟨.cons ⟨kbuf, ?_, hashes _ List.mem_cons_self⟩ same, ?_⟩
          · rw [first.isNew, first'.isNew]
          · rw [keyArgs_cons, keyArgs_cons, args, kbuf, first.argn, first'.argn]

omit [TableEntry E] in
/-- A setup makes a context for each key. -/
theorem execKeySetup_length {seed : Bytes → KeyHash} {req : Request} {idx : Nat} {is : List Int}
    {keys : List EvKeyCtx} (ok : execKeySetup seed req idx is = .ok keys) :
    keys.length = is.length := by
  induction is generalizing idx keys with
  | nil =>
      cases ok
      rfl
  | cons i rest ih =>
      rw [execKeySetup] at ok
      split at ok
      · cases ok
      · split at ok
        · cases more : execKeySetup seed req (idx + 1) rest with
          | error status => simp [more, Except.map] at ok
          | ok keys' =>
              rw [more] at ok
              cases ok
              simp [ih more]
        · cases ok

omit [TableEntry E] in
theorem execSetup_ne_nil {seed : Bytes → KeyHash} {req : Request} {g : Geometry}
    {keys : List EvKeyCtx} (ok : execSetup seed req g = .ok keys)
    (some' : keyIndices g req.msg.argc ≠ []) : keys ≠ [] := by
  rintro rfl
  rw [execSetup] at ok
  generalize keyIndices g req.msg.argc = is at ok some'
  cases is with
  | nil => exact some' rfl
  | cons i rest =>
      cases rest with
      | nil =>
          have one := execKeySetup_length ok
          simp at one
      | cons j rest =>
          simp only at ok
          split at ok
          · cases ok
          · rename_i key first
            have one := execKeySetup_length first
            split at ok
            · cases ok
            · split at ok
              · cases more : execKeySetup seed req 1 (j :: rest) with
                | error status => simp [more, Except.map] at ok
                | ok others =>
                    rw [more] at ok
                    simp only [Except.map, Except.ok.injEq, List.append_eq_nil_iff] at ok
                    simp [ok.1] at one
              · cases ok

section Queued

variable {req : Request} {cmd : RedisCmd} {g : Geometry} {mm : RedisMultiMsg}

omit [TableEntry E] in
/-- The command alone has the keys that it had in the queue. -/
theorem setup_of_queued (seed : Bytes → KeyHash) (queued : QueuedFor req cmd g mm)
    (counted : keyIndices g req.msg.argc ≠ [] → keyCount req g ≠ 0) :
    ∃ own, execSetup seed { req with grants := fun _ => true } g = .ok own ∧
      List.Forall₂ (SameKey seed) mm.keys own ∧ keyArgs mm.keys = keyArgs own := by
  have keys := queued.keys
  have whole : queuedIndices req g = keyIndices g req.msg.argc := by
    rw [queuedIndices]
    split
    · rfl
    · rename_i none'
      by_contra some'
      exact none' (Nat.pos_of_ne_zero (counted fun empty => some' empty.symm))
  rw [whole] at keys
  obtain ⟨own, ok, keyOf, hashes⟩ := execSetup_ok seed { req with grants := fun _ => true }
    (fun _ => rfl) (isSome_of_keyOf keys) counted
  obtain ⟨same, args⟩ := sameKeys_of_keyOf keys keyOf hashes
  exact ⟨own, ok, same, args⟩

omit [TableEntry E] in
/-- The queued command and the command alone start with the same table and keys. -/
theorem sameRun_start (cmd : RedisCmd) (mm : RedisMultiMsg) (s : QueueState E) {own : List EvKeyCtx}
    (same : List.Forall₂ (SameKey (hash s.session.dbNum)) mm.keys own) :
    SameRun (hash s.session.dbNum) ⟨s.session.db, cmd, s.done, mm.keys, mm.kptr⟩
      ⟨s.session.db, cmd, own⟩ := ⟨rfl, rfl, same⟩

/-- The log of a command names the keys that the command was run with. -/
theorem execCommand_keys (cmd : RedisCmd) (msg : CommandMsg) (keys : List EvKeyCtx)
    (session : Session E) : (execCommand handlers cmd msg keys session).1.keys = keyArgs keys := by
  rw [execCommand]
  split <;> rfl

theorem execQueued_keys {s : QueueState E} {log : CommandLog E R}
    (isLog : (execQueued handlers s mm).1 = some log) : log.keys = keyArgs mm.keys := by
  rw [execQueued] at isLog
  split at isLog
  · cases isLog
  · split at isLog <;> cases isLog <;> rfl

/-- A queued command runs as it would run alone exactly when it is fresh. -/
theorem execQueued_eq_iff (s : QueueState E) (queued : QueuedFor req cmd g mm) :
    (execQueued handlers s mm).1.map Response.command =
        some (serialExec hash handlers s.session req).1 ↔
      FreshCommand hash handlers s (req, mm) := by
  have command := queued.command
  by_cases counted : keyIndices g req.msg.argc ≠ [] → keyCount req g ≠ 0
  · obtain ⟨own, ok, same, args⟩ := setup_of_queued (hash s.session.dbNum) queued counted
    have fresh : FreshCommand hash handlers s (req, mm) ↔
        ∀ program, handlers cmd req.msg = .keys program →
          Throughout multiAnswer (Fresh (hash s.session.dbNum))
            ⟨s.session.db, cmd, s.done, mm.keys, mm.kptr⟩ program := by
      constructor
      · exact fun fresh program => fresh.queries cmd g program command
      · intro queries
        constructor
        · intro cmd' g' command'
          cases command.symm.trans command'
          exact counted
        · intro cmd' g' program command'
          cases command.symm.trans command'
          exact queries program
    rw [fresh]
    simp only [execQueued, serialExec, queued.msg, queued.cmd, command, ok, execCommand]
    cases handlers cmd req.msg with
    | select dbNum reply => simp [args]
    | keys program =>
        have transcripts := talk_eq_iff (sameRun_start cmd mm s same) program
        simp only [Handler.keys.injEq, forall_eq', Option.map_some, Option.some.injEq,
          Response.command.injEq, CommandLog.mk.injEq, args, true_and]
        rw [← transcripts, Prod.ext_iff]
  · have fresh : ¬FreshCommand hash handlers s (req, mm) :=
      fun fresh => counted (fresh.keys cmd g command)
    obtain ⟨some', none'⟩ : keyIndices g req.msg.argc ≠ [] ∧ keyCount req g = 0 := by
      simpa using counted
    have noKeys := queued.keys
    rw [queuedIndices, if_neg (by omega), List.forall₂_nil_right_iff] at noKeys
    refine iff_of_false (fun equal => ?_) fresh
    simp only [serialExec, command] at equal
    cases setup : execSetup (hash s.session.dbNum) { req with grants := fun _ => true } g with
    | error status => simp [setup] at equal
    | ok own =>
        have ownKeys := execSetup_ne_nil setup some'
        simp only [setup] at equal
        obtain ⟨log, isLog, same⟩ := Option.map_eq_some_iff.mp equal
        have keys := execQueued_keys isLog
        rw [Response.command.inj same, execCommand_keys, noKeys] at keys
        exact ownKeys (List.map_eq_nil_iff.mp keys)

theorem execQueued_session (s : QueueState E) (queued : QueuedFor req cmd g mm)
    (fresh : FreshCommand hash handlers s (req, mm)) :
    (execQueued handlers s mm).2.session = (serialExec hash handlers s.session req).2 := by
  have command := queued.command
  obtain ⟨own, ok, same, args⟩ :=
    setup_of_queued (hash s.session.dbNum) queued (fresh.keys cmd g command)
  have queries := fun program => fresh.queries cmd g program command
  simp only [execQueued, serialExec, queued.msg, queued.cmd, command, ok, execCommand]
  cases handler : handlers cmd req.msg with
  | select dbNum reply => rfl
  | keys program =>
      have last := talk_sameRun (sameRun_start cmd mm s same) (queries program handler)
      simp only [last.db]

end Queued

section Accept

variable {c : RedisExec E} {mul : RedisMultiExec} {req : Request}

/-- The queue grew by the messages. -/
structure Grown (c : RedisExec E) (mul mul' : RedisMultiExec) (msgs : List RedisMultiMsg) :
    Prop where
  queues : Queues c mul'
  msgList : mul'.msgList = mul.msgList ++ msgs
  watchCount : mul'.watchCount = mul.watchCount

/-- Only a command that joins the queue is answered with `QUEUED`. -/
theorem queued_exec (queues : Queues c mul)
    (queued : (exec hash handlers c req).1 = .status .execQueued) :
    ∃ mul' mm, (∃ cmd g, QueuedFor req cmd g mm) ∧
      Grown (exec hash handlers c req).2 mul mul' [mm] := by
  cases command : prepareExecCommand req with
  | error status =>
      rw [exec_refused command] at queued
      cases queued
      rw [prepareExecCommand] at command
      split at command
      · cases command
      · split at command <;> cases command
  | ok command' =>
      obtain ⟨cmd, g⟩ := command'
      cases plain : isTransactionCmd cmd with
      | false =>
          rw [exec_queued queues command plain] at queued ⊢
          have ok : (multiQueued (hash c.session.dbNum) mul req cmd g).1 = .execOk := by
            by_contra failed
            rw [if_neg failed, Response.status.injEq] at queued
            cases granted : req.grants .message with
            | false =>
                rw [multiQueued_refused _ mul cmd granted] at queued
                cases queued
            | true =>
                obtain ⟨mm, filter, -, -, error⟩ :=
                  multiQueued_pushes (hash c.session.dbNum) mul cmd granted (g := g)
                have isError := error failed
                rw [queued] at isError
                cases isError
          obtain ⟨mm, filter, pushed, isQueued⟩ := multiQueued_ok command ok
          rw [pushed]
          exact ⟨_, mm, ⟨cmd, g, isQueued⟩, queues.withMulti rfl, rfl, rfl⟩
      | true =>
          rw [exec_transaction command plain] at queued
          exfalso
          have kind : cmd = .execCmd ∨ cmd = .multiCmd ∨ cmd = .discardCmd := by
            simpa [isTransactionCmd] using plain
          rcases kind with rfl | rfl | rfl
          · simp only [execNow, execExec, queues.multi] at queued
            split at queued
            · cases queued
            · split at queued
              · cases queued
              · split at queued <;> cases queued
          · simp [execNow, execMulti, queues.multi, queues.started] at queued
          · simp [execNow, execDiscard, queues.multi] at queued

/-- The commands of a list were queued in its order. -/
def AllQueued (reqs : List Request) (msgs : List RedisMultiMsg) : Prop :=
  List.Forall₂ (fun req mm => ∃ cmd g, QueuedFor req cmd g mm) reqs msgs

/-- A list of requests that are all answered with `QUEUED` is queued. -/
theorem queued_run (queues : Queues c mul) {reqs : List Request}
    (queued : ∀ response ∈ (run (exec hash handlers) c reqs).1, response = .status .execQueued) :
    ∃ mul' msgs, AllQueued reqs msgs ∧ Grown (run (exec hash handlers) c reqs).2 mul mul' msgs := by
  induction reqs generalizing c mul with
  | nil => exact ⟨mul, [], .nil, queues, by simp, rfl⟩
  | cons req rest ih =>
      simp only [run_cons, List.mem_cons, forall_eq_or_imp] at queued ⊢
      obtain ⟨mul', mm, isQueued, one⟩ := queued_exec queues queued.1
      obtain ⟨mul'', msgs, all, others⟩ := ih one.queues queued.2
      refine ⟨mul'', mm :: msgs, .cons isQueued all, others.queues, ?_, ?_⟩
      · rw [others.msgList, one.msgList]
        simp
      · exact others.watchCount.trans one.watchCount

omit [TableEntry E] in
theorem lockedMsg_queuedFor {cmd : RedisCmd} {g : Geometry} {mm : RedisMultiMsg}
    (db : Keyspace E) (queued : QueuedFor req cmd g mm) :
    QueuedFor req cmd g (lockedMsg db mm) := by
  refine ⟨queued.command, queued.msg, queued.cmd, ?_⟩
  rw [lockedMsg, List.forall₂_map_left_iff]
  exact queued.keys.imp fun key i keyOf => ⟨keyOf.argn, keyOf.kbuf, keyOf.isNew⟩

omit [TableEntry E] in
/-- The locks leave the queued commands in place. -/
theorem allQueued_locked (db : Keyspace E) {reqs : List Request} {msgs : List RedisMultiMsg}
    (all : AllQueued reqs msgs) : AllQueued reqs (msgs.map (lockedMsg db)) := by
  rw [AllQueued, List.forall₂_map_right_iff]
  exact all.imp fun req mm ⟨cmd, g, queued⟩ => ⟨cmd, g, lockedMsg_queuedFor db queued⟩

theorem execQueued_isSome (s : QueueState E) {cmd : RedisCmd} {g : Geometry} {mm : RedisMultiMsg}
    (queued : QueuedFor req cmd g mm) : (execQueued handlers s mm).1.isSome := by
  simp only [execQueued, queued.msg]
  cases handlers mm.cmd req.msg <;> rfl

/-- Every queued command leaves a log. -/
theorem run_execQueued (handlers : Handlers E R) (s : QueueState E) {reqs : List Request} {msgs : List RedisMultiMsg}
    (all : AllQueued reqs msgs) :
    (run (execQueued handlers) s msgs).1.reduceOption.map some =
      (run (execQueued handlers) s msgs).1 := by
  induction all generalizing s with
  | nil => rfl
  | cons first _ ih =>
      obtain ⟨cmd, g, queued⟩ := first
      obtain ⟨log, isLog⟩ := Option.isSome_iff_exists.mp (execQueued_isSome s queued)
      rw [run_cons, isLog, List.reduceOption_cons_of_some, List.map_cons, ih]

/-- A queue runs as its commands would run alone exactly when they are fresh. -/
theorem run_eq_iff (hash : Nat → Bytes → KeyHash) (s : QueueState E) {reqs : List Request} {msgs : List RedisMultiMsg}
    (all : AllQueued reqs msgs) :
    (run (execQueued handlers) s msgs).1.map (Option.map Response.command) =
          (run (serialExec hash handlers) s.session reqs).1.map some ∧
        (run (execQueued handlers) s msgs).2.session =
          (run (serialExec hash handlers) s.session reqs).2 ↔
      Along (fun s pair => execQueued handlers s pair.2) (FreshCommand hash handlers) s
        (reqs.zip msgs) := by
  obtain ⟨lengths, queued⟩ := List.forall₂_iff_zip.mp all
  have valid : ∀ pair ∈ reqs.zip msgs, ∃ cmd g, QueuedFor pair.1 cmd g pair.2 :=
    fun pair member => queued member
  have law := outputs_eq_iff (P := FreshCommand hash handlers)
    (f := fun s (pair : Request × RedisMultiMsg) =>
      ((execQueued handlers s pair.2).1.map Response.command, (execQueued handlers s pair.2).2))
    (g := fun (t : Session E) (pair : Request × RedisMultiMsg) =>
      (some (serialExec hash handlers t pair.1).1, (serialExec hash handlers t pair.1).2))
    (R := fun s t => s.session = t)
    (V := fun pair => ∃ cmd g, QueuedFor pair.1 cmd g pair.2)
    (by
      rintro s _ ⟨req, mm⟩ ⟨cmd, g, queued⟩ rfl
      exact execQueued_eq_iff s queued)
    (by
      rintro s _ ⟨req, mm⟩ ⟨cmd, g, queued⟩ rfl fresh
      exact execQueued_session s queued fresh)
    (s := s) valid rfl
  rw [run_mapOutput (fun s (pair : Request × RedisMultiMsg) => execQueued handlers s pair.2),
    run_mapOutput (fun t (pair : Request × RedisMultiMsg) => serialExec hash handlers t pair.1),
    along_mapOutput (fun s (pair : Request × RedisMultiMsg) => execQueued handlers s pair.2),
    run_map (execQueued handlers) Prod.snd,
    run_map (serialExec hash handlers) Prod.fst,
    List.map_snd_zip (by omega), List.map_fst_zip (by omega)] at law
  exact law

/-- The replies of `EXEC` are those of the run of its queue. -/
theorem execExec_logs (multi : c.multi = some mul) {count : Nat} {logs : List (CommandLog E R)}
    (executed : (execExec handlers c req).1 = .transaction count logs) :
    count = mul.msgCount - mul.skip ∧
      logs = (run (execQueued handlers) (mul.start c.session).1
        (mul.start c.session).2).1.reduceOption ∧
      (execExec handlers c req).2.session = (run (execQueued handlers) (mul.start c.session).1
        (mul.start c.session).2).2.session := by
  simp only [execExec, multi] at executed ⊢
  split at executed
  · cases executed
  · rename_i live
    rw [if_neg live]
    split at executed
    · cases executed
    · rename_i same
      rw [if_neg same]
      split at executed
      · rename_i granted
        rw [if_pos granted]
        cases executed
        exact ⟨rfl, rfl, rfl⟩
      · cases executed

end Accept

section Main

variable {c : RedisExec E} {mul : RedisMultiExec} {reqs : List Request}

/-- The accepted commands stand behind the watch message. -/
theorem Accepted.queue (accepted : Accepted hash handlers reqs c) (multi : c.multi = some mul) :
    ∃ head msgs, AllQueued reqs msgs ∧ mul.msgList = head ++ msgs ∧ head.length = mul.skip ∧
      mul.msgCount = mul.msgList.length ∧ mul.Linked := by
  obtain ⟨session, before, first, g, isMulti, started, rfl, queued⟩ := accepted.history
  have new := RedisExec.consistent_of_none (c := { session := session }) rfl
  have consistent := consistent_run hash handlers new before
  have linked := linked_run hash handlers new (RedisExec.linked_of_none rfl) before
  have consistent' := consistent_exec hash handlers consistent first
  have linked' := linked_exec hash handlers consistent linked first
  obtain ⟨mul', queues, -, skip⟩ := queues_of_started consistent isMulti started
  obtain ⟨mul'', msgs, all, grown⟩ := queued_run queues queued
  obtain rfl := Option.some.inj (multi.symm.trans grown.queues.multi)
  refine ⟨mul'.msgList, msgs, all, grown.msgList, ?_, ?_, ?_⟩
  · rw [skip, RedisMultiExec.skip, RedisMultiExec.skip, grown.watchCount]
  · exact (consistent_run hash handlers consistent' reqs mul multi).messages
  · exact linked_run hash handlers consistent' linked' reqs mul multi

/-- `EXEC` replies and leaves the table as the commands alone would. -/
structure Serial (hash : Nat → Bytes → KeyHash) (handlers : Handlers E R) (start last : Session E)
    (reqs : List Request) (count : Nat) (logs : List (CommandLog E R)) : Prop where
  counted : count = logs.length
  replies : logs.map Response.command = (run (serialExec hash handlers) start reqs).1
  session : last = (run (serialExec hash handlers) start reqs).2

/-- The run of a queue is serial exactly when its commands are fresh. -/
theorem serial_run_iff (s : QueueState E) {msgs : List RedisMultiMsg}
    (all : AllQueued reqs msgs) :
    Serial hash handlers s.session (run (execQueued handlers) s msgs).2.session reqs msgs.length
        (run (execQueued handlers) s msgs).1.reduceOption ↔
      Along (fun s pair => execQueued handlers s pair.2) (FreshCommand hash handlers) s
        (reqs.zip msgs) := by
  have logged := run_execQueued handlers s all
  have size := congrArg List.length logged
  rw [List.length_map, length_outputs] at size
  rw [← run_eq_iff hash s all]
  generalize (run (execQueued handlers) s msgs).1.reduceOption = logs at logged size
  have replies : (run (execQueued handlers) s msgs).1.map (Option.map Response.command) =
        (run (serialExec hash handlers) s.session reqs).1.map some ↔
      logs.map Response.command = (run (serialExec hash handlers) s.session reqs).1 := by
    have injective := List.map_injective_iff.mpr (Option.some_injective (Response E R))
    rw [← logged, ← injective.eq_iff, List.map_map, List.map_map]
    rfl
  rw [replies]
  exact ⟨fun serial => ⟨serial.replies, serial.session⟩, fun both => ⟨size.symm, both.1, both.2⟩⟩

end Main

end Serial

section Examples

def setRequest : Request := wordsRequest (some .setCmd) ["set", "k", "v"]

def overwriteRequest : Request := wordsRequest (some .setCmd) ["set", "k", "w"]

def getRequest : Request := wordsRequest (some .getCmd) ["get", "k"]

/-- The connection behind `MULTI` and the requests of a list. -/
def queuedConnection (reqs : List Request) : RedisExec StringEntry :=
  (run (exec shortHash stringHandlers) multiConnection reqs).2

/-- The replies that a response carries. -/
def Response.replies {E R : Type} : Response E R → List R
  | .status _ => []
  | .command log => [log.reply]
  | .transaction _ logs => logs.map (·.reply)

theorem accepted_queued {reqs : List Request}
    (queued : (run (exec shortHash stringHandlers) multiConnection reqs).1 =
      reqs.map fun _ => .status .execQueued) :
    Accepted shortHash stringHandlers reqs (queuedConnection reqs) := by
  refine ⟨emptySession, [], multiRequest, _, rfl, rfl, rfl, fun response member => ?_⟩
  have member' : response ∈ (run (exec shortHash stringHandlers) multiConnection reqs).1 := member
  rw [queued] at member'
  simpa using (List.mem_map.mp member').elim fun _ both => both.2.symm

theorem freshCommand_of_keys {s : QueueState StringEntry} {pair : Request × RedisMultiMsg}
    {cmd : RedisCmd} {g : Geometry} (command : prepareExecCommand pair.1 = .ok (cmd, g))
    (counted : keyCount pair.1 g ≠ 0) {program : StringProgram}
    (keys : stringHandlers cmd pair.1.msg = .keys program)
    (fresh : Throughout multiAnswer (Fresh (shortHash s.session.dbNum))
      ⟨s.session.db, cmd, s.done, pair.2.keys, pair.2.kptr⟩ program) :
    FreshCommand shortHash stringHandlers s pair := by
  constructor
  · intro cmd' g' command' _
    cases command.symm.trans command'
    exact counted
  · intro cmd' g' program' command' keys'
    cases command.symm.trans command'
    cases keys.symm.trans keys'
    exact fresh

end Examples

end Raids
