import Raids.Construction.Multi.Connection
import Raids.Proof.Multi.Connection

namespace Raids
open Machine

/-- The command that a request queues, if it can be prepared. -/
def queuedCommand (req : Request) : Option (RedisCmd × Geometry) :=
  match prepareExecCommand req with
  | .error _ => none
  | .ok (cmd, g) => if isTransactionCmd cmd then none else some (cmd, g)

/-- A request that cannot be prepared is refused. -/
def Refused (req : Request) : Prop := ∃ status, prepareExecCommand req = .error status

/-- A request that does not end the transaction. -/
def Stays (req : Request) : Prop :=
  ∀ cmd g, prepareExecCommand req = .ok (cmd, g) → cmd ≠ .execCmd ∧ cmd ≠ .discardCmd

/-- An error is about queueing unless it answers a nested `MULTI`. -/
def QueueingError {E R : Type} (pair : Request × Response E R) : Prop :=
  (∀ g, prepareExecCommand pair.1 ≠ .ok (.multiCmd, g)) ∧
    ∃ status, pair.2 = .status status ∧ status.isError

/-- The entry of a command that was answered with `QUEUED`. -/
def acknowledged {E R : Type} (pair : Request × Response E R) : Option Entry :=
  match pair.2 with
  | .status .execQueued => (queuedCommand pair.1).map fun command =>
      ownEntry pair.1 command.1 command.2
  | _ => none

/-- The keys of a command that finds memory can be queued. -/
def KeysFitQueue (req : Request) : Prop :=
  ∀ cmd g, queuedCommand req = some (cmd, g) → req.grants .message = true → KeysQueue req g

/-- A command finds no memory for its message. -/
def Unstored (req : Request) : Prop :=
  ∃ cmd g, queuedCommand req = some (cmd, g) ∧ req.grants .message = false

structure Queues {E : Type} (c : RedisExec E) (mul : RedisMultiExec) : Prop where
  multi : c.multi = some mul
  queued : c.multiQueued = true
  started : mul.multiStart = true

/-- The entries joined the queue and are counted. -/
structure Joined (mul mul' : RedisMultiExec) (entries : List Entry) : Prop where
  list : mul'.msgList.map RedisMultiMsg.entry = mul.msgList.map RedisMultiMsg.entry ++ entries
  count : mul'.msgCount = mul.msgCount + entries.length

theorem Joined.refl (mul : RedisMultiExec) : Joined mul mul [] := ⟨by simp, rfl⟩

theorem Joined.trans {mul mul' mul'' : RedisMultiExec} {first second : List Entry}
    (one : Joined mul mul' first) (two : Joined mul' mul'' second) :
    Joined mul mul'' (first ++ second) := by
  constructor
  · rw [two.list, one.list, List.append_assoc]
  · rw [two.count, one.count, List.length_append, Nat.add_assoc]

theorem Joined.keys_length {mul mul' : RedisMultiExec} {entries : List Entry}
    (joined : Joined mul mul' entries) :
    mul'.allKeys.length =
      mul.allKeys.length + (entries.map fun entry => entry.2.2.length).sum := by
  have counted (list : List RedisMultiMsg) : (list.flatMap (·.keys)).length =
      ((list.map RedisMultiMsg.entry).map fun entry => entry.2.2.length).sum := by
    rw [List.length_flatMap, List.map_map]
    congr 1
    apply List.map_congr_left
    simp [RedisMultiMsg.entry]
  rw [RedisMultiExec.allKeys, RedisMultiExec.allKeys, counted, counted, joined.list,
    List.map_append, List.sum_append]

/-- Lists that are not shorter are equal together only when each is. -/
theorem append_eq_append_iff_of_length_le {α : Type} {p q a b : List α}
    (first : a.length ≤ p.length) (second : b.length ≤ q.length) :
    p ++ q = a ++ b ↔ p = a ∧ q = b := by
  constructor
  · intro equal
    have lengths := congrArg List.length equal
    rw [List.length_append, List.length_append] at lengths
    exact List.append_inj equal (by omega)
  · rintro ⟨rfl, rfl⟩
    rfl

section Queues

variable {E : Type} {c : RedisExec E} {mul : RedisMultiExec}

theorem Queues.get (queues : Queues c mul) : c.multi.get (c.queueing queues.queued) = mul := by
  simp [queues.multi]

theorem Queues.abort (queues : Queues c mul) :
    c.abort = c.withMulti { mul with multiAbort := true } := by
  rw [RedisExec.abort, dif_pos queues.queued, queues.get]

theorem Queues.withMulti (queues : Queues c mul) {mul' : RedisMultiExec}
    (same : mul'.multiStart = mul.multiStart) : Queues (c.withMulti mul') mul' :=
  ⟨rfl, queues.queued, same.trans queues.started⟩

end Queues

/-- A command that is answered with an error is not acknowledged. -/
theorem acknowledged_error (E R : Type) (req : Request) {status : ExecStatus}
    (isError : status.isError) :
    acknowledged (E := E) (R := R) (req, .status status) = none := by
  rw [acknowledged]
  split
  · rename_i same
    cases same
    cases isError
  · rfl

section Exec

variable {E R : Type} [TableEntry E] {hash : Nat → Bytes → KeyHash} {handlers : Handlers E R}
  {c : RedisExec E} {mul : RedisMultiExec} {req : Request} {cmd : RedisCmd} {g : Geometry}

theorem exec_queued (queues : Queues c mul) (command : prepareExecCommand req = .ok (cmd, g))
    (queued : isTransactionCmd cmd = false) :
    exec hash handlers c req =
      (.status (if (multiQueued (hash c.session.dbNum) mul req cmd g).1 = .execOk then .execQueued
          else (multiQueued (hash c.session.dbNum) mul req cmd g).1),
        c.withMulti (multiQueued (hash c.session.dbNum) mul req cmd g).2) := by
  rw [exec_queue command queues.queued queued, queueCommand, queues.get]

/-- A nested `MULTI` changes nothing. -/
theorem exec_nested (queues : Queues c mul) (multi : prepareExecCommand req = .ok (.multiCmd, g)) :
    exec hash handlers c req = (.status .errBadMulti, c) := by
  rw [exec_transaction multi rfl]
  simp [execNow, execMulti, queues.multi, queues.started]

/-- What one request between `MULTI` and `EXEC` does to the queue, and how it is answered. -/
structure Step (c c' : RedisExec E) (mul mul' : RedisMultiExec) (entries : List Entry)
    (req : Request) (response : Response E R) : Prop where
  queues : Queues c' mul'
  session : c'.session = c.session
  joined : Joined mul mul' entries
  abort : mul'.multiAbort = true ↔ mul.multiAbort = true ∨ Refused req
  most : (acknowledged (req, response)).toList.length ≤ entries.length
  own : entries = (acknowledged (req, response)).toList ↔ KeysFitQueue req
  error : KeysFitQueue req → (QueueingError (req, response) ↔ Refused req ∨ Unstored req)

theorem step_refused {status : ExecStatus} (queues : Queues c mul)
    (refused : prepareExecCommand req = .error status) :
    Step c (exec hash handlers c req).2 mul { mul with multiAbort := true } [] req
      (exec hash handlers c req).1 := by
  have noCommand : queuedCommand req = none := by rw [queuedCommand, refused]
  have isError : status.isError := by
    rw [prepareExecCommand] at refused
    split at refused
    · cases refused
      rfl
    · split at refused <;> cases refused
      rfl
  rw [exec_refused refused, queues.abort]
  have notAcknowledged := acknowledged_error E R req isError
  refine ⟨queues.withMulti rfl, rfl, ⟨by simp, rfl⟩, ?_, ?_, ?_, ?_⟩
  · exact iff_of_true rfl (.inr ⟨status, refused⟩)
  · simp [notAcknowledged]
  · refine iff_of_true (by simp [notAcknowledged]) ?_
    intro cmd g command
    rw [noCommand] at command
    cases command
  · intro _
    refine iff_of_true ⟨fun g => ?_, status, rfl, isError⟩ (.inl ⟨status, refused⟩)
    rw [refused]
    nofun

theorem step_nested (queues : Queues c mul) (multi : prepareExecCommand req = .ok (.multiCmd, g)) :
    Step c (exec hash handlers c req).2 mul mul [] req (exec hash handlers c req).1 := by
  have noCommand : queuedCommand req = none := by
    rw [queuedCommand, multi]
    rfl
  have accepted : ¬Refused req := by
    rintro ⟨status, refused⟩
    rw [multi] at refused
    cases refused
  rw [exec_nested queues multi]
  refine ⟨queues, rfl, Joined.refl mul, ?_, le_rfl, ?_, ?_⟩
  · simp [accepted]
  · refine iff_of_true rfl ?_
    intro cmd g command
    rw [noCommand] at command
    cases command
  · intro _
    refine iff_of_false (fun error => error.1 g multi) ?_
    rintro (refused | ⟨cmd, g, command, -⟩)
    · exact accepted refused
    · rw [noCommand] at command
      cases command

theorem step_queued (queues : Queues c mul) (command : prepareExecCommand req = .ok (cmd, g))
    (queued : isTransactionCmd cmd = false) :
    ∃ mul' entries, Step c (exec hash handlers c req).2 mul mul' entries req
      (exec hash handlers c req).1 := by
  have isCommand : queuedCommand req = some (cmd, g) := by
    rw [queuedCommand, command]
    simp [queued]
  have accepted : ¬Refused req := by
    rintro ⟨status, refused⟩
    rw [command] at refused
    cases refused
  have notMulti : ∀ g, prepareExecCommand req ≠ .ok (.multiCmd, g) := by
    intro g' multi
    rw [command] at multi
    cases multi
    cases queued
  have fits : KeysFitQueue req ↔ (req.grants .message = true → KeysQueue req g) := by
    simp [KeysFitQueue, isCommand]
  have unstored : Unstored req ↔ req.grants .message = false := by
    simp [Unstored, isCommand]
  rw [exec_queued queues command queued]
  cases granted : req.grants .message with
  | false =>
      rw [multiQueued_refused _ mul cmd granted]
      refine ⟨mul, [], queues.withMulti rfl, rfl, Joined.refl mul, by simp [accepted], le_rfl,
        iff_of_true rfl (fits.mpr (by simp [granted])), fun _ => ?_⟩
      exact iff_of_true ⟨notMulti, .errAllocFail, rfl, rfl⟩ (.inr (unstored.mpr granted))
  | true =>
      obtain ⟨mm, filter, pushed, own, error⟩ :=
        multiQueued_pushes (hash c.session.dbNum) mul cmd granted (g := g)
      rw [pushed]
      refine ⟨_, [mm.entry], queues.withMulti rfl, rfl, ⟨by simp, rfl⟩, by simp [accepted], ?_, ?_,
        ?_⟩
      · exact Option.length_toList_le
      · rw [fits]
        simp only [granted, forall_const, ← own]
        by_cases ok : (multiQueued (hash c.session.dbNum) mul req cmd g).1 = .execOk
        · simp [ok, acknowledged, isCommand]
        · rw [if_neg ok, acknowledged_error E R req (error ok)]
          simp [ok]
      · intro keys
        have ok := (own.mpr (fits.mp keys granted)).1
        rw [if_pos ok]
        refine iff_of_false ?_ (by simp [accepted, unstored, granted])
        rintro ⟨-, status, same, isError⟩
        cases same
        cases isError

theorem step_stays (hash : Nat → Bytes → KeyHash) (handlers : Handlers E R) (queues : Queues c mul) (stays : Stays req) :
    ∃ mul' entries, Step c (exec hash handlers c req).2 mul mul' entries req
      (exec hash handlers c req).1 := by
  cases command : prepareExecCommand req with
  | error status => exact ⟨_, _, step_refused queues command⟩
  | ok command' =>
      obtain ⟨cmd, g⟩ := command'
      by_cases queued : isTransactionCmd cmd = false
      · exact step_queued queues command queued
      · have ends := stays cmd g command
        obtain rfl : cmd = .multiCmd := by simpa [isTransactionCmd, ends] using queued
        exact ⟨_, _, step_nested queues command⟩

/-- What the requests between `MULTI` and `EXEC` do to the queue, and how they are answered. -/
structure Steps (c c' : RedisExec E) (mul mul' : RedisMultiExec) (entries : List Entry)
    (reqs : List Request) (responses : List (Response E R)) : Prop where
  queues : Queues c' mul'
  session : c'.session = c.session
  joined : Joined mul mul' entries
  abort : mul'.multiAbort = true ↔ mul.multiAbort = true ∨ ∃ req ∈ reqs, Refused req
  most : ((reqs.zip responses).filterMap acknowledged).length ≤ entries.length
  own : entries = (reqs.zip responses).filterMap acknowledged ↔ ∀ req ∈ reqs, KeysFitQueue req
  error : (∀ req ∈ reqs, KeysFitQueue req) →
    ((∃ pair ∈ reqs.zip responses, QueueingError pair) ↔
      ∃ req ∈ reqs, Refused req ∨ Unstored req)

theorem steps_stay (hash : Nat → Bytes → KeyHash) (handlers : Handlers E R) (queues : Queues c mul) {reqs : List Request}
    (stay : ∀ req ∈ reqs, Stays req) :
    ∃ mul' entries, Steps c (run (exec hash handlers) c reqs).2 mul mul' entries reqs
      (run (exec hash handlers) c reqs).1 := by
  induction reqs generalizing c mul with
  | nil => exact ⟨mul, [], queues, rfl, Joined.refl mul, by simp, by simp, by simp, by simp⟩
  | cons req rest ih =>
      obtain ⟨mul', entries, one⟩ :=
        step_stays hash handlers queues (stay req List.mem_cons_self)
      obtain ⟨mul'', more, others⟩ :=
        ih one.queues fun req member => stay req (List.mem_cons_of_mem _ member)
      have split : ((req, (exec hash handlers c req).1) ::
          rest.zip (run (exec hash handlers) (exec hash handlers c req).2 rest).1).filterMap
            acknowledged =
          (acknowledged (req, (exec hash handlers c req).1)).toList ++
            (rest.zip (run (exec hash handlers) (exec hash handlers c req).2 rest).1).filterMap
              acknowledged := by
        rw [List.filterMap_cons]
        cases acknowledged (req, (exec hash handlers c req).1) <;> rfl
      refine ⟨mul'', entries ++ more, others.queues, others.session.trans one.session,
        one.joined.trans others.joined, ?_, ?_, ?_, ?_⟩
      · rw [others.abort, one.abort]
        simp [or_assoc]
      · rw [run_cons, List.zip_cons_cons, split, List.length_append, List.length_append]
        exact Nat.add_le_add one.most others.most
      · rw [run_cons, List.zip_cons_cons, split,
          append_eq_append_iff_of_length_le one.most others.most, one.own, others.own]
        simp
      · intro fit
        rw [run_cons, List.zip_cons_cons]
        simp only [List.mem_cons, exists_eq_or_imp]
        rw [one.error (fit req List.mem_cons_self),
          others.error fun req member => fit req (List.mem_cons_of_mem _ member)]

end Exec

section Transaction

variable {E R : Type} [TableEntry E]

/-- A transaction with a queueing error is aborted, and its queue holds what was acknowledged. -/
structure Transactional (hash : Nat → Bytes → KeyHash) (handlers : Handlers E R) (c : RedisExec E)
    (reqs : List Request) (last : Request) : Prop where
  aborts : (∃ pair ∈ reqs.zip (run (exec hash handlers) c reqs).1, QueueingError pair) →
    (exec hash handlers (run (exec hash handlers) c reqs).2 last).1 = .status .errAbortTrans ∧
      (exec hash handlers (run (exec hash handlers) c reqs).2 last).2.session =
        (run (exec hash handlers) c reqs).2.session
  queued : ∃ mul mul', c.multi = some mul ∧
    (run (exec hash handlers) c reqs).2.multi = some mul' ∧
    Joined mul mul' ((reqs.zip (run (exec hash handlers) c reqs).1).filterMap acknowledged) ∧
    mul'.allKeys.length = mul.allKeys.length +
      (((reqs.zip (run (exec hash handlers) c reqs).1).filterMap acknowledged).map
        fun entry => entry.2.2.length).sum

/-- The commands whose memory and keys let the queue follow its acknowledgements. -/
structure QueueFits (reqs : List Request) : Prop where
  keys : ∀ req ∈ reqs, KeysFitQueue req
  memory : (∃ req ∈ reqs, Refused req) ∨ ∀ req ∈ reqs, ¬Unstored req

variable {hash : Nat → Bytes → KeyHash} {handlers : Handlers E R} {c : RedisExec E}
  {mul : RedisMultiExec} {last : Request} {g : Geometry}

/-- A queue that is marked is not executed. -/
theorem exec_abort (hash : Nat → Bytes → KeyHash) (handlers : Handlers E R)
    (isExec : prepareExecCommand last = .ok (.execCmd, g))
    (multi : c.multi = some mul) :
    (exec hash handlers c last).1 = .status .errAbortTrans ↔ mul.multiAbort = true := by
  rw [exec_transaction isExec rfl]
  simp only [execNow, execExec, multi]
  cases mul.multiAbort with
  | true => simp
  | false =>
      simp only [Bool.false_eq_true, if_false, iff_false]
      split
      · simp
      · split <;> simp

theorem exec_abort_session (hash : Nat → Bytes → KeyHash) (handlers : Handlers E R)
    (isExec : prepareExecCommand last = .ok (.execCmd, g))
    (multi : c.multi = some mul) (abort : mul.multiAbort = true) :
    (exec hash handlers c last).2.session = c.session := by
  rw [exec_transaction isExec rfl]
  simp [execNow, execExec, multi, abort]

/-- The messages of a queue that was just started: the watch message alone, if any. -/
def RedisMultiExec.skip (mul : RedisMultiExec) : Nat := if 0 < mul.watchCount then 1 else 0

/-- A queue that was started by `MULTI` is not marked, and holds no command. -/
theorem queues_of_started (consistent : c.Consistent)
    (isMulti : prepareExecCommand last = .ok (.multiCmd, g))
    (started : (exec hash handlers c last).1 = .status .execSendOk) :
    ∃ mul, Queues (exec hash handlers c last).2 mul ∧ mul.multiAbort = false ∧
      mul.msgList.length = mul.skip := by
  have starts (mul : RedisMultiExec) (queue : mul.Consistent false)
      (ok : (c.startMulti (R := R) mul last).1 = .status .execSendOk) :
      ∃ mul', Queues (c.startMulti (R := R) mul last).2 mul' ∧ mul'.multiAbort = false ∧
        mul'.msgList.length = mul'.skip := by
    obtain ⟨noMessages, -, noAbort⟩ := queue.idle rfl
    rw [RedisExec.startMulti] at ok ⊢
    split
    · rename_i watches
      rw [if_pos watches] at ok
      split
      · refine ⟨_, ⟨rfl, rfl, rfl⟩, noAbort, ?_⟩
        rw [RedisMultiExec.skip, if_pos (Nat.pos_of_ne_zero watches), noMessages]
        rfl
      · rename_i refused
        simp [refused] at ok
    · rename_i noWatches
      refine ⟨_, ⟨rfl, rfl, rfl⟩, noAbort, ?_⟩
      rw [RedisMultiExec.skip, if_neg (fun watches => noWatches (Nat.ne_of_gt watches))]
      exact List.length_eq_zero_iff.mpr noMessages
  rw [exec_transaction isMulti rfl] at started ⊢
  simp only [execNow, execMulti] at started ⊢
  cases multi : c.multi with
  | none =>
      simp only [multi] at started ⊢
      split at started
      · rename_i granted
        rw [if_pos granted]
        exact starts {} ⟨rfl, rfl, rfl, fun _ => ⟨rfl, rfl, rfl⟩⟩ started
      · simp at started
  | some mul =>
      have queue := consistent mul multi
      simp only [multi] at started ⊢
      split at started
      · simp at started
      · rename_i notStarted
        rw [if_neg notStarted]
        have idle : c.multiQueued = false := by simpa [queue.started] using notStarted
        exact starts mul (idle ▸ queue) started

/-- The requests of a started queue. -/
theorem transactional_of_queues (queues : Queues c mul) (noAbort : mul.multiAbort = false)
    {reqs : List Request} (stay : ∀ req ∈ reqs, Stays req)
    (isExec : prepareExecCommand last = .ok (.execCmd, g)) :
    Transactional hash handlers c reqs last ↔ QueueFits reqs := by
  obtain ⟨mul', entries, steps⟩ :=
    steps_stay hash handlers queues stay
  have marked : mul'.multiAbort = true ↔ ∃ req ∈ reqs, Refused req := by
    simp [steps.abort, noAbort]
  have aborted (abort : mul'.multiAbort = true) :=
    And.intro ((exec_abort hash handlers isExec steps.queues.multi).mpr abort)
      (exec_abort_session hash handlers isExec steps.queues.multi abort)
  constructor
  · intro transactional
    obtain ⟨mul₀, mul₁, multi, multi', joined, -⟩ := transactional.queued
    obtain rfl := Option.some.inj (queues.multi.symm.trans multi)
    obtain rfl := Option.some.inj (steps.queues.multi.symm.trans multi')
    have own := List.append_cancel_left (steps.joined.list.symm.trans joined.list)
    have keys := steps.own.mp own
    refine ⟨keys, or_iff_not_imp_left.mpr fun noneRefused req member unstored => ?_⟩
    have error := (steps.error keys).mpr ⟨req, member, .inr unstored⟩
    have abort := (exec_abort hash handlers isExec steps.queues.multi).mp (transactional.aborts error).1
    exact noneRefused (marked.mp abort)
  · intro fits
    constructor
    · intro error
      obtain ⟨req, member, refused | unstored⟩ := (steps.error fits.keys).mp error
      · exact aborted (marked.mpr ⟨req, member, refused⟩)
      · exact aborted
          (marked.mpr (fits.memory.resolve_right fun stored => stored req member unstored))
    · have joined := steps.joined
      rw [steps.own.mpr fits.keys] at joined
      exact ⟨mul, mul', queues.multi, steps.queues.multi, joined, joined.keys_length⟩

/-- A transaction started by `MULTI` is transactional exactly when its commands fit the queue. -/
theorem transactional_iff (hash : Nat → Bytes → KeyHash) (handlers : Handlers E R)
    (session : Session E) (before reqs : List Request) (first last : Request)
    (g g' : Geometry) (isMulti : prepareExecCommand first = .ok (.multiCmd, g))
    (started : (exec hash handlers (run (exec hash handlers) { session := session } before).2
      first).1 = .status .execSendOk)
    (stay : ∀ req ∈ reqs, Stays req) (isExec : prepareExecCommand last = .ok (.execCmd, g')) :
    Transactional hash handlers
        (exec hash handlers (run (exec hash handlers) { session := session } before).2 first).2
        reqs last ↔ QueueFits reqs := by
  have consistent := consistent_run hash handlers
    (RedisExec.consistent_of_none (c := { session := session }) rfl) before
  obtain ⟨mul, queues, noAbort, -⟩ := queues_of_started consistent isMulti started
  exact transactional_of_queues queues noAbort stay isExec

theorem stays_of_prepared {req : Request} (cmd : RedisCmd)
    (command : prepareExecCommand req = .ok (cmd, g)) (other : cmd ≠ .execCmd ∧ cmd ≠ .discardCmd) :
    Stays req := by
  intro cmd' g' command'
  rw [command] at command'
  cases command'
  exact other

end Transaction

section Examples

/-- An unknown command after a good one aborts the transaction. -/
theorem transactional_unknown :
    Transactional shortHash stringHandlers multiConnection
      [wordsRequest (some .getCmd) ["get", "k"], wordsRequest none ["git", "k"]] execRequest := by
  refine (transactional_iff shortHash stringHandlers emptySession [] _
    multiRequest execRequest _ _ rfl rfl ?_ rfl).mpr ⟨?_, ?_⟩
  · intro req member
    simp only [List.mem_cons, List.not_mem_nil, or_false] at member
    rcases member with rfl | rfl
    · exact stays_of_prepared .getCmd rfl (by decide)
    · intro cmd g command
      cases command
  · intro req member cmd g command granted
    simp only [List.mem_cons, List.not_mem_nil, or_false] at member
    rcases member with rfl | rfl
    · have isGet : queuedCommand (wordsRequest (some .getCmd) ["get", "k"]) =
          some (.getCmd, ⟨1, 1, 1, 0⟩) := rfl
      cases Option.some.inj (command.symm.trans isGet)
      constructor
      · decide
      · intro j inside
        rfl
      · decide
    · cases command
  · exact .inl ⟨wordsRequest none ["git", "k"], by simp, .errBadCmd, rfl⟩

/-- A command with an empty key is answered with an error, and the transaction runs. -/
theorem not_transactional_emptyKey :
    ¬∀ reqs : List Request, (∀ req ∈ reqs, Stays req) →
      Transactional shortHash stringHandlers multiConnection reqs execRequest := by
  intro all
  let req := wordsRequest (some .setCmd) ["set", "", "v"]
  have stay : ∀ req' ∈ [req], Stays req' := by
    intro req' member
    rw [List.mem_singleton] at member
    rw [member]
    exact stays_of_prepared .setCmd rfl (by decide)
  have queues : Queues multiConnection { multiStart := true } := ⟨rfl, rfl, rfl⟩
  have isExec : prepareExecCommand execRequest = .ok (.execCmd, setupCmd (cmdDb .execCmd)) := rfl
  have fits := (transactional_of_queues queues rfl stay isExec).mp (all [req] stay)
  have keys := fits.keys req List.mem_cons_self .setCmd ⟨1, 1, 1, 0⟩ rfl rfl
  have isKey : (req.msg.getArgStr 1).isSome = true := keys.strings 1 (by decide)
  have noKey : req.msg.getArgStr 1 = none := by decide
  rw [noKey] at isKey
  cases isKey

end Examples

end Raids
