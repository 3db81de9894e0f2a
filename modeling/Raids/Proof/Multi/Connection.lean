import Raids.Proof.Multi.Queue

namespace Raids
open Machine

/-- The counters agree with the lists, and nothing is queued before the transaction starts. -/
structure RedisMultiExec.Consistent (mul : RedisMultiExec) (queued : Bool) : Prop where
  started : mul.multiStart = queued
  messages : mul.msgCount = mul.msgList.length
  watches : mul.watchCount = mul.watchList.length
  idle : queued = false → mul.msgList = [] ∧ mul.filter = [] ∧ mul.multiAbort = false

def RedisExec.Consistent {E : Type} (c : RedisExec E) : Prop :=
  ∀ mul, c.multi = some mul → mul.Consistent c.multiQueued

section Steps

variable {E R : Type} {c : RedisExec E} {mul : RedisMultiExec} {req : Request}

theorem RedisExec.discardMulti_none (none' : c.multi = none) : c.discardMulti = c := by
  rw [RedisExec.discardMulti]
  split
  · rfl
  · rename_i some'
    rw [none'] at some'
    cases some'

@[simp] theorem RedisExec.discardMulti_multi : c.discardMulti.multi = none := by
  rw [RedisExec.discardMulti]
  split
  · assumption
  · rfl

@[simp] theorem RedisExec.discardMulti_session : c.discardMulti.session = c.session := by
  rw [RedisExec.discardMulti]
  split <;> rfl

theorem RedisExec.consistent_of_none (none' : c.multi = none) : c.Consistent := by
  intro mul some'
  rw [none'] at some'
  cases some'

theorem consistent_withMulti (queue : mul.Consistent c.multiQueued) :
    (c.withMulti mul).Consistent := by
  rintro _ ⟨⟩
  exact queue

theorem consistent_discardMulti : c.discardMulti.Consistent :=
  RedisExec.consistent_of_none RedisExec.discardMulti_multi

theorem consistent_execDiscard (consistent : c.Consistent) :
    (execDiscard (R := R) c).2.Consistent := by
  rw [execDiscard]
  split
  · exact consistent
  · exact consistent_discardMulti

theorem consistent_startMulti (consistent : mul.Consistent false) :
    (c.startMulti (R := R) mul req).2.Consistent := by
  obtain ⟨noMessages, noFilter, noAbort⟩ := consistent.idle rfl
  have messages := consistent.messages
  have watches := consistent.watches
  rw [RedisExec.startMulti]
  split
  · split
    · rintro _ ⟨⟩
      exact ⟨rfl, by simp [messages], watches, nofun⟩
    · rintro _ ⟨⟩
      exact ⟨rfl, messages, watches, nofun⟩
  · rintro _ ⟨⟩
    exact ⟨rfl, messages, watches, nofun⟩

theorem consistent_execMulti (consistent : c.Consistent) :
    (execMulti (R := R) c req).2.Consistent := by
  rw [execMulti]
  split
  · rename_i mul some'
    split
    · exact consistent
    · rename_i notStarted
      have queue := consistent mul some'
      have started := queue.started
      rw [show c.multiQueued = false by simpa [started] using notStarted] at queue
      exact consistent_startMulti queue
  · split
    · exact consistent_startMulti ⟨rfl, rfl, rfl, fun _ => ⟨rfl, rfl, rfl⟩⟩
    · exact consistent

theorem consistent_execUnwatch (consistent : c.Consistent) :
    (execUnwatch (R := R) c).2.Consistent := by
  rw [execUnwatch]
  split
  · exact consistent
  · rename_i mul some'
    have queue := consistent mul some'
    split
    · exact consistent_discardMulti
    · rintro _ ⟨⟩
      exact ⟨queue.started, queue.messages, rfl, queue.idle⟩

theorem consistent_abort (consistent : c.Consistent) : c.abort.Consistent := by
  rw [RedisExec.abort]
  split
  · rename_i queued
    have queue := consistent _ (Option.some_get (c.queueing queued)).symm
    apply consistent_withMulti
    exact ⟨queue.started, queue.messages, queue.watches, fun idle => by simp [queued] at idle⟩
  · exact consistent

/-- The queue grows by at most one message, which is counted. -/
theorem multiQueued_grows (hash : Bytes → KeyHash) (mul : RedisMultiExec) (req : Request)
    (cmd : RedisCmd) (g : Geometry) :
    (multiQueued hash mul req cmd g).2 = mul ∨
      ∃ mm filter, (multiQueued hash mul req cmd g).2 =
        { mul with
          msgList := mul.msgList ++ [mm], msgCount := mul.msgCount + 1, filter := filter } := by
  cases granted : req.grants .message with
  | false => exact .inl (by rw [multiQueued_refused hash mul cmd granted])
  | true =>
      obtain ⟨mm, filter, pushed, -⟩ := multiQueued_pushes hash mul cmd granted (g := g)
      exact .inr ⟨mm, filter, pushed⟩

theorem consistent_multiQueued (hash : Bytes → KeyHash) (queue : mul.Consistent true)
    (req : Request) (cmd : RedisCmd) (g : Geometry) : (multiQueued hash mul req cmd g).2.Consistent true := by
  rcases multiQueued_grows hash mul req cmd g with same | ⟨mm, filter, pushed⟩
  · rw [same]
    exact queue
  · rw [pushed]
    exact ⟨queue.started, by simp [queue.messages], queue.watches, nofun⟩

theorem consistent_queueCommand (hash : Nat → Bytes → KeyHash) (consistent : c.Consistent)
    (queued : c.multiQueued = true)
    (cmd : RedisCmd) (g : Geometry) :
    (queueCommand (R := R) hash c queued req cmd g).2.Consistent := by
  have queue := consistent _ (Option.some_get (c.queueing queued)).symm
  rw [queued] at queue
  have grown := consistent_multiQueued (hash c.session.dbNum) queue req cmd g
  rw [← queued] at grown
  exact consistent_withMulti grown

section Table

variable [TableEntry E]

theorem consistent_execWatch (consistent : c.Consistent) (req : Request) (idx : Nat)
    (ctx : EvKeyCtx) :
    (execWatch c req idx ctx).2.Consistent := by
  rw [execWatch]
  simp only
  split
  · rename_i mul some'
    have queue := consistent mul some'
    split
    · rintro _ ⟨⟩
      exact ⟨queue.started, queue.messages, by simp [queue.watches], queue.idle⟩
    · rintro _ ⟨⟩
      exact queue
  · rename_i none'
    have idle : c.multiQueued = false := by
      by_contra queued
      simpa [none'] using c.queueing (by simpa using queued)
    split
    · split
      · rintro _ ⟨⟩
        exact ⟨idle.symm, rfl, rfl, fun _ => ⟨rfl, rfl, rfl⟩⟩
      · rintro _ ⟨⟩
        exact ⟨idle.symm, rfl, rfl, fun _ => ⟨rfl, rfl, rfl⟩⟩
    · intro mul some'
      exact consistent mul some'

theorem consistent_watchKeys (keys : List EvKeyCtx) (consistent : c.Consistent) (idx : Nat) :
    (watchKeys req c idx keys).2.Consistent := by
  induction keys generalizing c idx with
  | nil => exact consistent
  | cons ctx rest ih =>
      have one := consistent_execWatch consistent req idx ctx
      cases watched : execWatch c req idx ctx with
      | mk status c' =>
          rw [watched] at one
          simp only [watchKeys, watched]
          split
          · exact ih one (idx + 1)
          · exact one

variable {hash : Nat → Bytes → KeyHash} {handlers : Handlers E R}

theorem consistent_execExec (consistent : c.Consistent) :
    (execExec handlers c req).2.Consistent := by
  rw [execExec]
  split
  · exact consistent
  · simp only
    repeat' split
    all_goals exact RedisExec.consistent_of_none RedisExec.discardMulti_multi

theorem consistent_execNow (consistent : c.Consistent) (cmd : RedisCmd) (g : Geometry) :
    (execNow hash handlers c req cmd g).2.Consistent := by
  unfold execNow
  split
  · exact consistent_execExec consistent
  · exact consistent_execMulti consistent
  · exact consistent_execDiscard consistent
  · exact consistent_execUnwatch consistent
  · split
    · exact consistent
    · split
      · exact consistent_watchKeys _ consistent 0
      · exact consistent

theorem exec_refused {status : ExecStatus} (refused : prepareExecCommand req = .error status) :
    exec hash handlers c req = (.status status, c.abort) := by
  rw [exec, refused]

variable {cmd : RedisCmd} {g : Geometry}

theorem exec_queue (command : prepareExecCommand req = .ok (cmd, g))
    (queued : c.multiQueued = true) (plain : isTransactionCmd cmd = false) :
    exec hash handlers c req = queueCommand hash c queued req cmd g := by
  rw [exec, command]
  exact dif_pos ⟨queued, plain⟩

theorem exec_now (command : prepareExecCommand req = .ok (cmd, g))
    (now : ¬(c.multiQueued = true ∧ isTransactionCmd cmd = false)) :
    exec hash handlers c req = execNow hash handlers c req cmd g := by
  rw [exec, command]
  exact dif_neg now

theorem exec_transaction (command : prepareExecCommand req = .ok (cmd, g))
    (transaction : isTransactionCmd cmd = true) :
    exec hash handlers c req = execNow hash handlers c req cmd g :=
  exec_now command (by simp [transaction])

/-- Every request keeps the connection consistent. -/
theorem consistent_exec (hash : Nat → Bytes → KeyHash) (handlers : Handlers E R)
    (consistent : c.Consistent) (req : Request) :
    (exec hash handlers c req).2.Consistent := by
  rw [exec]
  split
  · exact consistent_abort consistent
  · split
    · exact consistent_queueCommand hash consistent _ _ _
    · exact consistent_execNow consistent _ _

/-- A connection that starts without a queue stays consistent. -/
theorem consistent_run (hash : Nat → Bytes → KeyHash) (handlers : Handlers E R)
    (consistent : c.Consistent) (reqs : List Request) :
    (run (exec hash handlers) c reqs).2.Consistent :=
  inv_run RedisExec.Consistent (fun _ req consistent => consistent_exec hash handlers consistent req)
    consistent reqs

end Table

end Steps

end Raids
