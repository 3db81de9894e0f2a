import Raids.Library.FirstIndex
import Raids.Proof.Multi.Connection

namespace Raids
open Machine FirstIndex

/-- Every key of the queue has the lock of the first key with its hash, and the filter knows the
hashes. -/
structure RedisMultiExec.Linked (mul : RedisMultiExec) : Prop where
  links : mul.msgList.flatMap (·.kptr) = links EvKeyCtx.hash mul.allKeys
  lengths : ∀ mm ∈ mul.msgList, mm.kptr.length = mm.keys.length
  filtered : ∀ key ∈ mul.allKeys, filterBit key.hash.hash1 ∈ mul.filter

def RedisExec.Linked {E : Type} (c : RedisExec E) : Prop :=
  ∀ mul, c.multi = some mul → mul.Linked

/-- A message under construction behind the keys of the queue. -/
structure MsgLinked (before : List EvKeyCtx) (mm : RedisMultiMsg) (filter : List (Nat × Nat)) :
    Prop where
  links : links EvKeyCtx.hash before ++ mm.kptr = links EvKeyCtx.hash (before ++ mm.keys)
  lengths : mm.kptr.length = mm.keys.length
  filtered : ∀ key ∈ before ++ mm.keys, filterBit key.hash.hash1 ∈ filter

/-- The filter never hides a key of the queue. -/
theorem lockPosition_eq {filter : List (Nat × Nat)} {keys : List EvKeyCtx}
    (filtered : ∀ key ∈ keys, filterBit key.hash.hash1 ∈ filter) (hash : KeyHash) :
    lockPosition filter keys hash = firstIndex EvKeyCtx.hash keys hash := by
  rw [lockPosition]
  split
  · rw [getDupKctx, firstIndex, List.findIdx_eq_getD_findIdx?]
  · rename_i unknown
    refine (firstIndex_eq_length fun key member same => unknown ?_).symm
    rw [← same]
    exact filtered key member

section Queue

variable {before : List EvKeyCtx} {mm : RedisMultiMsg} {filter : List (Nat × Nat)}

theorem MsgLinked.pushKey (linked : MsgLinked before mm filter) (ctx : EvKeyCtx) :
    MsgLinked before (pushKey before ctx mm filter).1 (pushKey before ctx mm filter).2 := by
  constructor
  · rw [Raids.pushKey]
    simp only
    rw [lockPosition_eq linked.filtered, ← List.append_assoc, ← List.append_assoc, linked.links,
      links_concat]
  · simp [Raids.pushKey, linked.lengths]
  · intro key member
    rw [Raids.pushKey] at member ⊢
    simp only [← List.append_assoc] at member ⊢
    rcases List.mem_append.mp member with earlier | last
    · exact List.mem_cons_of_mem _ (linked.filtered key earlier)
    · rw [List.mem_singleton.mp last]
      exact List.mem_cons_self

theorem MsgLinked.queueKeys (linked : MsgLinked before mm filter) (hash : Bytes → KeyHash)
    (req : Request) (is : List Int) :
    MsgLinked before (queueKeys hash req before is mm filter).2.1
      (queueKeys hash req before is mm filter).2.2 := by
  induction is generalizing mm filter with
  | nil => exact linked
  | cons i rest ih =>
      rw [Raids.queueKeys]
      split
      · exact linked
      · split
        · exact ih (linked.pushKey _)
        · exact linked

/-- A finished message keeps the queue linked. -/
theorem RedisMultiExec.Linked.push {mul : RedisMultiExec} (queue : mul.Linked)
    (linked : MsgLinked mul.allKeys mm filter) (count : Nat) :
    RedisMultiExec.Linked
      { mul with msgList := mul.msgList ++ [mm], msgCount := count, filter := filter } := by
  have keys : RedisMultiExec.allKeys
      { mul with msgList := mul.msgList ++ [mm], msgCount := count, filter := filter } =
        mul.allKeys ++ mm.keys := by
    simp [RedisMultiExec.allKeys]
  constructor
  · rw [keys, ← linked.links, ← queue.links]
    simp
  · intro other member
    rcases List.mem_append.mp member with earlier | last
    · exact queue.lengths other earlier
    · rw [List.mem_singleton.mp last]
      exact linked.lengths
  · rw [keys]
    exact linked.filtered

/-- The start of a message behind a linked queue. -/
theorem RedisMultiExec.Linked.start {mul : RedisMultiExec} (queue : mul.Linked)
    (msg : Option CommandMsg) (cmd : RedisCmd) :
    MsgLinked mul.allKeys ⟨msg, cmd, [], []⟩ mul.filter := by
  constructor
  · simp
  · rfl
  · simpa using queue.filtered

theorem linked_multiQueued {mul : RedisMultiExec} (queue : mul.Linked) (hash : Bytes → KeyHash)
    (req : Request) (cmd : RedisCmd) (g : Geometry) :
    (multiQueued hash mul req cmd g).2.Linked := by
  have start := queue.start (some req.msg) cmd
  have keys := start.queueKeys hash req (keyIndices g req.msg.argc)
  have room : (if 0 < g.first then calcKeyCount g req.msg.argc else 0) = keyCount req g := rfl
  simp only [multiQueued, room]
  split
  · split
    · have pushed := queue.push keys (mul.msgCount + 1)
      split
      · exact pushed
      · split <;> exact pushed
    · exact queue.push start (mul.msgCount + 1)
  · exact queue

/-- The watch message is a message with the keys of the watch list. -/
theorem watchMsg_linked (mul : RedisMultiExec) :
    MsgLinked [] mul.watchMsg.1 mul.watchMsg.2 ∧ mul.watchMsg.1.msg = none ∧
      mul.watchMsg.1.keys = mul.watchList.map (·.key) := by
  have pushes (list : List RedisWatchList) (mm : RedisMultiMsg) (filter : List (Nat × Nat))
      (linked : MsgLinked [] mm filter) :
      let result := list.foldl
        (fun (pair : RedisMultiMsg × List (Nat × Nat)) wl => pushKey [] wl.key pair.1 pair.2)
        (mm, filter)
      MsgLinked [] result.1 result.2 ∧ result.1.msg = mm.msg ∧
        result.1.keys = mm.keys ++ list.map (·.key) := by
    induction list generalizing mm filter with
    | nil => simpa using linked
    | cons wl rest ih =>
        have more := ih _ _ (linked.pushKey wl.key)
        simp only [List.foldl_cons]
        refine ⟨more.1, more.2.1, more.2.2.trans ?_⟩
        simp [Raids.pushKey]
  have start : MsgLinked [] ⟨none, .watchCmd, [], []⟩ mul.filter := ⟨rfl, rfl, by simp⟩
  have pushed := pushes mul.watchList _ _ start
  exact ⟨pushed.1, pushed.2.1, pushed.2.2⟩

end Queue

section Lock

variable {E : Type} {db : Keyspace E}

/-- A lock tells whether the table has the key. -/
def lockedKey (db : Keyspace E) (key : EvKeyCtx) : EvKeyCtx :=
  { key with kstatus := acquire db key.hash }

def lockedMsg (db : Keyspace E) (mm : RedisMultiMsg) : RedisMultiMsg :=
  { mm with keys := mm.keys.map (lockedKey db) }

/-- A key in front of which the hash occurs finds the status of the lock. -/
theorem find?_lockedKey {before : List EvKeyCtx} {key : EvKeyCtx}
    (present : ∃ other ∈ before, other.hash = key.hash) :
    ((before.map (lockedKey db) ++ [key]).find? (·.hash = key.hash)).elim key.kstatus (·.kstatus) =
      acquire db key.hash := by
  cases found : before.find? (·.hash = key.hash) with
  | none =>
      obtain ⟨other, member, same⟩ := present
      exact absurd same (by simpa using List.find?_eq_none.mp found other member)
  | some other =>
      have same : other.hash = key.hash := by simpa using List.find?_some found
      have moved : (before.map (lockedKey db)).find? (·.hash = key.hash) =
          some (lockedKey db other) := by
        rw [List.find?_map]
        exact congrArg _ found
      rw [List.find?_append, moved]
      simp [lockedKey, same]

theorem lockKeys_eq (db : Keyspace E) (before keys after : List EvKeyCtx) :
    lockKeys db (before.map (lockedKey db)) keys
        (keys.map fun key => firstIndex EvKeyCtx.hash (before ++ keys ++ after) key.hash) =
      keys.map (lockedKey db) := by
  induction keys generalizing before with
  | nil => rfl
  | cons key rest ih =>
      have first : firstIndex EvKeyCtx.hash (before ++ key :: (rest ++ after)) key.hash =
          firstIndex EvKeyCtx.hash before key.hash := by
        calc firstIndex EvKeyCtx.hash (before ++ key :: (rest ++ after)) key.hash
            = firstIndex EvKeyCtx.hash (before ++ [key] ++ (rest ++ after)) key.hash := by simp
          _ = firstIndex EvKeyCtx.hash (before ++ [key]) key.hash :=
              firstIndex_append ⟨key, by simp, rfl⟩
          _ = firstIndex EvKeyCtx.hash before key.hash := firstIndex_concat
      have status : (if firstIndex EvKeyCtx.hash before key.hash = before.length then
            acquire db key.hash
          else ((before.map (lockedKey db) ++ [key]).find? (·.hash = key.hash)).elim key.kstatus
            (·.kstatus)) = acquire db key.hash := by
        split
        · rfl
        · rename_i inside
          have bound := firstIndex_le_length EvKeyCtx.hash before key.hash
          exact find?_lockedKey (firstIndex_lt_iff.mp (by omega))
      have more := ih (before ++ [key])
      simp only [List.append_assoc, List.singleton_append, List.map_append, List.map_singleton]
        at more
      simp only [List.map_cons, lockKeys, List.head?_cons, List.tail_cons, Option.some.injEq,
        List.length_map, List.append_assoc, List.cons_append]
      simp only [first, status]
      exact congrArg (lockedKey db key :: ·) more

/-- The locks of a linked queue agree with the table. -/
theorem multiTryLock_eq (before : List EvKeyCtx) (msgs : List RedisMultiMsg)
    (lengths : ∀ mm ∈ msgs, mm.kptr.length = mm.keys.length)
    (positions : msgs.flatMap (·.kptr) = (msgs.flatMap (·.keys)).map fun key =>
      firstIndex EvKeyCtx.hash (before ++ msgs.flatMap (·.keys)) key.hash) :
    multiTryLock db (before.map (lockedKey db)) msgs = msgs.map (lockedMsg db) := by
  induction msgs generalizing before with
  | nil => rfl
  | cons mm rest ih =>
      simp only [List.flatMap_cons, List.map_append] at positions
      obtain ⟨own, others⟩ := List.append_inj positions (by simp [lengths mm List.mem_cons_self])
      have keys := lockKeys_eq db before mm.keys (rest.flatMap (·.keys))
      rw [List.append_assoc, ← own] at keys
      have more := ih (before ++ mm.keys) (fun other member =>
        lengths other (List.mem_cons_of_mem _ member)) (by rw [others, List.append_assoc])
      rw [List.map_append] at more
      simp only [multiTryLock, keys, more]
      rfl

theorem RedisMultiExec.Linked.multiTryLock {mul : RedisMultiExec} (queue : mul.Linked) :
    multiTryLock db [] mul.msgList = mul.msgList.map (lockedMsg db) := by
  refine multiTryLock_eq [] mul.msgList queue.lengths ?_
  rw [queue.links]
  rfl

end Lock

section Connection

variable {E R : Type} {c : RedisExec E} {mul : RedisMultiExec} {req : Request}

theorem RedisExec.linked_of_none (none' : c.multi = none) : c.Linked := by
  intro mul some'
  rw [none'] at some'
  cases some'

theorem linked_withMulti (queue : mul.Linked) : (c.withMulti mul).Linked := by
  rintro _ ⟨⟩
  exact queue

/-- The watch message alone is a linked queue. -/
theorem linked_watchMsg (mul : RedisMultiExec) (noMessages : mul.msgList = []) (count : Nat) :
    RedisMultiExec.Linked
      { mul with
        msgList := mul.watchMsg.1 :: mul.msgList, msgCount := count, filter := mul.watchMsg.2 } := by
  obtain ⟨linked, -, -⟩ := watchMsg_linked mul
  constructor
  · simpa [RedisMultiExec.allKeys, noMessages] using linked.links
  · simpa [noMessages] using linked.lengths
  · simpa [RedisMultiExec.allKeys, noMessages] using linked.filtered

theorem linked_startMulti (consistent : mul.Consistent false) (queue : mul.Linked) :
    (c.startMulti (R := R) mul req).2.Linked := by
  obtain ⟨noMessages, -, -⟩ := consistent.idle rfl
  have sameQueue : RedisMultiExec.Linked { mul with multiStart := true } :=
    ⟨queue.links, queue.lengths, queue.filtered⟩
  rw [RedisExec.startMulti]
  split
  · split
    · rintro _ ⟨⟩
      exact linked_watchMsg { mul with multiStart := true } noMessages _
    · rintro _ ⟨⟩
      exact sameQueue
  · rintro _ ⟨⟩
    exact sameQueue

theorem linked_new : RedisMultiExec.Linked {} := ⟨rfl, by simp, by simp [RedisMultiExec.allKeys]⟩

theorem linked_execMulti (consistent : c.Consistent) (linked : c.Linked) :
    (execMulti (R := R) c req).2.Linked := by
  rw [execMulti]
  split
  · rename_i mul some'
    split
    · exact linked
    · rename_i notStarted
      have queue := consistent mul some'
      have started := queue.started
      rw [show c.multiQueued = false by simpa [started] using notStarted] at queue
      exact linked_startMulti queue (linked mul some')
  · split
    · exact linked_startMulti ⟨rfl, rfl, rfl, fun _ => ⟨rfl, rfl, rfl⟩⟩ linked_new
    · exact linked

theorem linked_execDiscard (linked : c.Linked) : (execDiscard (R := R) c).2.Linked := by
  rw [execDiscard]
  split
  · exact linked
  · exact RedisExec.linked_of_none RedisExec.discardMulti_multi

theorem linked_execUnwatch (linked : c.Linked) : (execUnwatch (R := R) c).2.Linked := by
  rw [execUnwatch]
  split
  · exact linked
  · rename_i mul some'
    have queue := linked mul some'
    split
    · exact RedisExec.linked_of_none RedisExec.discardMulti_multi
    · exact linked_withMulti ⟨queue.links, queue.lengths, queue.filtered⟩

theorem linked_abort (linked : c.Linked) : c.abort.Linked := by
  rw [RedisExec.abort]
  split
  · rename_i queued
    have queue := linked _ (Option.some_get (c.queueing queued)).symm
    exact linked_withMulti ⟨queue.links, queue.lengths, queue.filtered⟩
  · exact linked

theorem linked_queueCommand (hash : Nat → Bytes → KeyHash) (linked : c.Linked)
    (queued : c.multiQueued = true) (cmd : RedisCmd) (g : Geometry) :
    (queueCommand (R := R) hash c queued req cmd g).2.Linked := by
  have queue := linked _ (Option.some_get (c.queueing queued)).symm
  exact linked_withMulti (linked_multiQueued queue (hash c.session.dbNum) req cmd g)

variable [TableEntry E]

theorem linked_execWatch (linked : c.Linked) (req : Request) (idx : Nat) (ctx : EvKeyCtx) :
    (execWatch c req idx ctx).2.Linked := by
  rw [execWatch]
  simp only
  split
  · rename_i mul some'
    have queue := linked mul some'
    split
    · exact linked_withMulti ⟨queue.links, queue.lengths, queue.filtered⟩
    · exact linked_withMulti queue
  · split
    · split
      · exact linked_withMulti ⟨linked_new.links, linked_new.lengths, linked_new.filtered⟩
      · exact linked_withMulti linked_new
    · exact linked

theorem linked_watchKeys (keys : List EvKeyCtx) (linked : c.Linked) (idx : Nat) :
    (watchKeys req c idx keys).2.Linked := by
  induction keys generalizing c idx with
  | nil => exact linked
  | cons ctx rest ih =>
      have one := linked_execWatch linked req idx ctx
      cases watched : execWatch c req idx ctx with
      | mk status c' =>
          rw [watched] at one
          simp only [watchKeys, watched]
          split
          · exact ih one (idx + 1)
          · exact one

variable {hash : Nat → Bytes → KeyHash} {handlers : Handlers E R}

/-- Every request keeps the queue linked. -/
theorem linked_exec (hash : Nat → Bytes → KeyHash) (handlers : Handlers E R)
    (consistent : c.Consistent) (linked : c.Linked) (req : Request) :
    (exec hash handlers c req).2.Linked := by
  rw [exec]
  split
  · exact linked_abort linked
  · split
    · exact linked_queueCommand hash linked _ _ _
    · unfold execNow
      split
      · rw [execExec]
        split
        · exact linked
        · simp only
          repeat' split
          all_goals exact RedisExec.linked_of_none RedisExec.discardMulti_multi
      · exact linked_execMulti consistent linked
      · exact linked_execDiscard linked
      · exact linked_execUnwatch linked
      · split
        · exact linked
        · split
          · exact linked_watchKeys _ linked 0
          · exact linked

/-- A queue stays linked over every run. -/
theorem linked_run (hash : Nat → Bytes → KeyHash) (handlers : Handlers E R)
    (consistent : c.Consistent) (linked : c.Linked) (reqs : List Request) :
    (run (exec hash handlers) c reqs).2.Linked :=
  (inv_run (fun c : RedisExec E => c.Consistent ∧ c.Linked)
    (fun _ req both => ⟨consistent_exec hash handlers both.1 req,
      linked_exec hash handlers both.1 both.2 req⟩)
    ⟨consistent, linked⟩ reqs).2

end Connection

end Raids
