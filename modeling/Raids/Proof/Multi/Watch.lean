import Raids.Construction.Multi.Connection
import Raids.Proof.Multi.Lock

namespace Raids
open Machine FirstIndex

section Client

variable {E : Type} [TableEntry E]

/-- The stamp of a key is the serial number of its entry, if it has one. -/
def stamp (db : Keyspace E) (hash : KeyHash) : Option Nat := (db hash).map TableEntry.serial

/-- A key that expired is removed before it is watched. -/
def liveStamp (db : Keyspace E) (hash : KeyHash) : Option Nat :=
  if isExpired db hash then none else stamp db hash

/-- What a client knows of its connection: whether it is inside a `MULTI`, whether a command of
it was refused, and the stamps of the keys that it watches. -/
structure Watching where
  inMulti : Bool := false
  refused : Bool := false
  watched : List (KeyHash × Option Nat) := []

/-- The meaning of a command that is not queued. -/
def Watching.command (w : Watching) (hash : Bytes → KeyHash) (db : Keyspace E) (req : Request)
    (cmd : RedisCmd) (g : Geometry) : Watching :=
  match cmd with
  | .multiCmd => { w with inMulti := true }
  | .execCmd | .discardCmd => if w.inMulti then {} else w
  | .unwatchCmd => { w with watched := [] }
  | .watchCmd =>
      match execSetup hash req g with
      | .error _ => w
      | .ok keys =>
          { w with watched := w.watched ++ keys.map fun ctx => (ctx.hash, liveStamp db ctx.hash) }
  | _ => w

def Watching.request (w : Watching) (hash : Bytes → KeyHash) (db : Keyspace E) (req : Request) :
    Watching :=
  match prepareExecCommand req with
  | .error _ => { w with refused := w.refused || w.inMulti }
  | .ok (cmd, g) =>
      if w.inMulti = true ∧ isTransactionCmd cmd = false then w
      else w.command hash db req cmd g

/-- No watched key has another stamp. -/
def Unchanged (db : Keyspace E) (w : Watching) : Prop :=
  ∀ watch ∈ w.watched, stamp db watch.1 = watch.2

/-- The connection sends requests, and others write to the table. -/
inductive Act (E : Type) where
  | request (req : Request)
  | others (db : Keyspace E)

variable {R : Type}

/-- The connection and its client take the same steps. -/
def watchStep (hash : Nat → Bytes → KeyHash) (handlers : Handlers E R)
    (s : RedisExec E × Watching) : Act E → Option (Response E R) × (RedisExec E × Watching)
  | .request req =>
      (some (exec hash handlers s.1 req).1,
        (exec hash handlers s.1 req).2,
        s.2.request (hash s.1.session.dbNum) s.1.session.db req)
  | .others db => (none, { s.1 with session := { s.1.session with db := db } }, s.2)

def RedisWatchList.watch (wl : RedisWatchList) : KeyHash × Option Nat :=
  (wl.key.hash, if wl.serial = 0 then none else some wl.serial)

/-- The keys that the connection watches, with their stamps. -/
def RedisExec.watches (c : RedisExec E) : List (KeyHash × Option Nat) :=
  c.multi.elim [] fun mul => mul.watchList.map RedisWatchList.watch

end Client

/-- The answer to `EXEC` holds the replies of a queue that was executed. -/
def Executed {E R : Type} (response : Option (Response E R)) : Prop :=
  ∃ count logs, response = some (.transaction count logs)

section Law

variable {E R : Type} [TableEntry E] (hash : Nat → Bytes → KeyHash) (handlers : Handlers E R)
  (s : RedisExec E × Watching)

/-- The law of optimistic locking for one step. -/
structure Optimistic (act : Act E) : Prop where
  before : s.1.watches = s.2.watched
  after : (watchStep hash handlers s act).2.1.watches = (watchStep hash handlers s act).2.2.watched
  executes : ∀ req g, act = .request req → prepareExecCommand req = .ok (.execCmd, g) →
    (Executed (watchStep hash handlers s act).1 ↔
      s.2.inMulti = true ∧ s.2.refused = false ∧ Unchanged s.1.session.db s.2)
  replies : ∀ req g, act = .request req → prepareExecCommand req = .ok (.execCmd, g) →
    s.2.inMulti = true → ¬Executed (watchStep hash handlers s act).1 →
      (watchStep hash handlers s act).1 =
          some (.status (if s.2.refused then .errAbortTrans else .execSendNull)) ∧
        (watchStep hash handlers s act).2.1.session = s.1.session
  clears : ∀ req cmd g, act = .request req → prepareExecCommand req = .ok (cmd, g) →
    (cmd = .execCmd ∨ cmd = .discardCmd) ∧ s.2.inMulti = true ∨
        cmd = .unwatchCmd ∧ s.2.inMulti = false →
      (watchStep hash handlers s act).2.1.watches = []
  outside : ∀ req cmd g, act = .request req → prepareExecCommand req = .ok (cmd, g) →
    cmd = .execCmd ∨ cmd = .discardCmd → s.2.inMulti = false →
      (∃ status : ExecStatus,
        (watchStep hash handlers s act).1 = some (.status status) ∧ status.isError) ∧
      (watchStep hash handlers s act).2.1 = s.1

omit [TableEntry E] in
/-- The request finds its memory, and `EXEC` and `DISCARD` come outside of a `MULTI` only when
nothing is watched. -/
structure Orderly (s : RedisExec E × Watching) (act : Act E) : Prop where
  memory : ∀ req, act = .request req → req.grants .multi = true ∧
    (∀ idx, req.grants (.watch idx) = true) ∧ req.grants .watchMsg = true ∧
    req.grants .result = true
  inside : ∀ req cmd g, act = .request req → prepareExecCommand req = .ok (cmd, g) →
    cmd = .execCmd ∨ cmd = .discardCmd → s.2.inMulti = false → s.2.watched = []

end Law

/-- The watch message is the first of the queue. -/
def RedisMultiExec.HeadWatches (mul : RedisMultiExec) : Prop :=
  ∃ mm rest, mul.msgList = mm :: rest ∧ mm.msg = none ∧ mm.keys = mul.watchList.map (·.key)

/-- The connection and its client agree, and a queue with watches starts with their message. -/
structure Agrees {E : Type} (c : RedisExec E) (w : Watching) : Prop where
  inMulti : w.inMulti = c.multiQueued
  watches : c.watches = w.watched
  refused : w.refused = c.multi.elim false (·.multiAbort)
  nonempty : ∀ mul, c.multi = some mul → c.multiQueued = false → mul.watchList ≠ []
  head : ∀ mul, c.multi = some mul → c.multiQueued = true → mul.watchList ≠ [] → mul.HeadWatches

structure WatchInv {E : Type} (s : RedisExec E × Watching) : Prop where
  consistent : s.1.Consistent
  linked : s.1.Linked
  agrees : Agrees s.1 s.2

section Check

variable {E : Type} {db : Keyspace E} {mul : RedisMultiExec}

/-- The queue while its keys are locked. -/
def RedisMultiExec.locked (mul : RedisMultiExec) (db : Keyspace E) : RedisMultiExec :=
  { mul with msgList := multiTryLock db [] mul.msgList }

theorem allKeys_locked (queue : mul.Linked) :
    (mul.locked db).allKeys = mul.allKeys.map (lockedKey db) := by
  rw [RedisMultiExec.allKeys, RedisMultiExec.locked, queue.multiTryLock, RedisMultiExec.allKeys,
    List.map_flatMap, List.flatMap_map]
  rfl

/-- The status of a watched key is the one of its lock. -/
theorem watchStatus_locked (db : Keyspace E) (queue : mul.Linked) (head : mul.HeadWatches) {i : Nat}
    {wl : RedisWatchList} (watched : mul.watchList[i]? = some wl) :
    (mul.locked db).watchStatus i wl = acquire db wl.key.hash := by
  obtain ⟨⟨msg, cmd, keys, kptr⟩, rest, msgs, rfl, rfl⟩ := head
  have list : (mul.locked db).msgList =
      lockedMsg db ⟨none, cmd, mul.watchList.map (·.key), kptr⟩ :: rest.map (lockedMsg db) := by
    rw [RedisMultiExec.locked, queue.multiTryLock, msgs, List.map_cons]
  rw [RedisMultiExec.watchStatus, list]
  simp [lockedMsg, lockedKey, watched]

/-- The lock of a watched key is for its hash. -/
theorem watchLock_locked (db : Keyspace E) (queue : mul.Linked) (head : mul.HeadWatches) {i : Nat}
    {wl : RedisWatchList} (watched : mul.watchList[i]? = some wl) :
    ∃ lock, (mul.locked db).watchLock i = some lock ∧ lock.hash = wl.key.hash := by
  obtain ⟨mm, rest, msgs, -, keys⟩ := head
  have key : mm.keys[i]? = some wl.key := by
    rw [keys, List.getElem?_map, watched]
    rfl
  have inside : i < mm.keys.length := (List.getElem?_eq_some_iff.mp key).1
  have length := queue.lengths mm (by simp [msgs])
  have position : mm.kptr[i]? = some (firstIndex EvKeyCtx.hash mul.allKeys wl.key.hash) := by
    have links := congrArg (fun list => list[i]?) queue.links
    simp only [RedisMultiExec.allKeys, msgs, List.flatMap_cons, FirstIndex.links,
      List.getElem?_map] at links
    rw [List.getElem?_append_left (by omega), List.getElem?_append_left inside, key] at links
    simpa [RedisMultiExec.allKeys, msgs] using links
  have present : ∃ other ∈ mul.allKeys, other.hash = wl.key.hash := by
    refine ⟨wl.key, ?_, rfl⟩
    rw [RedisMultiExec.allKeys, msgs, List.flatMap_cons]
    exact List.mem_append_left _ (List.mem_of_getElem? key)
  obtain ⟨owner, found, sameHash⟩ := getElem?_firstIndex present
  have list : (mul.locked db).msgList = lockedMsg db mm :: rest.map (lockedMsg db) := by
    rw [RedisMultiExec.locked, queue.multiTryLock, msgs, List.map_cons]
  refine ⟨lockedKey db owner, ?_, sameHash⟩
  rw [RedisMultiExec.watchLock, allKeys_locked queue, list]
  simp [lockedMsg, position, found]

variable [TableEntry E]

theorem stamp_eq_iff {hash : KeyHash} {serial : Nat} :
    stamp db hash = (if serial = 0 then none else some serial) ↔
      if (db hash).isSome then serial = serialOf (db hash) else serial = 0 := by
  rw [stamp, serialOf]
  cases entry : db hash with
  | none => by_cases zero : serial = 0 <;> simp [zero]
  | some e =>
      have positive := TableEntry.serial_pos e
      by_cases zero : serial = 0
      · simp [zero]
        omega
      · simp [zero, eq_comm]

/-- The check of one watched key compares its stamps. -/
theorem watchChanged_iff (queue : mul.Linked) (head : mul.HeadWatches) {i : Nat}
    {wl : RedisWatchList} (watched : mul.watchList[i]? = some wl) :
    watchChanged db (mul.locked db) i wl = true ↔ stamp db wl.key.hash ≠ wl.watch.2 := by
  have status := watchStatus_locked db queue head watched
  obtain ⟨lock, isLock, sameHash⟩ := watchLock_locked db queue head watched
  have same : stamp db wl.key.hash = wl.watch.2 ↔ _ := stamp_eq_iff
  rw [watchChanged, status, isLock]
  refine Iff.trans ?_ (not_congr same).symm
  simp only [acquire, sameHash]
  by_cases present : (db wl.key.hash).isSome
  · simp [present]
  · simp [present]

theorem anyChanged_iff (db : Keyspace E) (mul : RedisMultiExec) (P : RedisWatchList → Prop) (list : List RedisWatchList) (i : Nat)
    (one : ∀ j wl, list[j]? = some wl → (watchChanged db mul (i + j) wl = true ↔ P wl)) :
    anyChanged db mul i list = true ↔ ∃ wl ∈ list, P wl := by
  induction list generalizing i with
  | nil => simp [anyChanged]
  | cons wl rest ih =>
      have more := ih (i + 1) fun j other found => by
        have shifted := one (j + 1) other (by simpa using found)
        rwa [show i + (j + 1) = i + 1 + j by omega] at shifted
      have first := one 0 wl rfl
      simp only [Nat.add_zero] at first
      simp [anyChanged, first, more]

theorem anyChanged_locked (db : Keyspace E) (queue : mul.Linked) (head : mul.watchList ≠ [] → mul.HeadWatches)
    {w : Watching} (watches : mul.watchList.map RedisWatchList.watch = w.watched) :
    anyChanged db (mul.locked db) 0 mul.watchList = true ↔ ¬Unchanged db w := by
  have compare := anyChanged_iff db (mul.locked db)
    (fun wl => stamp db wl.key.hash ≠ wl.watch.2) mul.watchList 0 fun j wl found => by
      rw [Nat.zero_add]
      refine watchChanged_iff queue (head ?_) found
      rintro empty
      simp [empty] at found
  rw [compare, Unchanged, ← watches]
  simp [RedisWatchList.watch]

end Check

section Exec

variable {E R : Type} [TableEntry E] {handlers : Handlers E R} {c : RedisExec E}
  {mul : RedisMultiExec} {req : Request} {w : Watching}

theorem execExec_none (multi : c.multi = none) :
    execExec handlers c req = (.status .errBadExec, c) := by
  simp [execExec, multi]

/-- The queue of a connection is executed unless it is marked or a watched key changed. -/
theorem execExec_some (handlers : Handlers E R) (multi : c.multi = some mul) (queue : mul.Linked)
    (consistent : mul.Consistent c.multiQueued) (head : mul.watchList ≠ [] → mul.HeadWatches)
    (watches : mul.watchList.map RedisWatchList.watch = w.watched)
    (granted : req.grants .result = true) :
    (execExec handlers c req).2.multi = none ∧
      (Executed (some (execExec handlers c req).1) ↔
        mul.multiAbort = false ∧ Unchanged c.session.db w) ∧
      (¬Executed (some (execExec handlers c req).1) →
        (execExec handlers c req).1 =
            .status (if mul.multiAbort then .errAbortTrans else .execSendNull) ∧
          (execExec handlers c req).2.session = c.session) := by
  have notExecuted (status : ExecStatus) :
      ¬Executed (some (Response.status status : Response E R)) := by
    rintro ⟨count, logs, same⟩
    cases same
  simp only [execExec, multi]
  split
  · rename_i abort
    exact ⟨by simp, iff_of_false (notExecuted _) (by simp [abort]), by simp⟩
  · rename_i live
    have compare := anyChanged_locked c.session.db queue head watches
    have stale : (0 < mul.watchCount ∧ (mul.msgCount = 0 ∨
        anyChanged c.session.db (mul.locked c.session.db) 0 mul.watchList = true)) ↔
          ¬Unchanged c.session.db w := by
      rw [← compare]
      constructor
      · rintro ⟨some', none' | changed⟩
        · rw [consistent.watches, List.length_pos_iff] at some'
          obtain ⟨mm, rest, msgs, -⟩ := head some'
          rw [consistent.messages, msgs] at none'
          cases none'
        · exact changed
      · intro changed
        refine ⟨?_, .inr changed⟩
        rw [consistent.watches, List.length_pos_iff]
        rintro empty
        simp [empty, anyChanged] at changed
    split
    · rename_i changed
      exact ⟨by simp, iff_of_false (notExecuted _) fun both => stale.mp changed both.2, by simp⟩
    · rename_i same
      have unchanged := not_not.mp (mt stale.mpr same)
      refine ⟨RedisExec.discardMulti_multi, ?_, ?_⟩
      · exact iff_of_true ⟨_, _, rfl⟩ ⟨by simpa using live, unchanged⟩
      · exact fun none' => absurd ⟨_, _, rfl⟩ none'

end Exec

section Keep

variable {E R : Type} {c : RedisExec E} {mul : RedisMultiExec} {req : Request} {w : Watching}

theorem RedisExec.watches_some (multi : c.multi = some mul) :
    c.watches = mul.watchList.map RedisWatchList.watch := by
  rw [RedisExec.watches, multi]
  rfl

theorem RedisExec.watches_none (multi : c.multi = none) : c.watches = [] := by
  rw [RedisExec.watches, multi]
  rfl

theorem RedisExec.idle_of_none (multi : c.multi = none) : c.multiQueued = false := by
  by_contra queued
  have some' := c.queueing (by simpa using queued)
  rw [multi] at some'
  cases some'

/-- A client of a connection without a queue knows nothing. -/
theorem agrees_none (multi : c.multi = none) : Agrees c {} := by
  have idle := RedisExec.idle_of_none multi
  refine ⟨idle.symm, RedisExec.watches_none multi, by rw [multi]; rfl, ?_, ?_⟩
  all_goals
    intro mul some'
    rw [multi] at some'
    cases some'

/-- Nothing is known where nothing is queued. -/
theorem Agrees.eq_of_none (agrees : Agrees c w) (multi : c.multi = none) : w = {} := by
  have idle := RedisExec.idle_of_none multi
  have inMulti := agrees.inMulti
  have watches := agrees.watches
  have refused := agrees.refused
  rw [idle] at inMulti
  rw [RedisExec.watches_none multi] at watches
  rw [multi] at refused
  cases w
  simp only at inMulti watches refused
  simp [inMulti, ← watches, refused]

theorem agrees_abort (agrees : Agrees c w) :
    Agrees c.abort { w with refused := w.refused || w.inMulti } := by
  rw [RedisExec.abort]
  split
  · rename_i queued
    have multi := (Option.some_get (c.queueing queued)).symm
    have head := agrees.head _ multi queued
    refine ⟨agrees.inMulti, ?_, ?_, fun mul _ idle => ?_, ?_⟩
    · rw [← agrees.watches, RedisExec.watches_some multi]
      rfl
    · simp [RedisExec.withMulti, agrees.inMulti, queued]
    · simp [RedisExec.withMulti, queued] at idle
    · rintro _ ⟨⟩ _ some'
      exact head some'
  · rename_i idle
    have notIn : w.inMulti = false := by rw [agrees.inMulti]; simpa using idle
    have same : ({ w with refused := w.refused || w.inMulti } : Watching) = w := by
      cases w
      simp_all
    rw [same]
    exact agrees

theorem agrees_queueCommand (hash : Nat → Bytes → KeyHash) (agrees : Agrees c w)
    (queued : c.multiQueued = true) (cmd : RedisCmd) (g : Geometry) :
    Agrees (queueCommand (R := R) hash c queued req cmd g).2 w := by
  have multi := (Option.some_get (c.queueing queued)).symm
  have watches := agrees.watches
  have refused := agrees.refused
  have head := agrees.head _ multi queued
  rw [RedisExec.watches_some multi] at watches
  rw [multi] at refused
  have grown := multiQueued_grows (hash c.session.dbNum) (c.multi.get (c.queueing queued)) req cmd g
  rw [queueCommand]
  generalize multiQueued (hash c.session.dbNum) (c.multi.get (c.queueing queued)) req cmd g = result
    at grown
  generalize c.multi.get (c.queueing queued) = mul at watches refused head grown
  obtain ⟨status, mul'⟩ := result
  simp only at grown ⊢
  rcases grown with rfl | ⟨mm, filter, rfl⟩
  · refine ⟨agrees.inMulti, watches, refused, fun _ _ idle => ?_, ?_⟩
    · simp [RedisExec.withMulti, queued] at idle
    · rintro _ ⟨⟩ _ some'
      exact head some'
  · refine ⟨agrees.inMulti, watches, refused, fun _ _ idle => ?_, ?_⟩
    · simp [RedisExec.withMulti, queued] at idle
    · rintro _ ⟨⟩ _ some'
      obtain ⟨first, rest, msgs, noMsg, keys⟩ := head some'
      exact ⟨first, rest ++ [mm], by simp [msgs], noMsg, keys⟩

theorem agrees_startMulti (granted : req.grants .watchMsg = true)
    (consistent : mul.Consistent false)
    (watches : mul.watchList.map RedisWatchList.watch = w.watched)
    (refused : w.refused = mul.multiAbort) :
    Agrees (c.startMulti (R := R) mul req).2 { w with inMulti := true } := by
  obtain ⟨noMessages, -, -⟩ := consistent.idle rfl
  rw [RedisExec.startMulti]
  split
  · refine ⟨rfl, watches, refused, by simp, ?_⟩
    rintro _ ⟨⟩ _ _
    obtain ⟨-, noMsg, keys⟩ := watchMsg_linked { mul with multiStart := true }
    exact ⟨_, _, rfl, noMsg, keys⟩
  · rename_i none'
    refine ⟨rfl, watches, refused, by simp, ?_⟩
    rintro _ ⟨⟩ _ some'
    have watched := consistent.watches
    simp only [ne_eq, not_not] at none'
    rw [none'] at watched
    exact absurd (List.length_eq_zero_iff.mp watched.symm) some'

theorem agrees_execMulti (agrees : Agrees c w) (consistent : c.Consistent)
    (memory : req.grants .multi = true) (memory' : req.grants .watchMsg = true) :
    Agrees (execMulti (R := R) c req).2 { w with inMulti := true } := by
  rw [execMulti]
  split
  · rename_i mul multi
    have queue := consistent mul multi
    have started := queue.started
    have watches := agrees.watches
    have refused := agrees.refused
    rw [RedisExec.watches_some multi] at watches
    rw [multi] at refused
    split
    · rename_i inside
      have inMulti : w.inMulti = true := by rw [agrees.inMulti, ← started, inside]
      rw [← inMulti]
      exact agrees
    · rename_i notStarted
      rw [show c.multiQueued = false by simpa [started] using notStarted] at queue
      exact agrees_startMulti memory' queue watches refused
  · rename_i multi
    have known := agrees.eq_of_none multi
    rw [if_pos memory, known]
    exact agrees_startMulti memory' ⟨rfl, rfl, rfl, fun _ => ⟨rfl, rfl, rfl⟩⟩ rfl rfl

/-- A connection outside of a `MULTI` with no watched key has no queue. -/
theorem Agrees.multi_none (agrees : Agrees c w) (idle : w.inMulti = false)
    (nothing : w.watched = []) : c.multi = none := by
  cases multi : c.multi with
  | none => rfl
  | some mul =>
      have some' := agrees.nonempty mul multi (agrees.inMulti ▸ idle)
      have watches := agrees.watches
      rw [RedisExec.watches_some multi, nothing] at watches
      exact absurd (List.map_eq_nil_iff.mp watches) some'

/-- A queue that exists when `EXEC` or `DISCARD` comes belongs to a `MULTI`. -/
theorem inMulti_of_some (agrees : Agrees c w) (multi : c.multi = some mul)
    (inside : w.inMulti = false → w.watched = []) : w.inMulti = true := by
  by_contra idle
  have none' := agrees.multi_none (by simpa using idle) (inside (by simpa using idle))
  rw [multi] at none'
  cases none'

theorem agrees_execUnwatch (agrees : Agrees c w) (consistent : c.Consistent)
    (idle : w.inMulti = false) :
    (execUnwatch (R := R) c).2.multi = none ∧
      Agrees (execUnwatch (R := R) c).2 { w with watched := [] } := by
  have queued : c.multiQueued = false := agrees.inMulti ▸ idle
  have refused : w.refused = false := by
    rw [agrees.refused]
    cases multi : c.multi with
    | none => rfl
    | some mul => exact ((consistent mul multi).idle queued).2.2
  have known : { w with watched := [] } = ({} : Watching) := by
    cases w
    simp_all
  have gone : (execUnwatch (R := R) c).2.multi = none := by
    cases multi : c.multi with
    | none => simp [execUnwatch, multi]
    | some mul =>
        have queue := consistent mul multi
        have count : mul.msgCount = 0 := by rw [queue.messages, (queue.idle queued).1]; rfl
        simp [execUnwatch, multi, count, queue.started, queued]
  rw [known]
  exact ⟨gone, agrees_none gone⟩

theorem agrees_execDiscard (agrees : Agrees c w)
    (inside : w.inMulti = false → w.watched = []) :
    Agrees (execDiscard (R := R) c).2 (if w.inMulti then {} else w) := by
  rw [execDiscard]
  split
  · rename_i multi
    rw [agrees.eq_of_none multi]
    exact agrees_none multi
  · rename_i mul multi
    rw [if_pos]
    · exact agrees_none RedisExec.discardMulti_multi
    · exact inMulti_of_some agrees multi inside

variable [TableEntry E]

/-- The removal of an expired key changes no live stamp. -/
theorem liveStamp_expire {db : Keyspace E} {key : KeyHash} (expired : isExpired db key = true)
    (hash : KeyHash) : liveStamp (expire db key) hash = liveStamp db hash := by
  by_cases same : hash = key
  · have gone : expire db key key = none := Function.update_self ..
    rw [same, liveStamp, liveStamp, if_pos expired, stamp, gone]
    simp
  · have kept : expire db key hash = db hash := Function.update_of_ne same ..
    rw [liveStamp, liveStamp, isExpired, isExpired, stamp, stamp, kept]

/-- A fetch for a read finds the live stamp, and leaves the live stamps as they are. -/
theorem execKeyFetch_read (db : Keyspace E) (ctx : EvKeyCtx) :
    (execKeyFetch .read db ctx).1.hash = ctx.hash ∧
      stamp (execKeyFetch .read db ctx).2 ctx.hash = liveStamp db ctx.hash ∧
      ∀ hash, liveStamp (execKeyFetch .read db ctx).2 hash = liveStamp db hash := by
  rw [execKeyFetch]
  split
  · rename_i expired
    exact ⟨rfl, by simp [stamp, expire, liveStamp, expired], liveStamp_expire expired⟩
  · rename_i live
    exact ⟨rfl, by simp [liveStamp, live], fun _ => rfl⟩

theorem watch_serialOf (db : Keyspace E) (ctx : EvKeyCtx) :
    RedisWatchList.watch ⟨serialOf (db ctx.hash), ctx⟩ = (ctx.hash, stamp db ctx.hash) := by
  rw [RedisWatchList.watch, Prod.mk.injEq]
  refine ⟨rfl, (stamp_eq_iff.mpr ?_).symm⟩
  split
  · rfl
  · rename_i missing
    rw [Option.not_isSome_iff_eq_none.mp missing]
    rfl

theorem agrees_execWatch (agrees : Agrees c w) (memory : req.grants .multi = true)
    (idle : w.inMulti = false) (idx : Nat) (granted : req.grants (.watch idx) = true)
    (ctx : EvKeyCtx) :
    (execWatch c req idx ctx).1 = .execSendOk ∧
      Agrees (execWatch c req idx ctx).2
        { w with watched := w.watched ++ [(ctx.hash, liveStamp c.session.db ctx.hash)] } ∧
      ∀ hash, liveStamp (execWatch c req idx ctx).2.session.db hash =
        liveStamp c.session.db hash := by
  have queued : c.multiQueued = false := agrees.inMulti ▸ idle
  obtain ⟨sameHash, sameStamp, live⟩ := execKeyFetch_read c.session.db ctx
  have watches := agrees.watches
  have refused := agrees.refused
  rw [execWatch]
  generalize execKeyFetch .read c.session.db ctx = fetched at sameHash sameStamp live
  obtain ⟨ctx', db⟩ := fetched
  simp only at sameHash sameStamp live ⊢
  have entry := watch_serialOf db ctx'
  rw [sameHash, sameStamp] at entry
  have joins (mul : RedisMultiExec)
      (watches : mul.watchList.map RedisWatchList.watch = w.watched)
      (refused : w.refused = mul.multiAbort) :
      Agrees (RedisExec.withMulti { c with session := { c.session with db := db } }
          { mul with
            watchList := mul.watchList ++ [⟨serialOf (db ctx.hash), ctx'⟩]
            watchCount := mul.watchCount + 1 })
        { w with watched := w.watched ++ [(ctx.hash, liveStamp c.session.db ctx.hash)] } := by
    refine ⟨agrees.inMulti, ?_, refused, ?_, fun _ _ inside => ?_⟩
    · rw [← watches, RedisExec.watches, ← entry]
      simp [RedisExec.withMulti]
    · rintro _ ⟨⟩ _
      simp
    · have started : c.multiQueued = true := inside
      rw [queued] at started
      cases started
  split
  · rename_i mul multi
    rw [RedisExec.watches_some multi] at watches
    rw [multi] at refused
    simp only [granted, if_true]
    rw [sameHash]
    exact ⟨trivial, joins mul watches refused, live⟩
  · rename_i multi
    have known := agrees.eq_of_none multi
    simp only [memory, granted, if_true]
    rw [sameHash]
    exact ⟨trivial, joins {} (by rw [known]; rfl) (by rw [known]), live⟩

/-- A client watches all keys of its command. -/
theorem agrees_watchKeys (keys : List EvKeyCtx) (memory : req.grants .multi = true)
    (granted : ∀ idx, req.grants (.watch idx) = true) (agrees : Agrees c w)
    (idle : w.inMulti = false) (idx : Nat) :
    Agrees (watchKeys req c idx keys).2
      { w with watched := w.watched ++
          keys.map fun ctx => (ctx.hash, liveStamp c.session.db ctx.hash) } := by
  induction keys generalizing c w idx with
  | nil => simpa [watchKeys] using agrees
  | cons ctx rest ih =>
      obtain ⟨ok, one, live⟩ := agrees_execWatch agrees memory idle idx (granted idx) ctx
      cases watched : execWatch c req idx ctx with
      | mk status c' =>
          rw [watched] at ok one live
          simp only at ok one live
          have more := ih one idle (idx + 1)
          simp only [live, List.append_assoc, List.singleton_append] at more
          simp only [watchKeys, watched, ok, if_true, List.map_cons]
          exact more

variable {hash : Nat → Bytes → KeyHash} {handlers : Handlers E R}

/-- `EXEC` forgets the watches of a transaction. -/
theorem agrees_execExec (agrees : Agrees c w) (inside : w.inMulti = false → w.watched = []) :
    Agrees (execExec handlers c req).2 (if w.inMulti then {} else w) := by
  cases multi : c.multi with
  | none =>
      rw [execExec_none multi, agrees.eq_of_none multi]
      exact agrees_none multi
  | some mul =>
      rw [if_pos (inMulti_of_some agrees multi inside)]
      apply agrees_none
      simp only [execExec, multi]
      repeat' split
      all_goals exact RedisExec.discardMulti_multi

/-- A command that is not queued keeps the agreement. -/
theorem agrees_execNow (agrees : Agrees c w) (consistent : c.Consistent) (cmd : RedisCmd)
    (g : Geometry) (memory : req.grants .multi = true)
    (granted : ∀ idx, req.grants (.watch idx) = true) (watchMsg : req.grants .watchMsg = true)
    (inside : cmd = .execCmd ∨ cmd = .discardCmd → w.inMulti = false → w.watched = [])
    (idle : isTransactionCmd cmd = false → w.inMulti = false) :
    Agrees (execNow hash handlers c req cmd g).2
      (w.command (hash c.session.dbNum) c.session.db req cmd g) := by
  unfold execNow
  split
  · exact agrees_execExec agrees (inside (.inl rfl))
  · exact agrees_execMulti agrees consistent memory watchMsg
  · exact agrees_execDiscard agrees (inside (.inr rfl))
  · exact (agrees_execUnwatch agrees consistent (idle rfl)).2
  · rename_i notExec notMulti notDiscard notUnwatch
    by_cases isWatch : cmd = .watchCmd
    · subst isWatch
      simp only [Watching.command]
      cases execSetup (hash c.session.dbNum) req g with
      | error status => exact agrees
      | ok keys => exact agrees_watchKeys keys memory granted agrees (idle rfl) 0
    · have known : w.command (hash c.session.dbNum) c.session.db req cmd g = w := by
        unfold Watching.command
        split <;> simp_all
      rw [known]
      split
      · exact agrees
      · rw [if_neg isWatch]
        exact ⟨agrees.inMulti, agrees.watches, agrees.refused, agrees.nonempty, agrees.head⟩

variable {s : RedisExec E × Watching} {act : Act E}

/-- Every orderly step keeps the agreement of the connection and its client. -/
theorem watchInv_step (hash : Nat → Bytes → KeyHash) (handlers : Handlers E R) (inv : WatchInv s) (orderly : Orderly s act) :
    WatchInv (watchStep hash handlers s act).2 := by
  obtain ⟨c, w⟩ := s
  obtain ⟨consistent, linked, agrees⟩ := inv
  cases act with
  | others db =>
      exact ⟨consistent, linked, agrees.inMulti, agrees.watches, agrees.refused, agrees.nonempty,
        agrees.head⟩
  | request req =>
      obtain ⟨memory, watches, watchMsg, -⟩ := orderly.memory req rfl
      refine ⟨consistent_exec hash handlers consistent req,
        linked_exec hash handlers consistent linked req, ?_⟩
      simp only [watchStep, Watching.request]
      cases command : prepareExecCommand req with
      | error status =>
          rw [exec_refused command]
          exact agrees_abort agrees
      | ok command' =>
          obtain ⟨cmd, g⟩ := command'
          dsimp only
          by_cases queued : c.multiQueued = true ∧ isTransactionCmd cmd = false
          · have known : w.inMulti = true ∧ isTransactionCmd cmd = false := by
              rwa [agrees.inMulti]
            rw [exec_queue command queued.1 queued.2, if_pos known]
            exact agrees_queueCommand hash agrees queued.1 cmd g
          · have known : ¬(w.inMulti = true ∧ isTransactionCmd cmd = false) := by
              rwa [agrees.inMulti]
            rw [exec_now command queued, if_neg known]
            exact agrees_execNow agrees consistent cmd g memory watches watchMsg
              (orderly.inside req cmd g rfl command) fun plain => by simpa [plain] using known

theorem optimistic_exec (consistent : c.Consistent) (linked : c.Linked) (agrees : Agrees c w)
    (inside : w.inMulti = false → w.watched = [])
    (granted : req.grants .result = true) :
    (Executed (some (execExec handlers c req).1) ↔
      w.inMulti = true ∧ w.refused = false ∧ Unchanged c.session.db w) ∧
    (w.inMulti = true → ¬Executed (some (execExec handlers c req).1) →
      (execExec handlers c req).1 =
          .status (if w.refused then .errAbortTrans else .execSendNull) ∧
        (execExec handlers c req).2.session = c.session) := by
  cases multi : c.multi with
  | none =>
      have idle : w.inMulti = false := by rw [agrees.eq_of_none multi]
      rw [execExec_none multi]
      refine ⟨iff_of_false ?_ (by simp [idle]), by simp [idle]⟩
      rintro ⟨count, logs, same⟩
      cases same
  | some mul =>
      have inMulti := inMulti_of_some agrees multi inside
      have queued : c.multiQueued = true := agrees.inMulti ▸ inMulti
      have watches := agrees.watches
      have refused := agrees.refused
      rw [RedisExec.watches_some multi] at watches
      rw [multi] at refused
      obtain ⟨-, executed, otherwise⟩ := execExec_some handlers multi
        (linked mul multi) (consistent mul multi) (agrees.head mul multi queued) watches granted
      simp only [Option.elim_some] at refused
      rw [refused]
      exact ⟨executed.trans (by simp [inMulti]), fun _ => otherwise⟩

/-- Every orderly step obeys the law of optimistic locking. -/
theorem optimistic_step (inv : WatchInv s) (orderly : Orderly s act) :
    Optimistic hash handlers s act := by
  have next := watchInv_step hash handlers inv orderly
  obtain ⟨c, w⟩ := s
  have agrees := inv.agrees
  constructor
  · exact agrees.watches
  · exact next.agrees.watches
  · rintro req g rfl isExec
    obtain ⟨-, -, -, granted⟩ := orderly.memory req rfl
    have inside := orderly.inside req _ g rfl isExec (.inl rfl)
    rw [watchStep, exec_transaction isExec rfl]
    exact (optimistic_exec inv.consistent inv.linked agrees inside granted).1
  · rintro req g rfl isExec inMulti notExecuted
    obtain ⟨-, -, -, granted⟩ := orderly.memory req rfl
    have inside := orderly.inside req _ g rfl isExec (.inl rfl)
    rw [watchStep, exec_transaction isExec rfl] at notExecuted ⊢
    obtain ⟨reply, session⟩ := (optimistic_exec inv.consistent inv.linked agrees inside granted).2 inMulti notExecuted
    exact ⟨congrArg some reply, session⟩
  · rintro req cmd g rfl command kind
    rw [next.agrees.watches]
    simp only [watchStep, Watching.request, command]
    rcases kind with ⟨rfl | rfl, inMulti⟩ | ⟨rfl, idle⟩
    · dsimp only at inMulti
      simp [Watching.command, isTransactionCmd, inMulti]
    · dsimp only at inMulti
      simp [Watching.command, isTransactionCmd, inMulti]
    · dsimp only at idle
      simp [Watching.command, idle]
  · rintro req cmd g rfl command kind idle
    have none' : c.multi = none :=
      agrees.multi_none idle (orderly.inside req cmd g rfl command kind idle)
    have notQueued : ¬(c.multiQueued = true ∧ isTransactionCmd cmd = false) := by
      rw [RedisExec.idle_of_none none']
      simp
    rw [watchStep, exec_now command notQueued]
    rcases kind with rfl | rfl
    · have answer : execNow hash handlers c req .execCmd g = (.status .errBadExec, c) :=
        execExec_none none'
      rw [answer]
      exact ⟨⟨.errBadExec, rfl, rfl⟩, rfl⟩
    · have answer : execNow hash handlers c req .discardCmd g = (.status .errBadDiscard, c) := by
        simp [execNow, execDiscard, none']
      rw [answer]
      exact ⟨⟨.errBadDiscard, rfl, rfl⟩, rfl⟩

end Keep

section Runs

theorem watchInv_start {E : Type} (session : Session E) : WatchInv ({ session := session }, {}) :=
  ⟨RedisExec.consistent_of_none rfl, RedisExec.linked_of_none rfl, agrees_none rfl⟩

variable {E R : Type} [TableEntry E]

/-- A run of orderly steps obeys the law of optimistic locking. -/
theorem optimistic_run (hash : Nat → Bytes → KeyHash) (handlers : Handlers E R)
    (session : Session E) (acts : List (Act E))
    (orderly : Along (watchStep hash handlers) Orderly ({ session := session }, {}) acts) :
    Along (watchStep hash handlers) (Optimistic hash handlers) ({ session := session }, {})
      acts :=
  along_of_inv (fun _ _ => watchInv_step hash handlers) (fun _ _ => optimistic_step) (watchInv_start session)
    orderly

end Runs

section Examples

/-- A prepared request with its memory is orderly when it does not end a missing transaction. -/
theorem orderly_request {E : Type} {s : RedisExec E × Watching} {req : Request} (cmd : RedisCmd)
    {g : Geometry} (command : prepareExecCommand req = .ok (cmd, g))
    (memory : ∀ a, req.grants a = true)
    (inside : cmd = .execCmd ∨ cmd = .discardCmd → s.2.inMulti = false → s.2.watched = []) :
    Orderly s (.request req) := by
  constructor
  · rintro _ ⟨⟩
    exact ⟨memory _, fun _ => memory _, memory _, memory _⟩
  · rintro _ cmd' g' ⟨⟩ command'
    rw [command] at command'
    cases command'
    exact inside

theorem orderly_others {E : Type} (s : RedisExec E × Watching) (db : Keyspace E) :
    Orderly s (.others db) := by
  constructor
  · intro req same
    cases same
  · intro req cmd g same
    cases same

def watchRequest : Request := wordsRequest (some .watchCmd) ["watch", "k"]

/-- The connection behind its first `WATCH`, with its client. -/
def watchConnection : RedisExec StringEntry × Watching :=
  (watchStep shortHash stringHandlers (newConnection, {}) (.request watchRequest)).2

/-- A watched key that appears lets the transaction fail. -/
theorem optimistic_appears :
    Along (watchStep shortHash stringHandlers) (Optimistic shortHash stringHandlers)
      (newConnection, {})
      [.request watchRequest, .request multiRequest,
        .others fun _ => some ⟨text "v", 1, Nat.one_pos⟩, .request execRequest] := by
  apply optimistic_run shortHash stringHandlers emptySession
  refine ⟨?_, ?_, ?_, ?_, trivial⟩
  · exact orderly_request .watchCmd rfl (fun _ => rfl) (by simp)
  · exact orderly_request .multiCmd rfl (fun _ => rfl) (by simp)
  · exact orderly_others _ _
  · exact orderly_request .execCmd rfl (fun _ => rfl) fun _ => by decide

/-- `EXEC` behind a `WATCH` without a `MULTI` is not an error. -/
theorem not_optimistic_watchExec :
    ¬∀ acts : List (Act StringEntry),
      Along (watchStep shortHash stringHandlers) (Optimistic shortHash stringHandlers)
        (newConnection, {}) acts := by
  have there : watchConnection.1.multi.isSome = true := by decide
  have gone : (watchStep shortHash stringHandlers watchConnection
      (.request execRequest)).2.1.multi.isSome = false := by decide
  intro all
  obtain ⟨-, law, -⟩ := all [.request watchRequest, .request execRequest]
  obtain ⟨-, same⟩ := law.outside execRequest .execCmd (setupCmd (cmdDb .execCmd)) rfl rfl
    (.inl rfl) rfl
  rw [watchConnection] at there gone
  rw [same, there] at gone
  cases gone

end Examples

end Raids
