import Raids.Construction.Multi.Lock
import Raids.Construction.Multi.Connection
import Raids.Proof.Multi.Lock

namespace Raids
open FirstIndex Machine

/-- The hashes of a list of keys. -/
def hashes (keys : List EvKeyCtx) : List KeyHash := keys.map (·.hash)

/-- The hashes of the keys of a list of messages. -/
def queueHashes (msgs : List RedisMultiMsg) : List KeyHash :=
  msgs.flatMap fun mm => hashes mm.keys

theorem hashes_append (keys more : List EvKeyCtx) :
    hashes (keys ++ more) = hashes keys ++ hashes more := List.map_append

theorem length_hashes (keys : List EvKeyCtx) : (hashes keys).length = keys.length :=
  List.length_map _

theorem hashes_flatMap (msgs : List RedisMultiMsg) :
    hashes (msgs.flatMap (·.keys)) = queueHashes msgs := by
  rw [hashes, List.map_flatMap]
  rfl

theorem length_flatMap_keys (msgs : List RedisMultiMsg) :
    (msgs.flatMap (·.keys)).length = (queueHashes msgs).length := by
  rw [← hashes_flatMap, length_hashes]

/-- The contexts that own a lock among the hashes behind `before`. -/
def owners (before hs : List KeyHash) : List LockCtx := firsts id before hs

/-- Every message of the queue links its keys to the first ones with their hashes. -/
def QueueLinked : List KeyHash → List RedisMultiMsg → Prop
  | _, [] => True
  | before, mm :: next =>
      mm.kptr = linksFrom id before (hashes mm.keys) ∧
        QueueLinked (before ++ hashes mm.keys) next

theorem queueLinked_append (before : List KeyHash) (msgs more : List RedisMultiMsg) :
    QueueLinked before (msgs ++ more) ↔
      QueueLinked before msgs ∧ QueueLinked (before ++ queueHashes msgs) more := by
  induction msgs generalizing before with
  | nil => simp [QueueLinked, queueHashes]
  | cons mm next ih =>
      simp only [List.cons_append, QueueLinked, ih, and_assoc, queueHashes, List.flatMap_cons,
        List.append_assoc]

/-- The links of a whole queue are the links of its messages. -/
theorem queueLinked_of_links (before : List KeyHash) (msgs : List RedisMultiMsg)
    (lengths : ∀ mm ∈ msgs, mm.kptr.length = mm.keys.length)
    (positions : msgs.flatMap (·.kptr) = linksFrom id before (queueHashes msgs)) :
    QueueLinked before msgs := by
  induction msgs generalizing before with
  | nil => trivial
  | cons mm next ih =>
      rw [queueHashes, List.flatMap_cons, List.flatMap_cons, linksFrom_append] at positions
      obtain ⟨own, others⟩ := List.append_inj positions
        (by simp [lengths mm List.mem_cons_self, hashes])
      exact ⟨own, ih _ (fun other member => lengths other (List.mem_cons_of_mem _ member)) others⟩

theorem RedisMultiExec.Linked.queueLinked {mul : RedisMultiExec} (queue : mul.Linked) :
    QueueLinked [] mul.msgList := by
  refine queueLinked_of_links [] mul.msgList queue.lengths ?_
  have mapped := linksFrom_map (f := id) EvKeyCtx.hash [] mul.allKeys
  rw [queue.links, ← hashes_flatMap]
  exact (links_eq_linksFrom []).trans mapped.symm

/-- What an attempt to lock the hashes behind `before` does: it locks the owners of all of them,
or of the ones in front of a new one that is busy. -/
inductive Attempt (before : List KeyHash) : List KeyHash → Bool → List KeyHash →
    List LockEvent → Prop where
  | locked (hs : List KeyHash) : Attempt before hs true hs ((owners before hs).map .acquire)
  | busy (hs : List KeyHash) (h : KeyHash) (rest : List KeyHash)
      (isNew : ∀ k ∈ before ++ hs, k ≠ h) :
      Attempt before (hs ++ h :: rest) false hs
        ((owners before hs).map .acquire ++ [.busy ((before ++ hs).length, h)])

section Attempt

variable {before hs passed more : List KeyHash} {locked : Bool} {events : List LockEvent}

theorem owners_append (before hs more : List KeyHash) :
    owners before (hs ++ more) = owners before hs ++ owners (before ++ hs) more :=
  firsts_append before

/-- An attempt goes on behind hashes that were all locked. -/
theorem Attempt.after (hs : List KeyHash)
    (attempt : Attempt (before ++ hs) more locked passed events) :
    Attempt before (hs ++ more) locked (hs ++ passed)
      ((owners before hs).map .acquire ++ events) := by
  cases attempt with
  | locked =>
      rw [← List.map_append, ← owners_append]
      exact .locked _
  | busy _ h rest isNew =>
      rw [← List.append_assoc, ← List.append_assoc, ← List.map_append, ← owners_append,
        List.append_assoc before]
      exact .busy _ h rest (by rwa [← List.append_assoc])

/-- An attempt that failed leaves the hashes behind the busy one alone. -/
theorem Attempt.stop (attempt : Attempt before hs false passed events) (more : List KeyHash) :
    Attempt before (hs ++ more) false passed events := by
  cases attempt with
  | busy _ h rest isNew =>
      rw [List.append_assoc, List.cons_append]
      exact .busy _ h (rest ++ more) isNew

theorem Attempt.eq_of_locked (attempt : Attempt before hs true passed events) :
    passed = hs ∧ events = (owners before hs).map .acquire := by
  cases attempt
  exact ⟨rfl, rfl⟩

theorem Attempt.eq_of_busy (attempt : Attempt before hs false passed events) :
    ∃ h rest, hs = passed ++ h :: rest ∧ (∀ k ∈ before ++ passed, k ≠ h) ∧
      events = (owners before passed).map .acquire ++ [.busy ((before ++ passed).length, h)] := by
  cases attempt with
  | busy _ h rest isNew => exact ⟨h, rest, rfl, isNew, rfl⟩

theorem Attempt.isPrefix (attempt : Attempt before hs locked passed events) : passed <+: hs := by
  cases attempt with
  | locked => exact List.prefix_rfl
  | busy _ h rest _ => exact List.prefix_append _ _

end Attempt

theorem owners_singleton (before : List KeyHash) (h : KeyHash) :
    owners before [h] =
      if firstIndex id before h = before.length then [(before.length, h)] else [] := rfl

/-- A hash owns its lock where it did not occur before. -/
theorem isNew_iff {before : List KeyHash} {h : KeyHash} :
    firstIndex id before h = before.length ↔ ∀ k ∈ before, k ≠ h := by
  constructor
  · intro last k member same
    have inside := (firstIndex_lt_iff (f := id)).mpr ⟨k, member, same⟩
    omega
  · exact firstIndex_eq_length

section Lock

variable (locks : Locks)

/-- A key whose lock is settled leaves the attempt to the keys behind it. -/
theorem attempt_cons {before keys : List EvKeyCtx} {key other : EvKeyCtx} {n : Nat}
    {log more : List LockEvent} {result : Bool × List EvKeyCtx × Nat × List LockEvent}
    (same : other.hash = key.hash)
    (owned : more = (owners (hashes before) [key.hash]).map .acquire)
    (attempt : hashes result.2.1 = hashes keys ∧ ∃ passed events,
      Attempt (hashes before ++ [key.hash]) (hashes keys) result.1 passed events ∧
        result.2.2.1 = n + 1 + passed.length ∧ result.2.2.2 = log ++ more ++ events) :
    hashes (other :: result.2.1) = hashes (key :: keys) ∧ ∃ passed events,
      Attempt (hashes before) (hashes (key :: keys)) result.1 passed events ∧
        result.2.2.1 = n + passed.length ∧ result.2.2.2 = log ++ events := by
  obtain ⟨kept, passed, events, attempt, count, logged⟩ := attempt
  constructor
  · rw [hashes, List.map_cons, same]
    exact congrArg (key.hash :: ·) kept
  · refine ⟨key.hash :: passed, more ++ events, ?_, ?_, ?_⟩
    · rw [owned]
      exact attempt.after [key.hash]
    · rw [count, List.length_cons]
      omega
    · rw [logged, List.append_assoc]

/-- The loop over the keys of a message makes an attempt. -/
theorem Locks.lockKeys_attempt (before keys : List EvKeyCtx) (n : Nat) (log : List LockEvent) :
    let result := locks.lockKeys before keys (linksFrom id (hashes before) (hashes keys)) n log
    hashes result.2.1 = hashes keys ∧ ∃ passed events,
      Attempt (hashes before) (hashes keys) result.1 passed events ∧
        result.2.2.1 = n + passed.length ∧ result.2.2.2 = log ++ events := by
  induction keys generalizing before n log with
  | nil => exact ⟨rfl, [], [], .locked [], rfl, (List.append_nil log).symm⟩
  | cons key rest ih =>
      have kptr : linksFrom id (hashes before) (hashes (key :: rest)) =
          firstIndex id (hashes before) key.hash ::
            linksFrom id (hashes before ++ [key.hash]) (hashes rest) := rfl
      have goOn (other : EvKeyCtx) (same : other.hash = key.hash) (log : List LockEvent) :
          let result := locks.lockKeys (before ++ [other]) rest
            (linksFrom id (hashes before ++ [key.hash]) (hashes rest)) (n + 1) log
          hashes result.2.1 = hashes rest ∧ ∃ passed events,
            Attempt (hashes before ++ [key.hash]) (hashes rest) result.1 passed events ∧
              result.2.2.1 = n + 1 + passed.length ∧ result.2.2.2 = log ++ events := by
        have behind : hashes (before ++ [other]) = hashes before ++ [key.hash] := by
          rw [hashes_append, ← same]
          rfl
        have more := ih (before ++ [other]) (n + 1) log
        rwa [behind] at more
      simp only [kptr, Locks.lockKeys, List.head?_cons, Option.some.injEq, List.tail_cons]
      split
      · rename_i isNew
        have own : firstIndex id (hashes before) key.hash = (hashes before).length := by
          rw [isNew, length_hashes]
        split
        · have missing := isNew_iff.mp own
          have stopped : Attempt (hashes before) (hashes (key :: rest)) false [] _ :=
            .busy [] key.hash (hashes rest) (by simpa using missing)
          refine ⟨rfl, [], _, stopped, rfl, ?_⟩
          simp [owners, firsts, length_hashes]
        · rename_i kstatus status
          refine attempt_cons rfl ?_ (goOn { key with kstatus := kstatus } rfl _)
          rw [owners_singleton, if_pos own, length_hashes]
          rfl
      · rename_i seen
        have known : firstIndex id (hashes before) key.hash ≠ (hashes before).length := by
          rwa [length_hashes]
        generalize ((before ++ [key]).find? (·.hash = key.hash)).elim key.kstatus (·.kstatus) =
          kstatus
        have nothing : [] = (owners (hashes before) [key.hash]).map LockEvent.acquire := by
          rw [owners_singleton, if_neg known]
          rfl
        refine attempt_cons rfl nothing ?_
        · rw [List.append_nil]
          exact goOn { key with kstatus := kstatus } rfl log

end Lock

section Release

/-- The links of a front of the keys are a front of the links. -/
theorem getElem?_linksFrom {before hs rest : List KeyHash} {h : KeyHash} :
    (linksFrom id before (hs ++ h :: rest))[hs.length]? =
      some (firstIndex id (before ++ hs) h) := by
  rw [linksFrom_append, List.getElem?_append_right (by simp), length_linksFrom, Nat.sub_self]
  rfl

/-- The loop over the keys of a message releases the owners among its first ones. -/
theorem releaseKeys_eq {before : List KeyHash} {mm : RedisMultiMsg}
    (linked : mm.kptr = linksFrom id before (hashes mm.keys)) (n : Nat) (log : List LockEvent)
    (bound : n ≤ mm.keys.length) :
    releaseKeys before.length mm n log =
      log ++ ((owners before ((hashes mm.keys).take n)).map .release).reverse := by
  induction n generalizing log with
  | zero => simp [releaseKeys, owners, firsts]
  | succ n ih =>
      have inside : n < mm.keys.length := bound
      obtain ⟨front, key, rest, split, count⟩ :
          ∃ front key rest, mm.keys = front ++ key :: rest ∧ front.length = n :=
        ⟨mm.keys.take n, mm.keys[n], mm.keys.drop (n + 1),
          by simp, by simp; omega⟩
      have key' : mm.keys[n]? = some key := by
        rw [split, ← count]
        simp
      have kptr : mm.kptr[n]? = some (firstIndex id (before ++ hashes front) key.hash) := by
        rw [linked, split, ← count, hashes_append, ← length_hashes front]
        exact getElem?_linksFrom
      have front' : (hashes mm.keys).take n = hashes front := by
        rw [split, hashes_append, ← count, ← length_hashes front, List.take_left']
        rfl
      have front'' : (hashes mm.keys).take (n + 1) = hashes front ++ [key.hash] := by
        rw [split, hashes_append, ← count, ← length_hashes front]
        simp [hashes, List.take_append]
      have base : (before ++ hashes front).length = before.length + n := by
        rw [List.length_append, length_hashes, count]
      rw [releaseKeys, ih _ (by omega), key', kptr, front', front'', owners_append,
        owners_singleton, base]
      simp only [Option.some.injEq]
      split <;> simp

theorem queueHashes_append (msgs more : List RedisMultiMsg) :
    queueHashes (msgs ++ more) = queueHashes msgs ++ queueHashes more := List.flatMap_append

theorem queueHashes_singleton (mm : RedisMultiMsg) : queueHashes [mm] = hashes mm.keys := by
  simp [queueHashes]

/-- The walk back releases the owners of all messages. -/
theorem releaseBack_eq (back : List RedisMultiMsg) (linked : QueueLinked [] back.reverse)
    (log : List LockEvent) :
    releaseBack back log =
      log ++ ((owners [] (queueHashes back.reverse)).map .release).reverse := by
  induction back generalizing log with
  | nil => simp [releaseBack, owners, firsts, queueHashes]
  | cons mm back ih =>
      rw [List.reverse_cons, queueLinked_append, List.nil_append] at linked
      obtain ⟨front, own, -⟩ := linked
      have keys := releaseKeys_eq own mm.keys.length log (Nat.le_refl _)
      rw [releaseBack, length_flatMap_keys, keys, ih front, ← length_hashes, List.take_length,
        List.reverse_cons, queueHashes_append, queueHashes_singleton, owners_append]
      simp

/-- A lock whose messages are linked and that counts no more keys than there are. -/
structure MultiLock.Linked (lock : MultiLock) : Prop where
  queue : QueueLinked [] lock.msgList
  bound : lock.n ≤ lock.mm.keys.length

/-- The hashes that an attempt has passed. -/
def passedHashes : Option MultiLock → List KeyHash
  | none => []
  | some lock => queueHashes lock.back.reverse ++ (hashes lock.mm.keys).take lock.n

/-- The release gives back the owners among the passed hashes, and nothing else. -/
theorem multiReleaseLock_eq (lock : Option MultiLock) (linked : ∀ held ∈ lock, held.Linked)
    (log : List LockEvent) :
    multiReleaseLock lock log =
      log ++ ((owners [] (passedHashes lock)).map .release).reverse := by
  cases lock with
  | none => simp [multiReleaseLock, passedHashes, owners, firsts]
  | some lock =>
      obtain ⟨queue, bound⟩ := linked lock rfl
      rw [MultiLock.msgList, queueLinked_append, List.nil_append] at queue
      obtain ⟨front, own, -⟩ := queue
      rw [multiReleaseLock, length_flatMap_keys, releaseKeys_eq own lock.n log bound,
        releaseBack_eq lock.back front, passedHashes, owners_append]
      simp

end Release

section Queue

variable (locks : Locks)

/-- The result of an attempt on a queue: what it passed is what the lock counts. -/
structure TryResult (before : List KeyHash) (msgs : List RedisMultiMsg) (log : List LockEvent)
    (all : List KeyHash) (result : Bool × Option MultiLock × List LockEvent) : Prop where
  attempt : ∃ passed events,
    Attempt before (queueHashes msgs) result.1 passed events ∧
      result.2.2 = log ++ events ∧ passedHashes result.2.1 = before ++ passed
  linked : ∀ held ∈ result.2.1, held.Linked
  hashes : ∀ held ∈ result.2.1, queueHashes held.msgList = all

theorem Locks.multiTryLock_result (lock : Option MultiLock) (msgs : List RedisMultiMsg)
    (log : List LockEvent) (queue : QueueLinked [] ((passedMsgs lock).reverse ++ msgs))
    (linked : ∀ held ∈ lock, held.Linked ∧ held.next = msgs)
    (done : passedHashes lock = queueHashes (passedMsgs lock).reverse) :
    TryResult (queueHashes (passedMsgs lock).reverse) msgs log
      (queueHashes ((passedMsgs lock).reverse ++ msgs)) (locks.multiTryLock lock msgs log) := by
  induction msgs generalizing lock log with
  | nil =>
      refine ⟨⟨[], [], .locked [], (List.append_nil log).symm, ?_⟩, ?_, ?_⟩
      · exact done.trans (List.append_nil _).symm
      · exact fun held member => (linked held member).1
      · intro held member
        obtain rfl : lock = some held := member
        rw [MultiLock.msgList, (linked held rfl).2, passedMsgs, List.reverse_cons, List.append_nil]
  | cons mm next ih =>
      have whole := queue
      rw [queueLinked_append, List.nil_append] at queue
      obtain ⟨front, own, rest⟩ := queue
      have step := locks.lockKeys_attempt ((passedMsgs lock).reverse.flatMap (·.keys)) mm.keys 0 log
      rw [hashes_flatMap, ← own] at step
      rw [Locks.multiTryLock]
      simp only
      generalize locks.lockKeys ((passedMsgs lock).reverse.flatMap (·.keys)) mm.keys mm.kptr 0 log =
        result at step ⊢
      obtain ⟨locked, keys, n, log'⟩ := result
      simp only [Nat.zero_add] at step ⊢
      obtain ⟨kept, passed, events, attempt, rfl, rfl⟩ := step
      have bound : passed.length ≤ keys.length := by
        have part := attempt.isPrefix.length_le
        rwa [← kept, length_hashes] at part
      have taken : (hashes keys).take passed.length = passed := by
        rw [kept]
        exact List.prefix_iff_eq_take.mp attempt.isPrefix ▸ rfl
      have all : queueHashes ((passedMsgs lock).reverse ++ { mm with keys := keys } :: next) =
          queueHashes ((passedMsgs lock).reverse ++ mm :: next) := by
        rw [queueHashes_append, queueHashes_append, queueHashes, queueHashes, queueHashes]
        simp only [List.flatMap_cons, kept]
      have held' : MultiLock.Linked
          ⟨passedMsgs lock, { mm with keys := keys }, passed.length, next⟩ := by
        refine ⟨?_, bound⟩
        rw [MultiLock.msgList, queueLinked_append]
        refine ⟨front, ?_, ?_⟩
        · simpa [kept] using own
        · simpa [kept] using rest
      have counted : passedHashes (some ⟨passedMsgs lock, { mm with keys := keys }, passed.length,
          next⟩) = queueHashes (passedMsgs lock).reverse ++ passed := by
        rw [passedHashes, taken]
      cases locked with
      | false =>
          refine ⟨⟨passed, events, ?_, rfl, counted⟩, ?_, ?_⟩
          · exact attempt.stop (queueHashes next)
          · rintro _ ⟨⟩
            exact held'
          · rintro _ ⟨⟩
            exact all
      | true =>
          obtain ⟨rfl, rfl⟩ := attempt.eq_of_locked
          have behind : queueHashes (passedMsgs lock).reverse ++ hashes mm.keys = queueHashes
              (passedMsgs (some ⟨passedMsgs lock, { mm with keys := keys },
                (hashes mm.keys).length, next⟩)).reverse := by
            rw [passedMsgs, List.reverse_cons, queueHashes_append, queueHashes_singleton]
            exact congrArg (_ ++ ·) kept.symm
          obtain ⟨⟨passed, more, attempt', logged, passed'⟩, linked', hashes'⟩ :=
            ih (some _) _ (by simpa [passedMsgs, MultiLock.msgList] using held'.queue)
              (by rintro _ ⟨⟩; exact ⟨held', rfl⟩) (counted.trans behind)
          rw [← behind] at attempt' passed'
          refine ⟨⟨_, _, attempt'.after (hashes mm.keys), ?_, ?_⟩, linked', ?_⟩
          · rw [← List.append_assoc]
            exact logged
          · rw [← List.append_assoc]
            exact passed'
          · intro held member
            rw [hashes' held member, ← all, passedMsgs, List.reverse_cons, List.append_assoc,
              List.singleton_append]

end Queue

section Balance

/-- The position of the lock of each key of the queue. -/
def RedisMultiExec.allKptr (mul : RedisMultiExec) : List Nat := mul.msgList.flatMap (·.kptr)

/-- The first `n` keys of the queue have one lock for each hash: the context of the first key with
it, which all of them point to. -/
structure LockedUpTo (mul : RedisMultiExec) (n : Nat) (ctxs : List LockCtx) : Prop where
  once : (ctxs.map Prod.snd).Nodup
  owned : ∀ ctx ∈ ctxs, ctx.1 < n ∧ ∃ key, mul.allKeys[ctx.1]? = some key ∧ key.hash = ctx.2
  linked : ∀ i < n, ∀ key, mul.allKeys[i]? = some key →
    ∃ ctx ∈ ctxs, ctx.2 = key.hash ∧ ctx.1 ≤ i ∧ mul.allKptr[i]? = some ctx.1

/-- An attempt to lock the queue behind `start` ends with all keys locked, or at a busy key with
the ones before it; the release gives back what the attempt has locked, the last one first. -/
structure Balanced (mul : RedisMultiExec) (start : List LockEvent)
    (result : Bool × Option MultiLock × List LockEvent) : Prop where
  locked : result.1 = true → ∃ ctxs, LockedUpTo mul mul.allKeys.length ctxs ∧
    result.2.2 = start ++ ctxs.map .acquire ∧
    multiReleaseLock result.2.1 result.2.2 = result.2.2 ++ ctxs.reverse.map .release
  busy : result.1 = false → ∃ ctxs busy, LockedUpTo mul busy.1 ctxs ∧
    (∃ key, mul.allKeys[busy.1]? = some key ∧ key.hash = busy.2) ∧
    busy.2 ∉ ctxs.map Prod.snd ∧
    result.2.2 = start ++ ctxs.map .acquire ++ [.busy busy] ∧
    multiReleaseLock result.2.1 result.2.2 = result.2.2 ++ ctxs.reverse.map .release

variable {mul : RedisMultiExec}

/-- The owners among the first hashes of a linked queue. -/
theorem RedisMultiExec.Linked.lockedUpTo (queue : mul.Linked) {front rest : List KeyHash}
    (split : hashes mul.allKeys = front ++ rest) :
    LockedUpTo mul front.length (owners [] front) := by
  have place {h : KeyHash} (member : h ∈ front) :
      firstIndex EvKeyCtx.hash mul.allKeys h = firstIndex id front h := by
    have mapped : firstIndex EvKeyCtx.hash mul.allKeys h = firstIndex id (hashes mul.allKeys) h := by
      rw [firstIndex, firstIndex, hashes, List.findIdx_map]
      rfl
    rw [mapped, split]
    exact firstIndex_append (f := id) ⟨h, member, rfl⟩
  refine ⟨nodup_firsts [] front, ?_, ?_⟩
  · rintro ⟨i, h⟩ member
    obtain ⟨⟨_, occurs, rfl⟩, -, rfl⟩ := (mem_firsts [] i).mp member
    have inside := (firstIndex_lt_iff (f := id)).mpr ⟨_, occurs, rfl⟩
    refine ⟨inside, ?_⟩
    have other : ∃ key ∈ mul.allKeys, key.hash = _ :=
      List.mem_map.mp (split ▸ List.mem_append_left rest occurs)
    have found := getElem?_firstIndex other
    rwa [place occurs] at found
  · intro i bound key found
    have hash : front[i]? = some key.hash := by
      rw [← List.getElem?_append_left bound, ← split, hashes, List.getElem?_map, found]
      rfl
    have occurs : key.hash ∈ front := List.mem_of_getElem? hash
    refine ⟨(firstIndex id front key.hash, key.hash), ?_, rfl, ?_, ?_⟩
    · exact (mem_firsts [] _).mpr ⟨⟨key.hash, occurs, rfl⟩, by simp, rfl⟩
    · exact firstIndex_le (f := id) hash
    · rw [RedisMultiExec.allKptr, queue.links, FirstIndex.links, List.getElem?_map, found, Option.map_some,
        place occurs]

/-- An attempt on a linked queue is balanced. -/
theorem RedisMultiExec.Linked.balanced (queue : mul.Linked) (locks : Locks)
    (msgs : List RedisMultiMsg) (linked : QueueLinked [] msgs)
    (same : queueHashes msgs = hashes mul.allKeys) (start : List LockEvent) :
    Balanced mul start (locks.multiTryLock none msgs start) := by
  obtain ⟨⟨passed, events, attempt, logged, counted⟩, held, -⟩ :=
    locks.multiTryLock_result none msgs start linked (by simp) rfl
  have nothing : queueHashes (passedMsgs none).reverse = [] := rfl
  rw [nothing, List.nil_append] at counted
  rw [nothing, same] at attempt
  have released := multiReleaseLock_eq _ held (locks.multiTryLock none msgs start).2.2
  rw [counted, ← List.map_reverse] at released
  generalize locks.multiTryLock none msgs start = result at attempt logged released ⊢
  obtain ⟨locked, lock, log⟩ := result
  cases locked with
  | true =>
      obtain ⟨rfl, rfl⟩ := attempt.eq_of_locked
      have all := queue.lockedUpTo (List.append_nil _).symm
      rw [length_hashes] at all
      exact ⟨fun _ => ⟨_, all, logged, released⟩, by simp⟩
  | false =>
      obtain ⟨h, rest, split, isNew, rfl⟩ := attempt.eq_of_busy
      rw [← List.append_assoc] at logged
      have busyKey : ∃ key, mul.allKeys[passed.length]? = some key ∧ key.hash = h := by
        have found : (hashes mul.allKeys)[passed.length]? = some h := by
          rw [split]
          simp
        rw [hashes, List.getElem?_map] at found
        exact Option.map_eq_some_iff.mp found
      have unlocked : h ∉ (owners [] passed).map Prod.snd := by
        intro member
        obtain ⟨⟨i, k⟩, inside, rfl⟩ := List.mem_map.mp member
        obtain ⟨k', occurs, same⟩ := ((mem_firsts [] i).mp inside).1
        exact isNew k' occurs same
      exact ⟨by simp, fun _ => ⟨_, _, queue.lockedUpTo split, busyKey, unlocked, logged, released⟩⟩

/-- What a failed attempt and its release add to the released locks. -/
theorem releasedLocks_failed (ctxs : List LockCtx) (busy : LockCtx) (failed : List LockEvent) :
    releasedLocks
        (ctxs.map .acquire ++ [.busy busy] ++ ctxs.reverse.map .release ++ failed) =
      ctxs.reverse ++ releasedLocks failed := by
  simp only [releasedLocks, List.filterMap_append, List.filterMap_map]
  simp

/-- What a failed attempt and its release add to the acquired locks. -/
theorem acquiredLocks_failed (ctxs : List LockCtx) (busy : LockCtx) (failed : List LockEvent) :
    acquiredLocks
        (ctxs.map .acquire ++ [.busy busy] ++ ctxs.reverse.map .release ++ failed) =
      ctxs ++ acquiredLocks failed := by
  simp only [acquiredLocks, List.filterMap_append, List.filterMap_map]
  simp

/-- Every attempt is balanced, and the failed ones before it have released what they acquired. -/
theorem RedisMultiExec.Linked.attempt_balanced (queue : mul.Linked) (locks : Locks)
    (retries : Nat) (msgs : List RedisMultiMsg) (linked : QueueLinked [] msgs)
    (same : queueHashes msgs = hashes mul.allKeys) (log : List LockEvent) :
    ∃ failed, (releasedLocks failed).Perm (acquiredLocks failed) ∧
      Balanced mul (log ++ failed) (locks.attempt retries msgs log) := by
  induction retries generalizing msgs log with
  | zero =>
      refine ⟨[], .nil, ?_⟩
      rw [List.append_nil]
      exact queue.balanced locks msgs linked same log
  | succ retries ih =>
      have first := queue.balanced locks msgs linked same log
      have result := locks.multiTryLock_result none msgs log linked (by simp) rfl
      rw [Locks.attempt]
      generalize locks.multiTryLock none msgs log = attempted at first result ⊢
      obtain ⟨locked, lock, log'⟩ := attempted
      cases locked with
      | true =>
          refine ⟨[], .nil, ?_⟩
          rw [List.append_nil]
          exact first
      | false =>
          obtain ⟨ctxs, busy, -, -, -, logged, released⟩ := first.busy rfl
          simp only at logged released
          have next : QueueLinked [] (lock.elim msgs (·.msgList)) ∧
              queueHashes (lock.elim msgs (·.msgList)) = hashes mul.allKeys := by
            cases lock with
            | none => exact ⟨linked, same⟩
            | some held => exact ⟨(result.linked held rfl).queue, (result.hashes held rfl).trans same⟩
          obtain ⟨failed, paired, last⟩ := ih _ next.1 next.2 (multiReleaseLock lock log')
          have events : multiReleaseLock lock log' ++ failed = log ++
              (ctxs.map .acquire ++ [.busy busy] ++ ctxs.reverse.map .release ++ failed) := by
            rw [released, logged]
            simp only [List.append_assoc]
          rw [events] at last
          refine ⟨_, ?_, last⟩
          rw [releasedLocks_failed, acquiredLocks_failed]
          exact (List.reverse_perm ctxs).append paired

end Balance

section Main

variable {E R : Type} [TableEntry E]

/-- A new connection queues nothing. -/
theorem not_queueing (queueing : false = true) : (none : Option RedisMultiExec).isSome = true :=
  absurd queueing Bool.false_ne_true

/-- A transaction of a new connection, between whose requests others change the table. -/
def multiRun (hash : Nat → Bytes → KeyHash) (handlers : Handlers E R) (start : Session E)
    (reqs : List (Session E × Request)) : RedisExec E :=
  (run (fun c (pair : Session E × Request) =>
    exec hash handlers { c with session := pair.1 } pair.2) { session := start, queueing := not_queueing } reqs).2

theorem linked_multiRun (hash : Nat → Bytes → KeyHash) (handlers : Handlers E R)
    (start : Session E) (reqs : List (Session E × Request)) :
    (multiRun hash handlers start reqs).Linked := by
  have both : (multiRun hash handlers start reqs).Consistent ∧
      (multiRun hash handlers start reqs).Linked :=
    inv_run (fun c : RedisExec E => c.Consistent ∧ c.Linked)
      (fun c pair both =>
        ⟨consistent_exec hash handlers (c := { c with session := pair.1 }) both.1 pair.2,
          linked_exec hash handlers (c := { c with session := pair.1 }) both.1 both.2 pair.2⟩)
      ⟨RedisExec.consistent_of_none rfl, RedisExec.linked_of_none rfl⟩ reqs
  exact both.2

/-- A transaction that reads one key twice. -/
def twiceRequests : List (Session StringEntry × Request) :=
  [multiRequest, wordsRequest (some .getCmd) ["get", "twice"],
    wordsRequest (some .getCmd) ["get", "twice"]].map fun req => (emptySession, req)

/-- The first attempt finds the lock busy. -/
def busyOnce : Locks := fun log _ => if log = [] then none else some .keyOk

end Main

end Raids
