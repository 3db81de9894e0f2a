import Raids.Construction.Multi.Connection

namespace Raids

/-- The context of a lock: the position of its key in the queue and the hash that it locks. -/
abbrev LockCtx := Nat × KeyHash

/-- What a transaction does to the locks of the table. -/
inductive LockEvent where
  | acquire (ctx : LockCtx)
  | busy (ctx : LockCtx)
  | release (ctx : LockCtx)
  deriving DecidableEq

/-- A lock is busy or tells the status of its key, and that may depend on all that happened
before. -/
abbrev Locks := List LockEvent → KeyHash → Option KeyStatus

/-- The message `mm` is the last one that the locking reached, and `n` counts its keys that are
locked. The messages before it stand the nearest first. -/
structure MultiLock where
  back : List RedisMultiMsg
  mm : RedisMultiMsg
  n : Nat
  next : List RedisMultiMsg

def MultiLock.msgList (lock : MultiLock) : List RedisMultiMsg :=
  lock.back.reverse ++ lock.mm :: lock.next

/-- The loop over the keys of a message. A busy lock ends it before its key is counted. -/
def Locks.lockKeys (locks : Locks) : List EvKeyCtx → List EvKeyCtx → List Nat → Nat →
    List LockEvent → Bool × List EvKeyCtx × Nat × List LockEvent
  | _, [], _, n, log => (true, [], n, log)
  | before, key :: keys, kptr, n, log =>
      if kptr.head? = some before.length then
        match locks log key.hash with
        | none => (false, key :: keys, n, log ++ [.busy (before.length, key.hash)])
        | some kstatus =>
            let key := { key with kstatus := kstatus }
            let (locked, keys, n, log) := locks.lockKeys (before ++ [key]) keys kptr.tail (n + 1)
              (log ++ [.acquire (before.length, key.hash)])
            (locked, key :: keys, n, log)
      else
        let kstatus := ((before ++ [key]).find? (·.hash = key.hash)).elim key.kstatus (·.kstatus)
        let key := { key with kstatus := kstatus }
        let (locked, keys, n, log) :=
          locks.lockKeys (before ++ [key]) keys kptr.tail (n + 1) log
        (locked, key :: keys, n, log)

/-- The messages behind which the next one is locked. -/
def passedMsgs : Option MultiLock → List RedisMultiMsg
  | none => []
  | some lock => lock.mm :: lock.back

/-- The messages are locked in their order, up to the first busy lock. -/
def Locks.multiTryLock (locks : Locks) : Option MultiLock → List RedisMultiMsg →
    List LockEvent → Bool × Option MultiLock × List LockEvent
  | lock, [], log => (true, lock, log)
  | lock, mm :: next, log =>
      let back := passedMsgs lock
      let (locked, keys, n, log) :=
        locks.lockKeys (back.reverse.flatMap (·.keys)) mm.keys mm.kptr 0 log
      let lock := some ⟨back, { mm with keys := keys }, n, next⟩
      if locked then locks.multiTryLock lock next log else (false, lock, log)

/-- The keys of a message that own their lock give it back, the last one first. -/
def releaseKeys (base : Nat) (mm : RedisMultiMsg) : Nat → List LockEvent → List LockEvent
  | 0, log => log
  | n + 1, log =>
      releaseKeys base mm n
        (match mm.keys[n]? with
        | none => log
        | some key =>
            if mm.kptr[n]? = some (base + n) then log ++ [.release (base + n, key.hash)] else log)

/-- The walk back over the messages releases all of their keys. -/
def releaseBack : List RedisMultiMsg → List LockEvent → List LockEvent
  | [], log => log
  | mm :: back, log =>
      releaseBack back (releaseKeys (back.reverse.flatMap (·.keys)).length mm mm.keys.length log)

def multiReleaseLock : Option MultiLock → List LockEvent → List LockEvent
  | none, log => log
  | some lock, log =>
      releaseBack lock.back
        (releaseKeys (lock.back.reverse.flatMap (·.keys)).length lock.mm lock.n log)

/-- A failed attempt is released and tried again; the result is the one of the last attempt. -/
def Locks.attempt (locks : Locks) : Nat → List RedisMultiMsg → List LockEvent →
    Bool × Option MultiLock × List LockEvent
  | 0, msgs, log => locks.multiTryLock none msgs log
  | retries + 1, msgs, log =>
      let (locked, lock, log) := locks.multiTryLock none msgs log
      if locked then (locked, lock, log)
      else locks.attempt retries (lock.elim msgs (·.msgList)) (multiReleaseLock lock log)

/-- The locks that a log acquires. -/
def acquiredLocks (log : List LockEvent) : List LockCtx :=
  log.filterMap fun
    | .acquire ctx => some ctx
    | _ => none

/-- The locks that a log releases. -/
def releasedLocks (log : List LockEvent) : List LockCtx :=
  log.filterMap fun
    | .release ctx => some ctx
    | _ => none

end Raids
