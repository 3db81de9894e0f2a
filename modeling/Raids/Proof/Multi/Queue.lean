import Raids.Construction.Multi.Connection

namespace Raids
open Machine

@[simp] theorem keyArgs_nil : keyArgs [] = [] := rfl

@[simp] theorem keyArgs_cons (ctx : EvKeyCtx) (keys : List EvKeyCtx) :
    keyArgs (ctx :: keys) = (ctx.argn, ctx.kbuf) :: keyArgs keys := rfl

@[simp] theorem keyArgs_append (first second : List EvKeyCtx) :
    keyArgs (first ++ second) = keyArgs first ++ keyArgs second := List.map_append

@[simp] theorem length_keyArgs (keys : List EvKeyCtx) : (keyArgs keys).length = keys.length :=
  List.length_map _

/-- The keys that the queueing loop takes, with their arguments. -/
def takenKeys (req : Request) : Nat → List Int → List (Int × Bytes)
  | _, [] => []
  | idx, i :: rest =>
      match req.msg.getArgStr i with
      | none => []
      | some key =>
          if req.grants (.key idx) then (i, key) :: takenKeys req (idx + 1) rest else []

theorem takenKeys_length_le (req : Request) (idx : Nat) (is : List Int) :
    (takenKeys req idx is).length ≤ is.length := by
  induction is generalizing idx with
  | nil => exact le_rfl
  | cons i rest ih =>
      rw [takenKeys]
      split
      · simp
      · split
        · simpa using ih (idx + 1)
        · simp

/-- The loop takes all keys exactly when each is a key and finds memory. -/
theorem takenKeys_length_eq_iff (req : Request) (idx : Nat) (is : List Int) :
    (takenKeys req idx is).length = is.length ↔
      (∀ i ∈ is, (req.msg.getArgStr i).isSome) ∧
        ∀ j < is.length, req.grants (.key (idx + j)) = true := by
  induction is generalizing idx with
  | nil => simp [takenKeys]
  | cons i rest ih =>
      have shift : (∀ j < rest.length + 1, req.grants (.key (idx + j)) = true) ↔
          req.grants (.key idx) = true ∧
            ∀ j < rest.length, req.grants (.key (idx + 1 + j)) = true := by
        constructor
        · intro all
          refine ⟨all 0 (by omega), fun j inside => ?_⟩
          have granted := all (j + 1) (by omega)
          rwa [show idx + (j + 1) = idx + 1 + j by omega] at granted
        · rintro ⟨first, more⟩ j inside
          cases j with
          | zero => exact first
          | succ j =>
              rw [show idx + (j + 1) = idx + 1 + j by omega]
              exact more j (by omega)
      simp only [takenKeys, List.mem_cons, forall_eq_or_imp, List.length_cons, shift]
      cases req.msg.getArgStr i with
      | none => simp
      | some key =>
          cases granted : req.grants (.key idx) with
          | false => simp
          | true => simp [ih (idx + 1)]

/-- Keys that are all taken are the arguments at their indices. -/
theorem takenKeys_complete {req : Request} {idx : Nat} {is : List Int}
    (complete : (takenKeys req idx is).length = is.length) :
    (takenKeys req idx is).map (fun key => (key.1, some key.2)) =
      is.map fun i => (i, req.msg.getArgStr i) := by
  induction is generalizing idx with
  | nil => rfl
  | cons i rest ih =>
      rw [takenKeys] at complete ⊢
      split at complete
      · simp at complete
      · rename_i key isKey
        split at complete
        · rename_i granted
          rw [if_pos granted, List.map_cons, List.map_cons, isKey]
          exact congrArg _ (ih (by simpa using complete))
        · simp at complete

section QueueKeys

variable (hash : Bytes → KeyHash) (req : Request) (before : List EvKeyCtx)

theorem queueKeys_keys (is : List Int) (mm : RedisMultiMsg) (filter : List (Nat × Nat)) :
    keyArgs (queueKeys hash req before is mm filter).2.1.keys =
      keyArgs mm.keys ++ takenKeys req mm.keys.length is := by
  induction is generalizing mm filter with
  | nil => simp [queueKeys, takenKeys]
  | cons i rest ih =>
      rw [queueKeys, takenKeys]
      cases req.msg.getArgStr i with
      | none => simp
      | some key =>
          cases granted : req.grants (.key mm.keys.length) with
          | false => simp
          | true => simp [ih, pushKey]

theorem queueKeys_msg (is : List Int) (mm : RedisMultiMsg) (filter : List (Nat × Nat)) :
    (queueKeys hash req before is mm filter).2.1.msg = mm.msg ∧
      (queueKeys hash req before is mm filter).2.1.cmd = mm.cmd := by
  induction is generalizing mm filter with
  | nil => exact ⟨rfl, rfl⟩
  | cons i rest ih =>
      rw [queueKeys]
      split
      · exact ⟨rfl, rfl⟩
      · split
        · exact ih _ _
        · exact ⟨rfl, rfl⟩

/-- The loop reports a key that it did not take, and no other error. -/
theorem queueKeys_status (is : List Int) (mm : RedisMultiMsg) (filter : List (Nat × Nat)) :
    ((queueKeys hash req before is mm filter).1 = .execOk ↔
        (takenKeys req mm.keys.length is).length = is.length) ∧
      ((queueKeys hash req before is mm filter).1 ≠ .execOk →
        (queueKeys hash req before is mm filter).1.isError) := by
  induction is generalizing mm filter with
  | nil => simp [queueKeys, takenKeys]
  | cons i rest ih =>
      rw [queueKeys, takenKeys]
      cases req.msg.getArgStr i with
      | none => exact ⟨by simp, fun _ => rfl⟩
      | some key =>
          cases granted : req.grants (.key mm.keys.length) with
          | false => exact ⟨by simp, fun _ => rfl⟩
          | true =>
              have rest := ih
                (pushKey before { kbuf := key, argn := i, hash := hash key } mm filter).1
                (pushKey before { kbuf := key, argn := i, hash := hash key } mm filter).2
              simpa [pushKey] using rest

end QueueKeys

/-- The number of keys that the queue has room for. -/
def keyCount (req : Request) (g : Geometry) : Nat :=
  if 0 < g.first then calcKeyCount g req.msg.argc else 0

/-- What a queued message holds: the message, the command and the keys with their arguments. -/
abbrev Entry := Option CommandMsg × RedisCmd × List (Int × Option Bytes)

def RedisMultiMsg.entry (mm : RedisMultiMsg) : Entry :=
  (mm.msg, mm.cmd, (keyArgs mm.keys).map fun key => (key.1, some key.2))

/-- The entry that a command should have: its own message and its own keys. -/
def ownEntry (req : Request) (cmd : RedisCmd) (g : Geometry) : Entry :=
  (some req.msg, cmd, (keyIndices g req.msg.argc).map fun i => (i, req.msg.getArgStr i))

/-- The keys of the command are strings with memory for each, and as many as were counted. -/
structure KeysQueue (req : Request) (g : Geometry) : Prop where
  strings : ∀ i ∈ keyIndices g req.msg.argc, (req.msg.getArgStr i).isSome
  granted : ∀ j < (keyIndices g req.msg.argc).length, req.grants (.key j) = true
  counted : (keyIndices g req.msg.argc).length = keyCount req g

theorem keysQueue_iff {req : Request} {g : Geometry} :
    KeysQueue req g ↔
      (takenKeys req 0 (keyIndices g req.msg.argc)).length = (keyIndices g req.msg.argc).length ∧
        (keyIndices g req.msg.argc).length = keyCount req g := by
  rw [takenKeys_length_eq_iff]
  simp only [Nat.zero_add]
  exact ⟨fun keys => ⟨⟨keys.strings, keys.granted⟩, keys.counted⟩,
    fun ⟨⟨strings, granted⟩, counted⟩ => ⟨strings, granted, counted⟩⟩

section MultiQueued

variable (hash : Bytes → KeyHash) (mul : RedisMultiExec) {req : Request} (cmd : RedisCmd)
  {g : Geometry}

/-- Without memory for the message nothing is queued. -/
theorem multiQueued_refused (refused : req.grants .message = false) :
    multiQueued hash mul req cmd g = (.errAllocFail, mul) := by
  simp [multiQueued, refused]

/-- A command that finds memory is pushed. It is acknowledged with its own entry exactly when its
keys can be queued. -/
theorem multiQueued_pushes (granted : req.grants .message = true) :
    ∃ mm filter, (multiQueued hash mul req cmd g).2 =
        { mul with
          msgList := mul.msgList ++ [mm], msgCount := mul.msgCount + 1, filter := filter } ∧
      ((multiQueued hash mul req cmd g).1 = .execOk ∧ mm.entry = ownEntry req cmd g ↔
        KeysQueue req g) ∧
      ((multiQueued hash mul req cmd g).1 ≠ .execOk →
        (multiQueued hash mul req cmd g).1.isError) := by
  have room : (if 0 < g.first then calcKeyCount g req.msg.argc else 0) = keyCount req g := rfl
  simp only [multiQueued, granted, if_true, room]
  split
  · have keys := queueKeys_keys hash req mul.allKeys
      (keyIndices g req.msg.argc) ⟨some req.msg, cmd, [], []⟩ mul.filter
    have msg := queueKeys_msg hash req mul.allKeys
      (keyIndices g req.msg.argc) ⟨some req.msg, cmd, [], []⟩ mul.filter
    have status := queueKeys_status hash req mul.allKeys
      (keyIndices g req.msg.argc) ⟨some req.msg, cmd, [], []⟩ mul.filter
    generalize queueKeys hash req mul.allKeys (keyIndices g req.msg.argc)
      ⟨some req.msg, cmd, [], []⟩ mul.filter = result at keys msg status
    obtain ⟨status', mm, filter⟩ := result
    simp only [keyArgs_nil, List.nil_append, List.length_nil] at keys msg status
    have size := congrArg List.length keys
    rw [length_keyArgs] at size
    refine ⟨mm, filter, ?_, ?_, ?_⟩
    · split <;> rename_i failed
      · rfl
      · split <;> rfl
    · rw [keysQueue_iff]
      by_cases stopped : status' ≠ .execOk
      · rw [if_pos stopped]
        exact iff_of_false (fun both => stopped both.1)
          fun both => stopped (status.1.mpr both.1)
      · have complete := status.1.mp (not_not.mp stopped)
        rw [if_neg stopped]
        by_cases full : mm.keys.length = keyCount req g
        · rw [if_neg (not_not.mpr full)]
          refine iff_of_true ⟨rfl, ?_⟩ ⟨complete, by omega⟩
          rw [RedisMultiMsg.entry, ownEntry, keys, takenKeys_complete complete, msg.1, msg.2]
        · rw [if_pos full]
          exact iff_of_false (fun both => nomatch both.1) fun both => full (by omega)
    · intro failed
      split at failed <;> rename_i stopped
      · rw [if_pos stopped]
        exact status.2 stopped
      · split at failed <;> rename_i full
        · rw [if_neg stopped, if_pos full]
          rfl
        · exact absurd rfl failed
  · rename_i none
    refine ⟨⟨some req.msg, cmd, [], []⟩, mul.filter, rfl, ?_, fun failed => absurd rfl failed⟩
    constructor
    · rintro ⟨-, own⟩
      have noKeys : keyIndices g req.msg.argc = [] := by
        simpa [RedisMultiMsg.entry, ownEntry] using own
      rw [keysQueue_iff, noKeys]
      exact ⟨rfl, by simp; omega⟩
    · intro keys
      have noKeys : keyIndices g req.msg.argc = [] :=
        List.length_eq_zero_iff.mp (by have := keys.counted; omega)
      refine ⟨rfl, ?_⟩
      rw [RedisMultiMsg.entry, ownEntry, noKeys]
      rfl

end MultiQueued

end Raids
