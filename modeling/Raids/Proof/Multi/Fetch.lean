import Raids.Construction.Multi.Fetch

namespace Raids
open Dialogue

section Fresh

variable {E : Type} [TableEntry E]

/-- The status of a key that owns its lock tells whether the table has the key. -/
def OwnerFresh (mode : FetchMode) (db : Keyspace E) (ctx : EvKeyCtx) : Prop :=
  match mode with
  | .read =>
      if (db ctx.hash).isSome then ctx.kstatus = .keyOk
      else ctx.kstatus = .keyIsNew ∨ ctx.kstatus = .keyNotFound
  | .write => ctx.kstatus = if (db ctx.hash).isSome then .keyOk else .keyIsNew
  | .neither => True

/-- A writer created the key, or it deleted the key. -/
def EvKeyCtx.created (writer : EvKeyCtx) : Prop :=
  writer.kstatus = .keyOk ∧ writer.isNew = true ∧ writer.keyspaceDel = false

def EvKeyCtx.deleted (writer : EvKeyCtx) : Prop :=
  writer.kstatus = .keyOk ∧ writer.keyspaceDel = true

/-- The marks of the last writer tell how the table differs from the status of the lock. -/
def DupFresh (mode : FetchMode) (db : Keyspace E) (writer ctx : EvKeyCtx) : Prop :=
  match mode with
  | .read | .write =>
      isExpired db ctx.hash = false ∧
        if (db ctx.hash).isSome then
          ctx.kstatus = .keyOk ∧ ¬writer.deleted ∨ ctx.kstatus = .keyIsNew ∧ writer.created
        else
          ctx.kstatus = .keyOk ∧ writer.deleted ∨ ctx.kstatus = .keyIsNew ∧ ¬writer.created ∨
            ctx.kstatus = .keyNotFound
  | .neither => ctx.kstatus = .keyNoValue

/-- A key is fresh when it is the key of the selected database, and its marks agree with the
table. -/
def KeyFresh (hash : Bytes → KeyHash) (s : MultiState E) (idx : Nat) (forceRead : Bool)
    (ctx : EvKeyCtx) : Prop :=
  ctx.hash = hash ctx.kbuf ∧
    if s.kptr.getD idx (s.before.length + idx) = s.before.length + idx then
      OwnerFresh (fetchMode s.cmd forceRead) s.db ctx
    else
      DupFresh (fetchMode s.cmd forceRead) s.db (getDupKey (s.before ++ s.keys.take idx) ctx) ctx

/-- A query is fresh when it is about a fresh key; a handler that finishes needs the hash alone. -/
def Fresh (hash : Bytes → KeyHash) (s : MultiState E) : KeyQuery E → Prop
  | .fetch idx forceRead => ∀ ctx, s.keys[idx]? = some ctx → KeyFresh hash s idx forceRead ctx
  | .finish idx _ _ _ => ∀ ctx, s.keys[idx]? = some ctx → ctx.hash = hash ctx.kbuf

instance (writer : EvKeyCtx) : Decidable writer.created := inferInstanceAs (Decidable (_ ∧ _ ∧ _))

instance (writer : EvKeyCtx) : Decidable writer.deleted := inferInstanceAs (Decidable (_ ∧ _))

instance (mode : FetchMode) (db : Keyspace E) (ctx : EvKeyCtx) :
    Decidable (OwnerFresh mode db ctx) :=
  match mode with
  | .read => inferInstanceAs (Decidable (if (db ctx.hash).isSome then _ else _ ∨ _))
  | .write => inferInstanceAs (Decidable (ctx.kstatus = _))
  | .neither => .isTrue trivial

instance (mode : FetchMode) (db : Keyspace E) (writer ctx : EvKeyCtx) :
    Decidable (DupFresh mode db writer ctx) :=
  match mode with
  | .read | .write =>
      inferInstanceAs (Decidable (_ ∧ if (db ctx.hash).isSome then _ ∧ _ ∨ _ ∧ _ else _ ∧ _ ∨ _ ∧ _ ∨ _))
  | .neither => inferInstanceAs (Decidable (ctx.kstatus = _))

instance (hash : Bytes → KeyHash) (s : MultiState E) (idx : Nat) (forceRead : Bool)
    (ctx : EvKeyCtx) : Decidable (KeyFresh hash s idx forceRead ctx) :=
  inferInstanceAs (Decidable (_ ∧ if s.kptr.getD idx _ = _ then _ else _))

instance (hash : Bytes → KeyHash) (s : MultiState E) (query : KeyQuery E) :
    Decidable (Fresh hash s query) :=
  match query with
  | .fetch idx forceRead =>
      match found : s.keys[idx]? with
      | none => .isTrue (by simp [Fresh, found])
      | some ctx => decidable_of_iff (KeyFresh hash s idx forceRead ctx) (by simp [Fresh, found])
  | .finish idx _ _ _ =>
      match found : s.keys[idx]? with
      | none => .isTrue (by simp [Fresh, found])
      | some ctx => decidable_of_iff (ctx.hash = hash ctx.kbuf) (by simp [Fresh, found])

/-- The key of a queued command and the key of the same command outside of a transaction. -/
structure SameKey (hash : Bytes → KeyHash) (ctx own : EvKeyCtx) : Prop where
  kbuf : ctx.kbuf = own.kbuf
  isNew : ctx.isNew = own.isNew
  hash : own.hash = hash own.kbuf

/-- The owner of a lock sees what it would see without a transaction exactly when it is fresh. -/
theorem ownerView_iff {hash : Bytes → KeyHash} (mode : FetchMode) (db : Keyspace E)
    {ctx own : EvKeyCtx} (same : SameKey hash ctx own) (sameHash : ctx.hash = hash ctx.kbuf) :
    (multiOwnerFetch mode db ctx).1.view (multiOwnerFetch mode db ctx).2 =
        (execKeyFetch mode db own).1.view (execKeyFetch mode db own).2 ↔
      OwnerFresh mode db ctx := by
  have sameOwn : own.hash = ctx.hash := by rw [same.hash, sameHash, same.kbuf]
  have sameNew := same.isNew
  cases mode with
  | read =>
      cases entry : db ctx.hash with
      | none =>
          cases status : ctx.kstatus <;>
            simp [multiOwnerFetch, execKeyFetch, EvKeyCtx.view, OwnerFresh, isExpired, sameOwn,
              sameNew, entry, status]
      | some e =>
          cases expired : TableEntry.isExpired e <;> cases status : ctx.kstatus <;>
            simp [multiOwnerFetch, execKeyFetch, EvKeyCtx.view, OwnerFresh, isExpired, expire,
              sameOwn, sameNew, entry, status, expired]
  | write =>
      cases entry : db ctx.hash with
      | none =>
          cases status : ctx.kstatus <;>
            simp [multiOwnerFetch, execKeyFetch, EvKeyCtx.view, OwnerFresh, isExpired, acquire,
              sameOwn, sameNew, entry, status]
      | some e =>
          cases expired : TableEntry.isExpired e <;> cases status : ctx.kstatus <;>
            simp [multiOwnerFetch, execKeyFetch, EvKeyCtx.view, OwnerFresh, isExpired, expire,
              acquire, sameOwn, sameNew, entry, status, expired]
  | neither =>
      refine iff_of_true ?_ trivial
      simp [multiOwnerFetch, execKeyFetch, EvKeyCtx.view, sameOwn, sameNew]

/-- The status of a key that shares a lock follows the marks of the last writer. -/
theorem dupStatus_eq_keyOk_iff (writer ctx : EvKeyCtx) :
    dupStatus writer ctx = .keyOk ↔
      ctx.kstatus = .keyOk ∧ ¬writer.deleted ∨ ctx.kstatus = .keyIsNew ∧ writer.created := by
  rw [dupStatus, EvKeyCtx.deleted, EvKeyCtx.created]
  by_cases known : writer.kstatus = .keyOk <;> cases status : ctx.kstatus <;>
    cases writer.isNew <;> cases writer.keyspaceDel <;> simp [known]

theorem dupStatus_eq_keyIsNew_iff (writer ctx : EvKeyCtx) :
    dupStatus writer ctx = .keyIsNew ↔
      ctx.kstatus = .keyOk ∧ writer.deleted ∨ ctx.kstatus = .keyIsNew ∧ ¬writer.created := by
  rw [dupStatus, EvKeyCtx.deleted, EvKeyCtx.created]
  by_cases known : writer.kstatus = .keyOk <;> cases status : ctx.kstatus <;>
    cases writer.isNew <;> cases writer.keyspaceDel <;> simp [known]

theorem dupStatus_eq_keyNotFound_iff (writer ctx : EvKeyCtx) :
    dupStatus writer ctx = .keyNotFound ↔ ctx.kstatus = .keyNotFound := by
  rw [dupStatus]
  by_cases known : writer.kstatus = .keyOk <;> cases status : ctx.kstatus <;>
    cases writer.isNew <;> cases writer.keyspaceDel <;> simp [known]

theorem dupStatus_eq_keyNoValue_iff (writer ctx : EvKeyCtx) :
    dupStatus writer ctx = .keyNoValue ↔ ctx.kstatus = .keyNoValue := by
  rw [dupStatus]
  by_cases known : writer.kstatus = .keyOk <;> cases status : ctx.kstatus <;>
    cases writer.isNew <;> cases writer.keyspaceDel <;> simp [known]

/-- A key that shares a lock sees what it would see without a transaction exactly when it is
fresh. -/
theorem dupView_iff {hash : Bytes → KeyHash} (mode : FetchMode) (db : Keyspace E)
    (before : List EvKeyCtx) {ctx own : EvKeyCtx} (same : SameKey hash ctx own)
    (sameHash : ctx.hash = hash ctx.kbuf) :
    (multiDupFetch mode before ctx).view db =
        (execKeyFetch mode db own).1.view (execKeyFetch mode db own).2 ↔
      DupFresh mode db (getDupKey before ctx) ctx := by
  have sameOwn : own.hash = ctx.hash := by rw [same.hash, sameHash, same.kbuf]
  have sameNew := same.isNew
  have isOk := dupStatus_eq_keyOk_iff (getDupKey before ctx) ctx
  have isNew := dupStatus_eq_keyIsNew_iff (getDupKey before ctx) ctx
  have notFound := dupStatus_eq_keyNotFound_iff (getDupKey before ctx) ctx
  have noValue := dupStatus_eq_keyNoValue_iff (getDupKey before ctx) ctx
  cases mode with
  | read =>
      simp only [DupFresh, ← isOk, ← or_assoc, ← isNew, ← notFound]
      cases entry : db ctx.hash with
      | none =>
          cases status : dupStatus (getDupKey before ctx) ctx <;>
            simp [multiDupFetch, execKeyFetch, EvKeyCtx.view, isExpired, sameOwn, sameNew, entry,
              status]
      | some e =>
          cases expired : TableEntry.isExpired e <;>
            cases status : dupStatus (getDupKey before ctx) ctx <;>
            simp [multiDupFetch, execKeyFetch, EvKeyCtx.view, isExpired, expire, sameOwn, sameNew,
              entry, status, expired]
  | write =>
      simp only [DupFresh, ← isOk, ← or_assoc, ← isNew, ← notFound]
      cases entry : db ctx.hash with
      | none =>
          cases status : dupStatus (getDupKey before ctx) ctx <;>
            simp [multiDupFetch, execKeyFetch, EvKeyCtx.view, isExpired, acquire, sameOwn, sameNew,
              entry, status]
      | some e =>
          cases expired : TableEntry.isExpired e <;>
            cases status : dupStatus (getDupKey before ctx) ctx <;>
            simp [multiDupFetch, execKeyFetch, EvKeyCtx.view, isExpired, expire, acquire, sameOwn,
              sameNew, entry, status, expired]
  | neither =>
      simp only [DupFresh, ← noValue]
      cases status : dupStatus (getDupKey before ctx) ctx <;>
        simp [multiDupFetch, execKeyFetch, EvKeyCtx.view, sameOwn, sameNew, status]

end Fresh

section Same

variable {α β : Type*} {P : α → β → Prop} {l : List α} {l' : List β}

/-- Related lists have related elements at the same places. -/
theorem forall₂_getElem? (related : List.Forall₂ P l l') (i : Nat) :
    l[i]? = none ∧ l'[i]? = none ∨ ∃ a b, l[i]? = some a ∧ l'[i]? = some b ∧ P a b := by
  induction related generalizing i with
  | nil => exact .inl ⟨rfl, rfl⟩
  | cons first _ ih =>
      cases i with
      | zero => exact .inr ⟨_, _, rfl, rfl, first⟩
      | succ i => simpa using ih i

theorem forall₂_set (related : List.Forall₂ P l l') {i : Nat} {a : α} {b : β} (last : P a b) :
    List.Forall₂ P (l.set i a) (l'.set i b) := by
  induction related generalizing i with
  | nil => exact .nil
  | cons first others ih =>
      cases i with
      | zero => exact .cons last others
      | succ i => exact .cons first ih

end Same

section Answers

variable {E : Type} [TableEntry E]

/-- The two runs of a command have the same table, and keys that differ only in their marks. -/
structure SameRun (hash : Bytes → KeyHash) (s : MultiState E) (t : CommandState E) : Prop where
  db : s.db = t.db
  cmd : s.cmd = t.cmd
  keys : List.Forall₂ (SameKey hash) s.keys t.keys

/-- A fetch changes its key alone. -/
theorem execKeyFetch_frame (mode : FetchMode) (db : Keyspace E) (ctx : EvKeyCtx) :
    (execKeyFetch mode db ctx).1.hash = ctx.hash ∧ (execKeyFetch mode db ctx).1.kbuf = ctx.kbuf ∧
      (execKeyFetch mode db ctx).2 =
        Function.update db ctx.hash ((execKeyFetch mode db ctx).2 ctx.hash) := by
  cases mode with
  | read => rw [execKeyFetch]; split <;> simp [expire]
  | write => rw [execKeyFetch]; split <;> simp [expire]
  | neither => simp [execKeyFetch]

theorem multiKeyFetch_frame (mode : FetchMode) (db : Keyspace E) (before : List EvKeyCtx)
    (position lock : Nat) (ctx : EvKeyCtx) :
    (multiKeyFetch mode db before position lock ctx).1.hash = ctx.hash ∧
      (multiKeyFetch mode db before position lock ctx).1.kbuf = ctx.kbuf ∧
      (multiKeyFetch mode db before position lock ctx).2 =
        Function.update db ctx.hash
          ((multiKeyFetch mode db before position lock ctx).2 ctx.hash) := by
  rw [multiKeyFetch]
  split
  · cases mode with
    | read => rw [multiOwnerFetch]; repeat' split
              all_goals simp [expire]
    | write => rw [multiOwnerFetch]; split <;> simp [expire]
    | neither => simp [multiOwnerFetch]
  · cases mode <;> simp [multiDupFetch]

variable {hash : Bytes → KeyHash} {s : MultiState E} {t : CommandState E}

/-- The answer to a query is the one without a transaction exactly when the query is fresh. -/
theorem answer_eq_iff (run : SameRun hash s t) (query : KeyQuery E) :
    (multiAnswer s query).1 = (commandAnswer t query).1 ↔ Fresh hash s query := by
  obtain ⟨sameDb, sameCmd, keys⟩ := run
  cases query with
  | fetch idx forceRead =>
      rcases forall₂_getElem? keys idx with ⟨none', none''⟩ | ⟨ctx, own, isCtx, isOwn, same⟩
      · simp [multiAnswer, commandAnswer, none', none'', Fresh]
      · have frame := multiKeyFetch_frame (fetchMode s.cmd forceRead) s.db
          (s.before ++ s.keys.take idx) (s.before.length + idx)
          (s.kptr.getD idx (s.before.length + idx)) ctx
        have frame' := execKeyFetch_frame (fetchMode t.cmd forceRead) t.db own
        simp only [multiAnswer, commandAnswer, isCtx, isOwn, Option.some.injEq, Fresh,
          KeyFresh, forall_eq']
        by_cases sameHash : ctx.hash = hash ctx.kbuf
        · simp only [sameHash, true_and, ← sameDb, ← sameCmd, multiKeyFetch]
          split
          · exact ownerView_iff _ s.db same sameHash
          · exact dupView_iff _ s.db _ same sameHash
        · refine iff_of_false (fun equal => sameHash ?_) fun fresh => sameHash fresh.1
          have hashes := congrArg KeyView.hash equal
          simp only [EvKeyCtx.view, frame.1, frame'.1] at hashes
          rw [hashes, same.hash, same.kbuf]
  | finish idx update kstatus isNew =>
      rcases forall₂_getElem? keys idx with ⟨none', none''⟩ | ⟨ctx, own, isCtx, isOwn, same⟩
      · simp [multiAnswer, commandAnswer, none', none'', Fresh]
      · simp only [multiAnswer, commandAnswer, isCtx, isOwn, Option.some.injEq, Fresh,
          forall_eq']
        constructor
        · intro equal
          have hashes := congrArg KeyView.hash equal
          simp only [EvKeyCtx.view, EvKeyCtx.finish] at hashes
          rw [hashes, same.hash, same.kbuf]
        · intro sameHash
          have sameOwn : own.hash = ctx.hash := by rw [same.hash, sameHash, same.kbuf]
          simp [EvKeyCtx.view, EvKeyCtx.finish, sameOwn, same.isNew, sameDb]

/-- A fresh query keeps the two runs of a command together. -/
theorem sameRun_answer (run : SameRun hash s t) (query : KeyQuery E) (fresh : Fresh hash s query) :
    SameRun hash (multiAnswer s query).2 (commandAnswer t query).2 := by
  have equal := (answer_eq_iff run query).mpr fresh
  obtain ⟨sameDb, sameCmd, keys⟩ := run
  cases query with
  | fetch idx forceRead =>
      rcases forall₂_getElem? keys idx with ⟨none', none''⟩ | ⟨ctx, own, isCtx, isOwn, same⟩
      · simp only [multiAnswer, commandAnswer, none', none'']
        exact ⟨sameDb, sameCmd, keys⟩
      · have sameHash := (fresh ctx isCtx).1
        have sameOwn : own.hash = ctx.hash := by rw [same.hash, sameHash, same.kbuf]
        have frame := multiKeyFetch_frame (fetchMode s.cmd forceRead) s.db
          (s.before ++ s.keys.take idx) (s.before.length + idx)
          (s.kptr.getD idx (s.before.length + idx)) ctx
        have frame' := execKeyFetch_frame (fetchMode t.cmd forceRead) t.db own
        simp only [multiAnswer, commandAnswer, isCtx, isOwn, Option.some.injEq] at equal ⊢
        have entry := congrArg KeyView.entry equal
        simp only [EvKeyCtx.view, frame.1, frame'.1] at entry
        refine ⟨?_, sameCmd, forall₂_set keys ⟨?_, congrArg KeyView.isNew equal, ?_⟩⟩
        · rw [frame.2.2, frame'.2.2, entry, sameDb, sameOwn]
        · rw [frame.2.1, frame'.2.1, same.kbuf]
        · rw [frame'.1, frame'.2.1, same.hash]
  | finish idx update kstatus isNew =>
      rcases forall₂_getElem? keys idx with ⟨none', none''⟩ | ⟨ctx, own, isCtx, isOwn, same⟩
      · simp only [multiAnswer, commandAnswer, none', none'']
        exact ⟨sameDb, sameCmd, keys⟩
      · have sameHash := fresh ctx isCtx
        have sameOwn : own.hash = ctx.hash := by rw [same.hash, sameHash, same.kbuf]
        simp only [multiAnswer, commandAnswer, isCtx, isOwn, Option.some.injEq] at equal ⊢
        refine ⟨?_, sameCmd, forall₂_set keys ⟨same.kbuf, congrArg KeyView.isNew equal, ?_⟩⟩
        · rw [sameDb, sameOwn]
        · exact same.hash

/-- The transcripts of a command are equal exactly when all its queries are fresh. -/
theorem talk_eq_iff {R : Type} (run : SameRun hash s t)
    (program : Program (KeyQuery E) (Option (KeyView E)) R) :
    (talk multiAnswer s program).1 = (talk commandAnswer t program).1 ↔
      Throughout multiAnswer (Fresh hash) s program :=
  transcript_eq_iff (fun _ _ query run => answer_eq_iff run query)
    (fun _ _ query run fresh => sameRun_answer run query fresh) run

theorem talk_sameRun {R : Type} (run : SameRun hash s t)
    {program : Program (KeyQuery E) (Option (KeyView E)) R}
    (fresh : Throughout multiAnswer (Fresh hash) s program) :
    SameRun hash (talk multiAnswer s program).2 (talk commandAnswer t program).2 :=
  (talk_simulate (fun _ _ query run => (answer_eq_iff run query).mpr)
    (fun _ _ query run fresh => sameRun_answer run query fresh) run fresh).2

end Answers

end Raids
