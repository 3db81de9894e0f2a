import Raids.Proof.Memcached.Continue

namespace Raids.Memcached

/-- The commands that store a value. -/
def MemcachedCmd.stores (command : MemcachedCmd) : Prop :=
  command = .set ∨ command = .add ∨ command = .append ∨ command = .replace ∨ command = .prepend ∨
    command = .cas

/-- A key is present when it is a string. -/
def Present (entry : Option McEntry) : Prop := ∃ e, entry = some e ∧ e.type = .string

/-- The keys that a storage command takes. -/
def MemcachedCmd.takes (command : MemcachedCmd) (present : Prop) : Prop :=
  match command with
  | .add => ¬present
  | .replace | .append | .prepend | .cas => present
  | _ => True

/-- When a storage request stores: its command takes the key, and the serial number of a request
that has one is the one of a key that is present. -/
def StoreAccepts (m : MemcachedMsg) (entry : Option McEntry) : Prop :=
  m.command.takes (Present entry) ∧
    (m.command = .cas ∨ m.cas ≠ 0 → ∃ e, entry = some e ∧ e.type = .string ∧ e.cas = m.cas)

/-- The same request in one of the two forms. -/
def KeyRun.form (run : KeyRun) (binary : Bool) : KeyRun :=
  { run with msg := { run.msg with binary := binary } }

/-- The key has the new value, with its next serial number. -/
def KeyRun.Writes (run : KeyRun) (before after : Option McEntry) : Prop :=
  ∃ e, after = some e ∧ e.type = .string ∧ e.data = run.storeData (KeyRun.storeTarget before) ∧
    e.cas = (KeyRun.storeTarget before).cas + 1

/-- The two forms of a request store in the cases of the table, leave the same key behind, and leave
the key alone when they do not store. -/
structure StoreMeets (run : KeyRun) (entry : Option McEntry) : Prop where
  text : run.Writes entry ((run.form false).execKey entry).entry ↔ StoreAccepts run.msg entry
  binary : run.Writes entry ((run.form true).execKey entry).entry ↔ StoreAccepts run.msg entry
  same : StoreAccepts run.msg entry →
    ((run.form false).execKey entry).entry = ((run.form true).execKey entry).entry
  rejected : ¬StoreAccepts run.msg entry →
    ((run.form false).execKey entry).entry = entry ∧ ((run.form true).execKey entry).entry = entry

/-- The inputs that the table does not meet are left out: a new value for a key that is not present
with the serial number of that key, an append or a prepend to a key with other flags or another
stamp, and a rejection at a key of another type. -/
structure StoreCondition (run : KeyRun) (entry : Option McEntry) : Prop where
  serial : run.msg.command = .set ∨ run.msg.command = .add → run.msg.cas ≠ 0 → ¬Present entry →
    (KeyRun.storeTarget entry).cas ≠ run.msg.cas
  extras : StoreAccepts run.msg entry → (storeFlags run.msg).doPend = true →
    ∀ e, entry = some e → e.val = run.msg.flags ∧ e.exp = run.stamp
  typed : ¬StoreAccepts run.msg entry → ∀ e, entry = some e → e.type = .string

section Store

variable {run : KeyRun} {entry : Option McEntry}

/-- The status of a key at its write. -/
def writeStatus : Option McEntry → KeyStatus
  | none => .keyIsNew
  | some e =>
      match e.type with
      | .noData => .keyIsNew
      | .string => .keyOk
      | .other => .keyNoValue

/-- A write leaves the entry as it finds it. -/
theorem getKeyWrite_eq (works : run.env.Works) :
    getKeyWrite execKeyFetch run.env entry = ⟨some (writeStatus entry), entry⟩ := by
  cases entry with
  | none => exact getKeyWrite_none works
  | some e =>
      cases type : e.type with
      | noData => rw [getKeyWrite_noData works type, writeStatus, type]
      | string => rw [getKeyWrite_string works type, writeStatus, type]
      | other => rw [getKeyWrite_other works type, writeStatus, type]

/-- Only a key that is present is no new one. -/
theorem writeStatus_ok_iff : writeStatus entry = .keyOk ↔ Present entry := by
  rw [Present]
  cases entry with
  | none => simp [writeStatus]
  | some e => cases type : e.type <;> simp [writeStatus, type]

/-- Nothing refuses a value when the conditions of the request hold. -/
theorem refusal_eq_none_iff {flags : StoreFlags} {present : Refusal} {isNew : Bool}
    {cnt cas : Nat} :
    refusal flags present isNew cnt cas = none ↔
      (isNew = true → flags.mustExist = false) ∧ (isNew = false → flags.mustNotExist = false) ∧
        (flags.doCas = true → cnt = cas) := by
  obtain ⟨mustNotExist, mustExist, doPend, doCas⟩ := flags
  cases isNew <;> cases mustNotExist <;> cases mustExist <;> cases doCas <;>
    simp [refusal]

/-- The handlers store when the table accepts the request, or when they store a new value for a key
that is not present with the serial number of that key. -/
theorem refusal_storeFlags_iff (stores : run.msg.command.stores) (present : Refusal) :
    refusal (storeFlags run.msg) present (writeStatus entry ≠ .keyOk) (KeyRun.storeTarget entry).cas
        run.msg.cas = none ↔
      StoreAccepts run.msg entry ∨ ((run.msg.command = .set ∨ run.msg.command = .add) ∧
        run.msg.cas ≠ 0 ∧ ¬Present entry ∧ (KeyRun.storeTarget entry).cas = run.msg.cas) := by
  rw [refusal_eq_none_iff, StoreAccepts]
  have ok := @writeStatus_ok_iff entry
  have serial : Present entry →
      ((∃ e, entry = some e ∧ e.type = .string ∧ e.cas = run.msg.cas) ↔
        (KeyRun.storeTarget entry).cas = run.msg.cas) := by
    intro ⟨e, found, type⟩
    simp [found, type, KeyRun.storeTarget]
  have absent : ¬Present entry →
      ¬∃ e, entry = some e ∧ e.type = .string ∧ e.cas = run.msg.cas := by
    intro noString ⟨e, found, type, _⟩
    exact noString ⟨e, found, type⟩
  rcases Classical.em (Present entry) with present | missing
  · rw [serial present]
    simp only [ok.mpr present, present]
    rcases stores with set | add | append | replace | prepend | cas
    all_goals simp_all [storeFlags, MemcachedCmd.takes]
  · rw [iff_false_intro (absent missing)]
    simp only [show (writeStatus entry ≠ .keyOk) = True from
      eq_true fun status => missing (ok.mp status), missing]
    rcases stores with set | add | append | replace | prepend | cas
    all_goals simp_all [storeFlags, MemcachedCmd.takes]
    all_goals tauto

/-- The key behind a request that stores. -/
def KeyRun.written (run : KeyRun) (keepExtras : Bool) (entry : Option McEntry) : McEntry :=
  let e := KeyRun.storeTarget entry
  { e with
    data := run.storeData e
    val := if keepExtras then e.val else run.msg.flags
    exp := if keepExtras then e.exp else run.stamp
    cas := e.cas + 1 }

/-- A key behind a request that does not store is a string, if it is there. -/
def asString (entry : Option McEntry) : Option McEntry :=
  entry.map fun e => { e with type := .string }

/-- The reason that a request is refused, if it is. -/
def KeyRun.verdict (run : KeyRun) (present : Refusal) (entry : Option McEntry) : Option Refusal :=
  refusal (storeFlags run.msg) present (writeStatus entry ≠ .keyOk) (KeyRun.storeTarget entry).cas
    run.msg.cas

/-- A string stays as it is. -/
theorem asString_string {e : McEntry} (type : e.type = .string) : asString (some e) = some e := by
  rw [asString, Option.map_some, ← type]

/-- A key that is written is a string. -/
theorem written_string {keepExtras : Bool} (entry : Option McEntry) :
    (run.written keepExtras entry).type = .string := by
  cases entry <;> rfl

/-- No key is missing at its write. -/
theorem writeStatus_ne (entry : Option McEntry) : writeStatus entry ≠ .keyNotFound := by
  cases entry with
  | none => simp [writeStatus]
  | some e => cases type : e.type <;> simp [writeStatus, type]

/-- A refused request leaves a key alone, except for one of another type. -/
theorem store_refused (works : run.env.Works) (fetch : run.fetch = execKeyFetch)
    {present reason : Refusal} (keepExtras : Bool) (refused : Refusal → Bytes)
    (stored : McEntry → Bytes) (verdict : run.verdict present entry = some reason) :
    run.store present keepExtras refused stored entry =
      ⟨.ok, if run.msg.quiet then [] else refused reason, none,
        if writeStatus entry = .keyNoValue then asString entry else entry⟩ := by
  rw [KeyRun.store, fetch, getKeyWrite_eq works]
  rw [KeyRun.verdict] at verdict
  have found := writeStatus_ne entry
  generalize writeStatus entry = kstatus at verdict found
  cases kstatus with
  | keyNotFound => exact absurd rfl found
  | keyOk | keyIsNew | keyNoValue =>
      dsimp only
      rw [verdict]
      dsimp only
      rw [works.send, asString]

/-- A request that is not refused writes its key. -/
theorem store_stored (works : run.env.Works) (fetch : run.fetch = execKeyFetch)
    {present : Refusal} (keepExtras : Bool) (refused : Refusal → Bytes)
    (stored : McEntry → Bytes) (verdict : run.verdict present entry = none) :
    run.store present keepExtras refused stored entry =
      ⟨.ok, if run.msg.quiet then [] else stored (KeyRun.storeTarget entry), none,
        some (run.written keepExtras entry)⟩ := by
  have value : run.storeValue keepExtras entry stored =
      ⟨.ok, if run.msg.quiet then [] else stored (KeyRun.storeTarget entry), none,
        some (run.written keepExtras entry)⟩ := by
    rw [KeyRun.storeValue]
    dsimp only
    rw [if_pos ⟨works.resized, fun _ => works.valued⟩, works.send, KeyRun.written]
    cases keepExtras with
    | true => simp only [if_true]
    | false => simp only [Bool.false_eq_true, if_false]
  rw [← value, KeyRun.store, fetch, getKeyWrite_eq works]
  rw [KeyRun.verdict] at verdict
  have found := writeStatus_ne entry
  generalize writeStatus entry = kstatus at verdict found
  cases kstatus with
  | keyNotFound => exact absurd rfl found
  | keyOk | keyIsNew | keyNoValue =>
      dsimp only
      rw [verdict]

/-- Behind a request the key is a string. -/
theorem execKey_asString {result : KeyResult} (stores : run.msg.command.stores)
    (same : run.execCommand entry = result) (done : result.status = .ok)
    (known : ∀ e, result.entry = some e → e.type ≠ .other) :
    (run.execKey entry).entry = asString result.entry := by
  have writes : run.msg.command ≠ .get ∧ run.msg.command ≠ .gets := by
    rcases stores with set | add | append | replace | prepend | cas
    all_goals simp_all
  rw [KeyRun.execKey, same, if_pos ⟨done, writes⟩, asString]
  dsimp only
  cases left : result.entry with
  | none => rfl
  | some e =>
      rw [Option.map_some, Option.map_some]
      cases type : e.type with
      | noData => rw [if_pos rfl]
      | string => rw [if_neg (by simp), ← type]
      | other => exact absurd type (known e left)

/-- The refusal that a form of a request has for a key that must not exist. -/
def presentRefusal (binary : Bool) : Refusal := if binary then .exists else .notStored

/-- Both forms are a store with texts of their own. Only the binary form keeps the extras of a key
behind an append or a prepend. -/
theorem form_execCommand (stores : run.msg.command.stores) (binary : Bool) :
    ∃ refused stored, (run.form binary).execCommand entry =
      (run.form binary).store (presentRefusal binary) (binary && (storeFlags run.msg).doPend)
        refused stored entry := by
  have dispatch : (run.form binary).execCommand entry =
      if binary then (run.form binary).execBinStore entry else (run.form binary).execStore entry := by
    have form : (run.form binary).msg.binary = binary := rfl
    have command : (run.form binary).msg.command = run.msg.command := rfl
    rw [KeyRun.execCommand, form, command]
    rcases stores with set | add | append | replace | prepend | cas
    all_goals simp only [*]
  cases binary with
  | false => exact ⟨KeyRun.refusedLine, fun _ => sendString (text "STORED"), dispatch⟩
  | true =>
      exact ⟨fun reason => sendBinStatus (run.form true).msg (KeyRun.refusedStatus reason)
        (KeyRun.refusedStatus reason).text, fun e => binHdr (run.form true).msg 0 0 0 0 e.cas,
        dispatch⟩

/-- The key behind a request that stores, or does not. -/
theorem execKey_entry (works : run.env.Works) (fetch : run.fetch = execKeyFetch)
    (stores : run.msg.command.stores) (binary : Bool) :
    ((run.form binary).execKey entry).entry =
      if run.verdict (presentRefusal binary) entry = none then
        some (run.written (binary && (storeFlags run.msg).doPend) entry)
      else asString entry := by
  obtain ⟨refused, stored, command⟩ := @form_execCommand run entry stores binary
  cases verdict : run.verdict (presentRefusal binary) entry with
  | none =>
      rw [@store_stored (run.form binary) entry works fetch _ _ refused stored verdict] at command
      rw [if_pos rfl, @execKey_asString (run.form binary) entry _ stores command rfl]
      · exact asString_string (written_string entry)
      · intro e left
        rw [← Option.some.inj left, show ((run.form binary).written _ entry).type = .string from
          written_string entry]
        simp
  | some reason =>
      rw [@store_refused (run.form binary) entry works fetch _ reason _ refused stored verdict]
        at command
      rw [if_neg (by simp), @execKey_asString (run.form binary) entry _ stores command rfl]
      · dsimp only
        split
        · cases entry <;> rfl
        · rfl
      · intro e left
        dsimp only at left
        split at left
        · cases entry with
          | none => cases left
          | some e' => simp [← Option.some.inj left]
        · next status =>
            subst left
            intro other
            exact status (by rw [writeStatus, other])

/-- A key that is not present takes a new value with the serial number of that key. -/
def TakesSerial (run : KeyRun) (entry : Option McEntry) : Prop :=
  (run.msg.command = .set ∨ run.msg.command = .add) ∧ run.msg.cas ≠ 0 ∧ ¬Present entry ∧
    (KeyRun.storeTarget entry).cas = run.msg.cas

/-- The table has no row for such a key. -/
theorem TakesSerial.not_accepts (takes : TakesSerial run entry) : ¬StoreAccepts run.msg entry := by
  intro accepts
  obtain ⟨e, found, type, _⟩ := accepts.2 (.inr takes.2.1)
  exact takes.2.2.1 ⟨e, found, type⟩

/-- A key that is written has its value. -/
theorem writes_written (keepExtras : Bool) (entry : Option McEntry) :
    run.Writes entry (some (run.written keepExtras entry)) :=
  ⟨_, rfl, written_string entry, rfl, rfl⟩

/-- A key that is not written has no new serial number. -/
theorem not_writes_asString (entry : Option McEntry) : ¬run.Writes entry (asString entry) := by
  intro ⟨e, left, _, _, cas⟩
  cases entry with
  | none => cases left
  | some e' =>
      rw [← Option.some.inj left, KeyRun.storeTarget] at cas
      dsimp only at cas
      omega

/-- The condition on the extras is the one that the two forms leave the same key. -/
theorem written_eq_iff (accepts : StoreAccepts run.msg entry) :
    run.written false entry = run.written (storeFlags run.msg).doPend entry ↔
      ((storeFlags run.msg).doPend = true →
        ∀ e, entry = some e → e.val = run.msg.flags ∧ e.exp = run.stamp) := by
  cases pend : (storeFlags run.msg).doPend with
  | false => simp
  | true =>
      have present : Present entry := by
        have taken := accepts.1
        simp only [storeFlags, decide_eq_true_eq] at pend
        rcases pend with append | prepend
        · rw [append] at taken
          exact taken
        · rw [prepend] at taken
          exact taken
      obtain ⟨e, rfl, type⟩ := present
      simp only [KeyRun.written, KeyRun.storeTarget, Bool.false_eq_true, if_false, if_true,
        McEntry.mk.injEq, true_and, and_true, forall_const, Option.some.injEq]
      constructor
      · intro ⟨val, exp⟩ e' same
        subst same
        exact ⟨val.symm, exp.symm⟩
      · intro extras
        exact ⟨(extras e rfl).1.symm, (extras e rfl).2.symm⟩

/-- Each form stores when the table accepts the request or the serial number is the one of a key
that is not present. -/
theorem execKey_stored (works : run.env.Works) (fetch : run.fetch = execKeyFetch)
    (stores : run.msg.command.stores) (binary : Bool)
    (takes : StoreAccepts run.msg entry ∨ TakesSerial run entry) :
    ((run.form binary).execKey entry).entry =
      some (run.written (binary && (storeFlags run.msg).doPend) entry) := by
  rw [execKey_entry works fetch stores, if_pos]
  exact (refusal_storeFlags_iff stores (presentRefusal binary)).mpr takes

theorem execKey_refused (works : run.env.Works) (fetch : run.fetch = execKeyFetch)
    (stores : run.msg.command.stores) (binary : Bool)
    (refused : ¬(StoreAccepts run.msg entry ∨ TakesSerial run entry)) :
    ((run.form binary).execKey entry).entry = asString entry := by
  rw [execKey_entry works fetch stores, if_neg]
  intro none
  exact refused ((refusal_storeFlags_iff stores (presentRefusal binary)).mp none)

/-- The two forms of a storage request meet the table under the condition, and only then. -/
theorem store_exact (works : run.env.Works) (fetch : run.fetch = execKeyFetch)
    (stores : run.msg.command.stores) (entry : Option McEntry) :
    StoreMeets run entry ↔ StoreCondition run entry := by
  have stored := @execKey_stored run entry works fetch stores
  have refused := @execKey_refused run entry works fetch stores
  constructor
  · intro meets
    have noSerial : ¬TakesSerial run entry := by
      intro takes
      apply takes.not_accepts
      rw [← meets.text, stored false (.inr takes)]
      exact writes_written _ entry
    apply StoreCondition.mk
    · intro command cas missing same
      exact noSerial ⟨command, cas, missing, same⟩
    · intro accepts
      have same := meets.same accepts
      rw [stored false (.inl accepts), stored true (.inl accepts)] at same
      exact (written_eq_iff accepts).mp (Option.some.inj same)
    · intro rejected e found
      have left := (meets.rejected rejected).1
      rw [refused false (by simp [rejected, noSerial]), found] at left
      rw [← Option.some.inj left]
  · intro condition
    have noSerial : ¬TakesSerial run entry := fun takes =>
      condition.serial takes.1 takes.2.1 takes.2.2.1 takes.2.2.2
    have writes : ∀ binary,
        run.Writes entry ((run.form binary).execKey entry).entry ↔ StoreAccepts run.msg entry := by
      intro binary
      rcases Classical.em (StoreAccepts run.msg entry) with accepts | rejected
      · rw [stored binary (.inl accepts)]
        exact ⟨fun _ => accepts, fun _ => writes_written _ entry⟩
      · rw [refused binary (by simp [rejected, noSerial])]
        exact ⟨fun written => absurd written (not_writes_asString entry),
          fun accepts => absurd accepts rejected⟩
    apply StoreMeets.mk (writes false) (writes true)
    · intro accepts
      rw [stored false (.inl accepts), stored true (.inl accepts)]
      exact congrArg some ((written_eq_iff accepts).mpr (condition.extras accepts))
    · intro rejected
      have same : asString entry = entry := by
        cases found : entry with
        | none => rfl
        | some e => exact asString_string (condition.typed rejected e found)
      rw [refused false (by simp [rejected, noSerial]), refused true (by simp [rejected, noSerial]),
        same]
      exact ⟨rfl, rfl⟩

end Store

/-- A request that stores one byte in a table that works. -/
def storeRun (command : MemcachedCmd) : KeyRun where
  fetch := execKeyFetch
  env := { currentStamp := 1 }
  msg := { MemcachedMsg.fresh with command := command, msglen := 1, msg := some ⟨0, text "x"⟩ }
  key := text "k"

theorem storeRun_works (command : MemcachedCmd) : (storeRun command).env.Works :=
  ⟨rfl, rfl, rfl, rfl, rfl, rfl⟩

/-- Both forms set a missing key. -/
theorem store_exact_set : StoreMeets (storeRun .set) none := by
  apply (store_exact (storeRun_works .set) rfl (.inl rfl) none).mpr
  apply StoreCondition.mk
  · intro _ cas
    exact absurd rfl cas
  · intro _ pend
    cases pend
  · intro _ e found
    cases found

/-- The text form of an append takes the flags and the stamp from a key. -/
theorem not_store_exact : ¬StoreMeets (storeRun .append)
    (some { type := .string, data := text "a", val := 5, exp := 7 }) := by
  intro meets
  have present : StoreAccepts (storeRun .append).msg
      (some { type := .string, data := text "a", val := 5, exp := 7 }) := by
    apply And.intro
    · exact ⟨_, rfl, rfl⟩
    · rintro (cas | serial)
      · cases cas
      · exact absurd rfl serial
  have same := meets.same present
  have appends : (storeRun .append).msg.command.stores := .inr (.inr (.inl rfl))
  rw [execKey_stored (storeRun_works .append) rfl appends false (.inl present),
    execKey_stored (storeRun_works .append) rfl appends true (.inl present)] at same
  exact absurd (congrArg McEntry.val (Option.some.inj same)) (by decide)

end Raids.Memcached
