import Raids.Construction.Keyspace.Subject
import Raids.Library.Machine

namespace Raids.Keyspace
open Buffer

section Spec

variable (pref : Bytes)

/-- The subject of a call: the prefix, the tag of its class, the database, and the key, the event or
the address. -/
def SubjectCall.subject (call : SubjectCall) : Bytes :=
  pref ++ (call.kind.tag ++ (text "@" ++ (dbDigits call.dbNum ++ (text "__:" ++ call.tail))))

/-- No subject is written behind the end of the buffer, and each one is the subject of its call. Only
without memory there is none. -/
def SubjectsFit (calls : List SubjectCall) : Prop :=
  ∃ subjs, makeSubjs { pref := pref } calls = some subjs ∧
    List.Forall₂ (fun call subj =>
      subj = some (call.subject pref) ∨ subj = none ∧ call.allocated = false) calls subjs

/-- The bytes of a subject behind the prefix. -/
def SubjectCall.size (call : SubjectCall) : Nat :=
  10 + 1 + (dbDigits call.dbNum).length + 3 + call.tail.length + call.terminator.length

/-- A new buffer has room for the key and the event of its call, an old one has the room it had. -/
def nextLen (len : Nat) (call : SubjectCall) : Nat :=
  if len < 20 + call.tail.length then 20 + pref.length + call.key.length + call.evt.length else len

/-- A call without memory builds nothing. All others fit in the buffer of their turn, and have the
database of the first one. -/
def CallsFit : Nat → Bytes → List SubjectCall → Prop
  | _, _, [] => True
  | len, db, call :: calls =>
      if len < 20 + call.tail.length ∧ call.allocated = false then CallsFit len db calls
      else pref.length + call.size ≤ nextLen pref len call + 1 ∧
        (db = [] ∨ db = dbDigits call.dbNum) ∧
        CallsFit (nextLen pref len call) (dbDigits call.dbNum) calls

end Spec

section Build

variable {s : RedisKeyspace} {call : SubjectCall}

theorem dbDigits_ne_nil (x : UInt8) : dbDigits x ≠ [] := by
  rw [dbDigits]
  split
  · exact List.cons_ne_nil _ _
  · split
    · exact List.cons_ne_nil _ _
    · exact List.cons_ne_nil _ _

theorem length_tag (kind : SubjectKind) : kind.tag.length = 10 := by
  cases kind with
  | bsubj blk => cases blk <;> rfl
  | keyevent => rfl
  | monitor addr => rfl

/-- A buffer that was allocated starts with the prefix and has one more byte than its length. -/
def RedisKeyspace.Sane (s : RedisKeyspace) : Prop :=
  0 < s.allocLen → ∃ back, s.subj = s.pref ++ back ∧ s.pref.length + back.length = s.allocLen + 1

/-- The buffer of a turn. -/
theorem allocSubj_sane (sane : s.Sane) (hasKey : s.key = call.key) (hasEvt : s.evt = call.evt)
    (allocated : s.allocLen < 20 + call.tail.length → call.allocated) :
    ∃ back, allocSubj s call (20 + call.tail.length) =
        some { s with subj := s.pref ++ back, allocLen := nextLen s.pref s.allocLen call } ∧
      s.pref.length + back.length = nextLen s.pref s.allocLen call + 1 := by
  rw [allocSubj, nextLen]
  by_cases short : s.allocLen < 20 + call.tail.length
  · rw [if_pos short, if_pos short, if_pos (allocated short), hasKey, hasEvt]
    refine ⟨_, rfl, ?_⟩
    rw [List.length_map, List.length_range]
    omega
  · rw [if_neg short, if_neg short]
    obtain ⟨back, isSubj, length⟩ := sane (by omega)
    exact ⟨back, by rw [← isSubj], length⟩

/-- The words of a subject in one piece. -/
def subjectText (db : Bytes) (call : SubjectCall) : Bytes :=
  call.kind.tag ++ (text "@" ++ (db ++ (text "__:" ++ call.tail)))

theorem length_subjectText (db : Bytes) (call : SubjectCall) :
    (subjectText db call).length = 10 + 1 + db.length + 3 + call.tail.length := by
  have separator : (text "@").length = 1 := rfl
  have behind : (text "__:").length = 3 := rfl
  simp only [subjectText, List.length_append, length_tag, separator, behind]
  omega

/-- The writes of a subject in a buffer that was allocated. -/
theorem makeSubj_eq (sane : s.Sane)
    (allocated : s.allocLen < 20 + call.tail.length → call.allocated) :
    ∃ back : Bytes, s.pref.length + back.length = nextLen s.pref s.allocLen call + 1 ∧
      makeSubj s call =
        if (subjectText (dbStr s call.dbNum) call ++ call.terminator).length ≤ back.length then
          some ({ s with
              key := call.key
              evt := call.evt
              subj := s.pref ++ (subjectText (dbStr s call.dbNum) call ++ call.terminator) ++
                back.drop (subjectText (dbStr s call.dbNum) call ++ call.terminator).length
              allocLen := nextLen s.pref s.allocLen call
              db := dbStr s call.dbNum },
            some (s.pref ++ subjectText (dbStr s call.dbNum) call))
        else none := by
  obtain ⟨back, isAlloc, length⟩ :=
    allocSubj_sane (s := { s with key := call.key, evt := call.evt }) sane rfl rfl allocated
  refine ⟨back, length, ?_⟩
  have sameDb : dbStr { s with
      key := call.key
      evt := call.evt
      subj := s.pref ++ back
      allocLen := nextLen s.pref s.allocLen call } call.dbNum = dbStr s call.dbNum := rfl
  rw [makeSubj]
  simp only [isAlloc, sameDb]
  generalize dbStr s call.dbNum = db
  have words : [call.kind.tag, text "@", db, text "__:", call.tail, call.terminator].flatten =
      subjectText db call ++ call.terminator := by
    simp [subjectText]
  have size := length_subjectText db call
  rw [putAll_append, words]
  by_cases fits : (subjectText db call ++ call.terminator).length ≤ back.length
  · rw [if_pos fits, if_pos fits, Option.map_some, ← size, List.append_assoc, List.append_assoc,
      ← List.append_assoc s.pref, ← List.length_append, List.take_left, List.append_assoc s.pref]
  · rw [if_neg fits, if_neg fits, Option.map_none]

/-- Without memory for a longer buffer there is no subject. -/
theorem makeSubj_refused (long : s.allocLen < 20 + call.tail.length)
    (refused : call.allocated = false) :
    makeSubj s call = some ({ s with key := call.key, evt := call.evt }, none) := by
  rw [makeSubj, allocSubj, if_pos long, refused]
  rfl

/-- The text of a subject tells the database. -/
theorem subjectText_db {db db' : Bytes} (same : subjectText db call = subjectText db' call) :
    db = db' := by
  have behind := List.append_cancel_left (List.append_cancel_left same)
  exact List.append_cancel_right behind

/-- The subjects of a command are right as long as its calls fit. -/
theorem makeSubjs_iff (calls : List SubjectCall) (sane : s.Sane) :
    (∃ subjs, makeSubjs s calls = some subjs ∧
      List.Forall₂ (fun call subj =>
        subj = some (call.subject s.pref) ∨ subj = none ∧ call.allocated = false) calls subjs) ↔
      CallsFit s.pref s.allocLen s.db calls := by
  induction calls generalizing s with
  | nil => exact ⟨fun _ => trivial, fun _ => ⟨[], rfl, List.Forall₂.nil⟩⟩
  | cons call calls ih =>
      rw [makeSubjs, CallsFit]
      by_cases refused : s.allocLen < 20 + call.tail.length ∧ call.allocated = false
      · rw [if_pos refused, makeSubj_refused refused.1 refused.2, Option.bind_some,
          ← ih (s := { s with key := call.key, evt := call.evt }) sane]
        dsimp only
        constructor
        · rintro ⟨subjs, made, right⟩
          obtain ⟨rest, others, rfl⟩ := Option.map_eq_some_iff.mp made
          exact ⟨rest, others, (List.forall₂_cons.mp right).2⟩
        · rintro ⟨rest, made, right⟩
          exact ⟨none :: rest, by rw [made]; rfl,
            List.Forall₂.cons (Or.inr ⟨rfl, refused.2⟩) right⟩
      · rw [if_neg refused]
        have allocated : s.allocLen < 20 + call.tail.length → call.allocated := by
          intro long
          by_contra notAllocated
          exact refused ⟨long, by simpa using notAllocated⟩
        obtain ⟨back, length, made⟩ := makeSubj_eq sane allocated
        rw [made]
        by_cases same : s.db = [] ∨ s.db = dbDigits call.dbNum
        · have isDb : dbStr s call.dbNum = dbDigits call.dbNum := by
            rw [dbStr]
            by_cases none : s.db = []
            · rw [if_pos none]
            · rw [if_neg none]
              exact same.resolve_left none
          have size : (subjectText (dbDigits call.dbNum) call ++ call.terminator).length =
              call.size := by
            rw [List.length_append, length_subjectText, SubjectCall.size]
          rw [isDb, size]
          by_cases fits : call.size ≤ back.length
          · rw [if_pos fits, Option.bind_some]
            have behind := ih (s := { s with
                key := call.key
                evt := call.evt
                subj := s.pref ++ (subjectText (dbDigits call.dbNum) call ++ call.terminator) ++
                  back.drop call.size
                allocLen := nextLen s.pref s.allocLen call
                db := dbDigits call.dbNum }) (by
              intro _
              refine ⟨_, List.append_assoc _ _ _, ?_⟩
              rw [List.length_append, size, List.length_drop]
              dsimp only
              omega)
            rw [← behind]
            constructor
            · rintro ⟨subjs, made, right⟩
              obtain ⟨rest, others, rfl⟩ := Option.map_eq_some_iff.mp made
              exact ⟨by omega, same, rest, others, (List.forall₂_cons.mp right).2⟩
            · rintro ⟨-, -, rest, made, right⟩
              exact ⟨_, by rw [made]; rfl, List.Forall₂.cons (Or.inl rfl) right⟩
          · rw [if_neg fits, Option.bind_none]
            refine iff_of_false ?_ fun both => fits (by omega)
            rintro ⟨subjs, made, -⟩
            cases made
        · refine iff_of_false ?_ fun both => same both.2.1
          have isDb : dbStr s call.dbNum = s.db := if_neg fun none => same (Or.inl none)
          rw [isDb]
          rintro ⟨subjs, made, right⟩
          by_cases fits : (subjectText s.db call ++ call.terminator).length ≤ back.length
          · rw [if_pos fits, Option.bind_some] at made
            obtain ⟨rest, -, rfl⟩ := Option.map_eq_some_iff.mp made
            rcases (List.forall₂_cons.mp right).1 with isSubject | ⟨isNone, -⟩
            · have text := List.append_cancel_left (Option.some.inj isSubject)
              exact same (Or.inr (subjectText_db text))
            · cases isNone
          · rw [if_neg fits, Option.bind_none] at made
            cases made

end Build

/-- The subjects of a command are right if and only if each of its calls fits in the buffer of its
turn. -/
theorem subjects_exact (pref : Bytes) (calls : List SubjectCall) :
    SubjectsFit pref calls ↔ CallsFit pref 0 [] calls :=
  makeSubjs_iff (s := { pref := pref }) calls fun positive => absurd positive (Nat.lt_irrefl 0)

/-- The address of a peer does not fit in a buffer for no key and no event. -/
theorem not_subjects_exact :
    ¬SubjectsFit [] [{ kind := .monitor (text "127.0.0.1:40000") }] := by
  rintro ⟨subjs, made, -⟩
  have outside : makeSubjs { pref := [] } [{ kind := .monitor (text "127.0.0.1:40000") }] = none := by
    decide
  rw [outside] at made
  cases made

/-- The bytes of the prefix count as room for a longer key. -/
example : makeSubjs { pref := text "_REDIS." }
    [{ kind := .bsubj .listblkd }, { kind := .bsubj .listblkd, key := text "sevenby" }] = none := by
  decide

section Flags

/-- The text of a subscription that is counted. -/
def Subscription.counted : Subscription → Option Bytes
  | .sub subject => if 11 < subject.length then some (subject.take 11) else none
  | .psub pattern prefixlen => some (pattern.take (if prefixlen < 11 then prefixlen else 11))

/-- A subscription that can meet a subject of a class. -/
def Subscription.concerns (entry : Subscription) (c : EventClass) : Bool :=
  entry.counted.any fun sub => Keyspace.concerns sub c

/-- A subject of a class concerns this class and no other one. -/
theorem concerns_subject (c c' : EventClass) {rest : Bytes} (some : rest ≠ []) :
    (Subscription.sub (c.subject ++ rest)).concerns c' = decide (c' = c) := by
  have length : c.subject.length = 11 := by cases c <;> rfl
  have longer : 11 < (c.subject ++ rest).length := by
    have positive := List.length_pos_iff.mpr some
    rw [List.length_append, length]
    omega
  have start : (c.subject ++ rest).take 11 = c.subject := by
    rw [← length, List.take_left]
  rw [Subscription.concerns, Subscription.counted, if_pos longer, start]
  cases c <;> cases c' <;> decide

/-- A connection and a subscription that it holds. -/
abbrev Listener := Nat × Subscription

/-- The connections that get the events of a class. -/
def RedisKeyspaceNotify.listeners (n : RedisKeyspaceNotify) (c : EventClass) : Finset Nat :=
  if n.keyFlags c then n.route c else ∅

/-- A flag stands for a connection. -/
def RedisKeyspaceNotify.Flagged (n : RedisKeyspaceNotify) : Prop :=
  ∀ c, n.keyFlags c = true ↔ (n.listeners c).Nonempty

/-- A connection joins or leaves. -/
def changed (add : Bool) (fd : Nat) (fds : Finset Nat) : Finset Nat :=
  if add then insert fd fds else fds.erase fd

theorem changed_of_card {add : Bool} {fd : Nat} {fds : Finset Nat}
    (same : (changed add fd fds).card = fds.card) : changed add fd fds = fds := by
  cases add with
  | true =>
      apply Finset.insert_eq_self.mpr
      by_contra fresh
      have more := Finset.card_insert_of_notMem fresh
      simp only [changed, if_true] at same
      omega
  | false =>
      apply Finset.erase_eq_of_notMem
      intro member
      have fewer := Finset.card_erase_lt_of_mem member
      simp only [changed, Bool.false_eq_true, if_false] at same
      omega

variable {n : RedisKeyspaceNotify} {c : EventClass} {add : Bool} {fd : Nat}

theorem updateKeyspaceRoute_eq : n.updateKeyspaceRoute c add fd =
    if (changed add fd (n.listeners c)).card = (n.listeners c).card then n
    else if (changed add fd (n.listeners c)).card = 0 then
      { route := Function.update n.route c ∅, keyFlags := Function.update n.keyFlags c false }
    else
      { route := Function.update n.route c (changed add fd (n.listeners c))
        keyFlags := Function.update n.keyFlags c true } := rfl

/-- The update of a class changes its connections, and its flag follows. -/
theorem listeners_updateRoute (c' : EventClass) :
    (n.updateKeyspaceRoute c add fd).listeners c' =
      if c' = c then changed add fd (n.listeners c) else n.listeners c' := by
  rw [updateKeyspaceRoute_eq]
  by_cases same : (changed add fd (n.listeners c)).card = (n.listeners c).card
  · rw [if_pos same, changed_of_card same]
    split
    · next here => rw [here]
    · rfl
  · rw [if_neg same]
    by_cases empty : (changed add fd (n.listeners c)).card = 0
    · rw [if_pos empty, Finset.card_eq_zero.mp empty]
      by_cases here : c' = c
      · simp [RedisKeyspaceNotify.listeners, here]
      · simp [RedisKeyspaceNotify.listeners, here]
    · rw [if_neg empty]
      by_cases here : c' = c
      · simp [RedisKeyspaceNotify.listeners, here]
      · simp [RedisKeyspaceNotify.listeners, here]

theorem flagged_updateRoute (flagged : n.Flagged) : (n.updateKeyspaceRoute c add fd).Flagged := by
  intro c'
  rw [listeners_updateRoute, updateKeyspaceRoute_eq]
  by_cases same : (changed add fd (n.listeners c)).card = (n.listeners c).card
  · rw [if_pos same, changed_of_card same, flagged c']
    split
    · next here => rw [here]
    · exact Iff.rfl
  · rw [if_neg same]
    by_cases empty : (changed add fd (n.listeners c)).card = 0
    · rw [if_pos empty, Finset.card_eq_zero.mp empty]
      by_cases here : c' = c
      · simp [here]
      · simp only [Function.update_of_ne here, if_neg here]
        exact flagged c'
    · rw [if_neg empty]
      by_cases here : c' = c
      · have some : (changed add fd (n.listeners c)).Nonempty :=
          Finset.card_pos.mp (Nat.pos_of_ne_zero empty)
        simp [here, some]
      · simp only [Function.update_of_ne here, if_neg here]
        exact flagged c'

/-- The classes are updated one behind the other. -/
theorem listeners_updates (sub : Bytes) (classes : List EventClass) (nodup : classes.Nodup)
    (flagged : n.Flagged) :
    (classes.foldl (fun n c => if concerns sub c then n.updateKeyspaceRoute c add fd else n)
        n).Flagged ∧
      ∀ c, (classes.foldl
          (fun n c => if concerns sub c then n.updateKeyspaceRoute c add fd else n) n).listeners c =
        if c ∈ classes ∧ concerns sub c then changed add fd (n.listeners c) else n.listeners c := by
  induction classes generalizing n with
  | nil => exact ⟨flagged, fun c => by simp⟩
  | cons first classes ih =>
      obtain ⟨gone, tail⟩ := List.nodup_cons.mp nodup
      rw [List.foldl_cons]
      by_cases hit : concerns sub first = true
      · rw [if_pos hit]
        obtain ⟨flags, later⟩ := ih tail (flagged_updateRoute flagged)
        refine ⟨flags, fun c => ?_⟩
        rw [later c, listeners_updateRoute]
        by_cases here : c = first
        · simp [here, gone, hit]
        · simp [here]
      · rw [if_neg hit]
        obtain ⟨flags, later⟩ := ih tail flagged
        refine ⟨flags, fun c => ?_⟩
        rw [later c]
        by_cases here : c = first
        · simp [here, gone, hit]
        · simp [here]

/-- A notice changes the connections of the classes that its subscription concerns. -/
theorem listeners_notify (flagged : n.Flagged) (notice : KeyspaceNotice) :
    (n.notify notice).Flagged ∧
      ∀ c, (n.notify notice).listeners c =
        if notice.entry.concerns c then changed notice.add notice.fd (n.listeners c)
        else n.listeners c := by
  have counts : ∀ (sub : Bytes) (add : Bool) (fd : Nat),
      (n.updateKeyspaceCount sub add fd).Flagged ∧
        ∀ c, (n.updateKeyspaceCount sub add fd).listeners c =
          if concerns sub c then changed add fd (n.listeners c) else n.listeners c := by
    intro sub add fd
    obtain ⟨flags, later⟩ := @listeners_updates n add fd sub
      [.keyspace, .keyevent, .listblkd, .zsetblkd, .strmblkd, .monitor] (by decide) flagged
    refine ⟨flags, fun c => ?_⟩
    have member : c ∈ [EventClass.keyspace, .keyevent, .listblkd, .zsetblkd, .strmblkd, .monitor] := by
      cases c <;> decide
    rw [RedisKeyspaceNotify.updateKeyspaceCount, later c]
    simp [member]
  obtain ⟨add, fd, entry⟩ := notice
  cases entry with
  | sub subject =>
      by_cases longer : 11 < subject.length
      · cases add <;>
          simpa [RedisKeyspaceNotify.notify, RedisKeyspaceNotify.onSub, RedisKeyspaceNotify.onUnsub,
            Subscription.concerns, Subscription.counted, longer] using counts _ _ _
      · cases add <;>
          simpa [RedisKeyspaceNotify.notify, RedisKeyspaceNotify.onSub, RedisKeyspaceNotify.onUnsub,
            Subscription.concerns, Subscription.counted, longer] using flagged
  | psub pattern prefixlen =>
      have counted := counts (pattern.take (if prefixlen < 11 then prefixlen else 11)) add fd
      have literal : ∀ c, (Subscription.psub pattern prefixlen).concerns c =
          concerns (pattern.take (if prefixlen < 11 then prefixlen else 11)) c := fun _ => rfl
      simp only [literal]
      cases add with
      | true => exact counted
      | false => exact counted

/-- The flags with the subscriptions that the connections hold. -/
def keyspaceStep (s : RedisKeyspaceNotify × Finset Listener) (notice : KeyspaceNotice) :
    Unit × (RedisKeyspaceNotify × Finset Listener) :=
  ((), s.1.notify notice,
    if notice.add then insert (notice.fd, notice.entry) s.2
    else s.2.erase (notice.fd, notice.entry))

/-- The flags behind some notices. -/
def keyspaceRun (notices : List KeyspaceNotice) : RedisKeyspaceNotify × Finset Listener :=
  (Machine.run keyspaceStep ({}, ∅) notices).2

/-- A connection ends only a subscription that it holds. -/
def Truthful (s : RedisKeyspaceNotify × Finset Listener) (notice : KeyspaceNotice) : Prop :=
  notice.add = false → (notice.fd, notice.entry) ∈ s.2

/-- No connection holds two subscriptions that concern the class. -/
def Alone (c : EventClass) (held : Finset Listener) : Prop :=
  ∀ e ∈ held, ∀ e' ∈ held, e.2.concerns c → e'.2.concerns c → e.1 = e'.1 → e = e'

/-- Each connection that gets the events of a class holds a subscription for them. -/
structure Listening (s : RedisKeyspaceNotify × Finset Listener) : Prop where
  flagged : s.1.Flagged
  holds : ∀ c, ∀ fd ∈ s.1.listeners c, ∃ e ∈ s.2, e.1 = fd ∧ e.2.concerns c

theorem Listening.step {s : RedisKeyspaceNotify × Finset Listener} (listening : Listening s)
    (notice : KeyspaceNotice) : Listening (keyspaceStep s notice).2 := by
  obtain ⟨flagged, changes⟩ := listeners_notify listening.flagged notice
  obtain ⟨add, fd, entry⟩ := notice
  refine ⟨flagged, fun c other member => ?_⟩
  have before := changes c
  simp only [keyspaceStep] at member ⊢
  rw [before] at member
  cases add with
  | true =>
      simp only [changed, if_true] at member ⊢
      by_cases hit : entry.concerns c = true
      · rw [if_pos hit] at member
        rcases Finset.mem_insert.mp member with rfl | old
        · exact ⟨(other, entry), Finset.mem_insert_self _ _, rfl, hit⟩
        · obtain ⟨e, held, same, listens⟩ := listening.holds c other old
          exact ⟨e, Finset.mem_insert_of_mem held, same, listens⟩
      · rw [if_neg hit] at member
        obtain ⟨e, held, same, listens⟩ := listening.holds c other member
        exact ⟨e, Finset.mem_insert_of_mem held, same, listens⟩
  | false =>
      simp only [changed, Bool.false_eq_true, if_false] at member ⊢
      by_cases hit : entry.concerns c = true
      · rw [if_pos hit] at member
        obtain ⟨different, old⟩ := Finset.mem_erase.mp member
        obtain ⟨e, held, same, listens⟩ := listening.holds c other old
        refine ⟨e, Finset.mem_erase.mpr ⟨?_, held⟩, same, listens⟩
        rintro rfl
        exact different same.symm
      · rw [if_neg hit] at member
        obtain ⟨e, held, same, listens⟩ := listening.holds c other member
        refine ⟨e, Finset.mem_erase.mpr ⟨?_, held⟩, same, listens⟩
        rintro rfl
        exact hit listens

/-- Each connection that holds a subscription for a class gets its events. -/
def Routed (c : EventClass) (s : RedisKeyspaceNotify × Finset Listener) : Prop :=
  ∀ e ∈ s.2, e.2.concerns c → e.1 ∈ s.1.listeners c

/-- Where a connection holds no second subscription for the class, the end of one takes no other
one with it. -/
theorem Routed.step {s : RedisKeyspaceNotify × Finset Listener} {notice : KeyspaceNotice}
    (routed : Routed c s) (listening : Listening s) (truthful : Truthful s notice)
    (alone : Alone c s.2) : Routed c (keyspaceStep s notice).2 := by
  obtain ⟨-, changes⟩ := listeners_notify listening.flagged notice
  obtain ⟨add, fd, entry⟩ := notice
  intro e member listens
  have after := changes c
  simp only [keyspaceStep] at member ⊢
  rw [after]
  cases add with
  | true =>
      simp only [changed, if_true] at member ⊢
      rcases Finset.mem_insert.mp member with rfl | old
      · rw [if_pos listens]
        exact Finset.mem_insert_self _ _
      · have inside := routed e old listens
        split
        · exact Finset.mem_insert_of_mem inside
        · exact inside
  | false =>
      simp only [changed, Bool.false_eq_true, if_false] at member ⊢
      obtain ⟨different, old⟩ := Finset.mem_erase.mp member
      have inside := routed e old listens
      by_cases hit : entry.concerns c = true
      · rw [if_pos hit]
        refine Finset.mem_erase.mpr ⟨fun same => different ?_, inside⟩
        exact alone e old (fd, entry) (truthful rfl) listens hit same
      · rw [if_neg hit]
        exact inside

/-- The flags of the events follow the subscriptions over every run of notices: no event is
generated for a class that nobody listens to, and as long as no connection holds two subscriptions
of the class none is dropped while somebody listens. -/
theorem flags_follow_listeners {notices : List KeyspaceNotice}
    (truthful : Machine.Along keyspaceStep Truthful ({}, ∅) notices) (c : EventClass) :
    ((keyspaceRun notices).1.keyFlags c = true → ∃ e ∈ (keyspaceRun notices).2, e.2.concerns c) ∧
      (Machine.Along keyspaceStep (fun s _ => Alone c s.2) ({}, ∅) notices →
        ((keyspaceRun notices).1.keyFlags c = true ↔
          ∃ e ∈ (keyspaceRun notices).2, e.2.concerns c)) := by
  have start : Listening ({}, ∅) :=
    ⟨fun c => by simp [RedisKeyspaceNotify.listeners], fun c fd member => by
      simp [RedisKeyspaceNotify.listeners] at member⟩
  have listening : Listening (keyspaceRun notices) :=
    Machine.inv_run Listening (fun _ notice before => before.step notice) start notices
  have sound : (keyspaceRun notices).1.keyFlags c = true →
      ∃ e ∈ (keyspaceRun notices).2, e.2.concerns c := by
    intro flag
    obtain ⟨fd, member⟩ := (listening.flagged c).mp flag
    obtain ⟨e, held, -, listens⟩ := listening.holds c fd member
    exact ⟨e, held, listens⟩
  refine ⟨sound, fun alone => ⟨sound, ?_⟩⟩
  have both := Machine.along_and truthful alone
  obtain ⟨-, routed⟩ := @Machine.inv_of_along _ _ _ keyspaceStep
    (fun s notice => Truthful s notice ∧ Alone c s.2) (fun s => Listening s ∧ Routed c s) _
    (fun _ notice before good =>
      ⟨before.1.step notice, before.2.step before.1 good.1 good.2⟩) notices
    ⟨start, fun e member => absurd member (Finset.notMem_empty e)⟩ both
  rintro ⟨e, held, listens⟩
  exact (listening.flagged c).mpr ⟨e.1, routed e held listens⟩

/-- Two connections listen to a key, and one of them ends it. -/
def keyNotices : List KeyspaceNotice :=
  [⟨true, 3, .sub (text "__keyspace@0__:k")⟩, ⟨true, 4, .sub (text "__keyspace@0__:k")⟩,
    ⟨false, 3, .sub (text "__keyspace@0__:k")⟩]

theorem flags_follow_listeners_key :
    (keyspaceRun keyNotices).1.keyFlags .keyspace = true ↔
      ∃ e ∈ (keyspaceRun keyNotices).2, e.2.concerns .keyspace :=
  (@flags_follow_listeners keyNotices
    ⟨fun wrong => absurd wrong (by decide), fun wrong => absurd wrong (by decide),
      fun _ => by decide, trivial⟩ .keyspace).2
    ⟨by unfold Alone; decide, by unfold Alone; decide, by unfold Alone; decide, trivial⟩

/-- The end of one of two subscriptions of a connection ends the events for the other one. -/
example : (keyspaceRun
    [⟨true, 3, .sub (text "__keyspace@0__:k")⟩, ⟨true, 3, .sub (text "__keyspace@0__:j")⟩,
      ⟨false, 3, .sub (text "__keyspace@0__:k")⟩]).1.keyFlags .keyspace = false := by decide

end Flags

end Raids.Keyspace
