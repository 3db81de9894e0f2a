import Raids.Proof.Stream.Write
import Raids.Library.Machine

namespace Raids
open Machine Decimal

/-- What the commands rely on: the text of an id is read back, and ids are compared as pairs. -/
structure StreamData.Documented (lib : StreamData) : Prop where
  strToId_idText : ∀ ms ser : UInt64,
    lib.strToId (idText ms ser) = some (toLex (ms.toNat, ser.toNat))
  compare_le : ∀ first second, lib.compare first second ≤ 0 ↔ first ≤ second

/-- A key with the ids that were added to it. -/
structure StreamHistory where
  key : StreamKey := {}
  added : List StreamId := []

section History

variable (lib : StreamData)

/-- The ids of the entries in storage order. -/
def StreamKey.ids (key : StreamKey) : List (Option StreamId) :=
  key.value.entries.map fun entry => lib.strToId entry.id

/-- The id of a successful `XADD`. -/
def StreamReply.addedId : StreamReply → Option StreamId
  | .string idval => lib.strToId idval
  | _ => none

/-- The history notes the id of each successful `XADD`. -/
def historyStep (h : StreamHistory) (act : StreamEnv × StreamWrite) :
    StreamReply × StreamHistory :=
  let (reply, key) := execStreamWrite lib act.1 h.key act.2
  (reply, ⟨key, h.added ++ (reply.addedId lib).toList⟩)

/-- The entries have strictly increasing ids. -/
def StreamKey.Increasing (key : StreamKey) : Prop :=
  ∃ ids : List StreamId, key.ids lib = ids.map some ∧ ids.Pairwise (· < ·)

/-- The law of increasing ids for one command. -/
structure IncreasingStep (h : StreamHistory) (act : StreamEnv × StreamWrite) : Prop where
  before : h.key.Increasing lib
  after : (historyStep lib h act).2.key.Increasing lib
  replies : ∀ idval, (historyStep lib h act).1 = .string idval →
    ∃ sid, lib.strToId idval = some sid ∧ ∀ earlier ∈ h.added, earlier < sid
  refuses : ∀ msg args sid last, act.2 = .xadd msg → xaddArgs msg = some args →
    args.id ≠ text "*" → lib.strToId args.id = some sid →
      (h.key.ids lib).getLast? = some (some last) → sid ≤ last →
        (∃ status : ExecStatus, (historyStep lib h act).1 = .status status ∧ status.isError) ∧
        (historyStep lib h act).2 = h

/-- An id below this bound was added before the clock, or at the stamp at the latest when the
clock has not passed the stamp. -/
def BehindClock (clock upd : UInt64) (earlier : StreamId) : Prop :=
  if upd ≠ 0 ∧ clock ≤ upd / 1000000 then
    earlier ≤ toLex ((upd / 1000000).toNat, (upd % 1000000).toNat)
  else earlier < toLex (clock.toNat, 0)

instance (clock upd : UInt64) (earlier : StreamId) : Decidable (BehindClock clock upd earlier) :=
  inferInstanceAs (Decidable (ite _ _ _))

/-- No id that was added is ahead of the clock and the stamp when an id is asked for, and a given
id that is above the last entry is above the ids of the removed entries too. -/
def IdAbove (clock : UInt64) (h : StreamHistory) (idval : Bytes) : Prop :=
  if idval = text "*" then ∀ earlier ∈ h.added, BehindClock clock h.key.upd earlier
  else ∀ sid, lib.strToId idval = some sid →
    (∀ last, (h.key.ids lib).getLast? = some (some last) → last < sid) →
      ∀ earlier ∈ h.added, earlier < sid

/-- The id of an `XADD` that finds its memory is above the ids that were added. -/
def AddsAbove (h : StreamHistory) (act : StreamEnv × StreamWrite) : Prop :=
  ∀ msg args, act.2 = .xadd msg → xaddArgs msg = some args → act.1.Granted →
    h.key.value ≠ .other → IdAbove lib act.1.clock h args.id

end History

section Id

variable {lib : StreamData} (documented : lib.Documented) {clock upd : UInt64}
  {entries : List StreamEntry} {idval : Bytes}

include documented

/-- The next id is above the ids behind the clock and the stamp, and above no others. -/
theorem strToId_getNextId (clock upd : UInt64) :
    ∃ sid, lib.strToId (getNextId clock upd).1 = some sid ∧
      ∀ earlier, earlier < sid ↔ BehindClock clock upd earlier := by
  unfold getNextId BehindClock
  by_cases stands : upd ≠ 0 ∧ clock ≤ upd / 1000000
  · rw [if_pos stands]
    refine ⟨_, documented.strToId_idText _ _, fun earlier => ?_⟩
    rw [if_pos stands, Prod.Lex.lt_iff, Prod.Lex.le_iff]
    have small : (upd % 1000000 + 1).toNat = (upd % 1000000).toNat + 1 := by
      have bound : (upd % 1000000).toNat < 1000000 := Nat.mod_lt _ (by decide)
      rw [UInt64.toNat_add]
      exact Nat.mod_eq_of_lt (by simp only [UInt64.toNat_one]; omega)
    simp only [ofLex_toLex, small]
    omega
  · rw [if_neg stands]
    refine ⟨_, documented.strToId_idText _ _, fun earlier => ?_⟩
    rw [if_neg stands]
    rfl

omit documented in
/-- The last entry has the last id. -/
theorem getLast?_ids {ids : List StreamId}
    (stored : entries.map (fun entry => lib.strToId entry.id) = ids.map some) :
    entries.getLast?.map (fun entry => lib.strToId entry.id) = ids.getLast?.map some := by
  rw [← List.getLast?_map, ← List.getLast?_map, stored]

/-- A given id above the id of the last entry is taken. -/
theorem xaddId_above (given : idval ≠ text "*") {ids : List StreamId}
    (stored : entries.map (fun entry => lib.strToId entry.id) = ids.map some) {sid : StreamId}
    (parsed : lib.strToId idval = some sid) (above : ∀ last ∈ ids.getLast?, last < sid) :
    xaddId lib clock upd entries idval = .ok (idval, upd) := by
  have lasts := getLast?_ids stored
  rw [xaddId, if_neg given, parsed]
  cases final : entries.getLast? with
  | none => rfl
  | some last =>
      obtain ⟨sid2, found, same⟩ := Option.map_eq_some_iff.mp
        ((congrArg (Option.map _) final).symm.trans lasts).symm
      simp only [← same, documented.compare_le, if_neg (not_le.mpr (above sid2 found))]

/-- A given id at or below the id of the last entry is refused. -/
theorem xaddId_below (given : idval ≠ text "*") {ids : List StreamId}
    (stored : entries.map (fun entry => lib.strToId entry.id) = ids.map some)
    (below : ∀ sid, lib.strToId idval = some sid → ∃ last ∈ ids.getLast?, sid ≤ last) :
    xaddId lib clock upd entries idval = .error .errStreamId := by
  have lasts := getLast?_ids stored
  rw [xaddId, if_neg given]
  cases parsed : lib.strToId idval with
  | none => rfl
  | some sid =>
      obtain ⟨sid2, found, order⟩ := below sid parsed
      rw [Option.mem_def.mp found] at lasts
      obtain ⟨last, final, same⟩ := Option.map_eq_some_iff.mp lasts
      simp only [final, same, documented.compare_le, if_pos order]

omit documented in
/-- Above the last of increasing ids is above all of them. -/
theorem lt_of_getLast?_lt {ids : List StreamId} (sorted : ids.Pairwise (· < ·)) {sid : StreamId}
    (above : ∀ last ∈ ids.getLast?, last < sid) : ∀ id ∈ ids, id < sid := by
  induction ids using List.reverseRecOn with
  | nil => simp
  | append_singleton ids last _ =>
      have top : last < sid := above last (by simp)
      intro id member
      rcases List.mem_append.mp member with front | back
      · exact ((List.pairwise_append.mp sorted).2.2 id front last (by simp)).trans top
      · rw [List.mem_singleton.mp back]
        exact top

end Id

section Stored

variable (lib : StreamData)

/-- The entries have increasing ids, and all of these were added. -/
def Stored (entries : List StreamEntry) (added : List StreamId) : Prop :=
  ∃ ids : List StreamId, entries.map (fun entry => lib.strToId entry.id) = ids.map some ∧
    ids.Pairwise (· < ·) ∧ ids ⊆ added

variable {lib} {entries kept : List StreamEntry} {added : List StreamId}

theorem Stored.sublist (stored : Stored lib entries added) (sub : kept.Sublist entries) :
    Stored lib kept added := by
  obtain ⟨ids, same, sorted, member⟩ := stored
  have mapped := sub.map fun entry => lib.strToId entry.id
  rw [same] at mapped
  obtain ⟨fewer, part, equal⟩ := List.sublist_map_iff.mp mapped
  exact ⟨fewer, equal, sorted.sublist part, List.Subset.trans part.subset member⟩

/-- An entry with an id above all that were added is stored behind the others. -/
theorem Stored.append (stored : Stored lib entries added) {entry : StreamEntry} {sid : StreamId}
    (parsed : lib.strToId entry.id = some sid) (above : ∀ earlier ∈ added, earlier < sid) :
    Stored lib (entries ++ [entry]) (added ++ [sid]) := by
  obtain ⟨ids, same, sorted, member⟩ := stored
  refine ⟨ids ++ [sid], ?_, ?_, ?_⟩
  · rw [List.map_append, List.map_append, same]
    simp [parsed]
  · rw [List.pairwise_append]
    refine ⟨sorted, List.pairwise_singleton _ _, fun id front last back => ?_⟩
    rw [List.mem_singleton.mp back]
    exact above id (member front)
  · exact List.append_subset.mpr ⟨fun id front => List.mem_append_left _ (member front),
      fun id back => List.mem_append_right _ back⟩

end Stored

section Step

variable {lib : StreamData} (documented : lib.Documented) {h : StreamHistory}
  (stored : Stored lib h.key.value.entries h.added)

include documented stored

/-- An id is refused with an error, or it is taken and the condition says that it is above all. -/
theorem xaddId_cases (clock : UInt64) (idval : Bytes) :
    (xaddId lib clock h.key.upd h.key.value.entries idval = .error .errStreamId ∧
        IdAbove lib clock h idval) ∨
      ∃ result sid, xaddId lib clock h.key.upd h.key.value.entries idval = .ok result ∧
        lib.strToId result.1 = some sid ∧
          (IdAbove lib clock h idval ↔ ∀ earlier ∈ h.added, earlier < sid) := by
  obtain ⟨ids, same, sorted, member⟩ := stored
  have lasts : ∀ last, (h.key.ids lib).getLast? = some (some last) ↔ last ∈ ids.getLast? := by
    intro last
    rw [StreamKey.ids, same, List.getLast?_map]
    cases ids.getLast? <;> simp
  by_cases star : idval = text "*"
  · obtain ⟨sid, parsed, behind⟩ := strToId_getNextId documented clock h.key.upd
    refine .inr ⟨_, sid, by rw [xaddId, if_pos star], parsed, ?_⟩
    simp only [IdAbove, if_pos star, behind]
  · simp only [IdAbove, if_neg star, lasts]
    by_cases taken : ∃ sid, lib.strToId idval = some sid ∧ ∀ last ∈ ids.getLast?, last < sid
    · obtain ⟨sid, parsed, above⟩ := taken
      refine .inr ⟨_, sid, xaddId_above documented star same parsed above, parsed, ?_⟩
      simp only [parsed, Option.some.injEq, forall_eq']
      exact ⟨fun all => all above, fun all _ => all⟩
    · push Not at taken
      exact .inl ⟨xaddId_below documented star same taken, fun sid parsed above => by
        obtain ⟨last, final, order⟩ := taken sid parsed
        exact absurd (above last final) (not_lt.mpr order)⟩

/-- An `XADD` adds nothing, or it adds the entry of an id that the condition is about. -/
theorem historyStep_xadd (env : StreamEnv) (msg : CommandMsg) :
    ((∀ idval, (historyStep lib h (env, .xadd msg)).1 ≠ .string idval) ∧
        (historyStep lib h (env, .xadd msg)).2.key.value = h.key.value ∧
        (historyStep lib h (env, .xadd msg)).2.added = h.added ∧
        AddsAbove lib h (env, .xadd msg)) ∨
      ∃ (args : XaddArgs) (result : Bytes × UInt64) (sid : StreamId),
        historyStep lib h (env, .xadd msg) =
          (.string result.1,
            ⟨⟨.stream (args.added h.key.value.entries result.1), result.2⟩, h.added ++ [sid]⟩) ∧
        lib.strToId result.1 = some sid ∧
        (AddsAbove lib h (env, .xadd msg) ↔ ∀ earlier ∈ h.added, earlier < sid) := by
  by_cases granted : env.Granted ∧ h.key.value ≠ .other ∧ ∃ args, xaddArgs msg = some args
  · obtain ⟨granted, isStream, args, parsed⟩ := granted
    have adds : AddsAbove lib h (env, .xadd msg) ↔ IdAbove lib env.clock h args.id := by
      constructor
      · intro above
        exact above msg args rfl parsed granted isStream
      · intro above msg' args' same parsed' _ _
        cases same
        cases parsed.symm.trans parsed'
        exact above
    have opened : execXadd lib env msg h.key = xaddEntry lib env h.key args :=
      execXadd_opened parsed granted.1 granted.2.1 isStream
    rcases xaddId_cases documented stored env.clock args.id with refused | taken
    · obtain ⟨refused, above⟩ := refused
      have kept : execXadd lib env msg h.key = (.status .errStreamId, h.key) := by
        rw [opened, xaddEntry, refused]
      refine .inl ⟨?_, ?_, ?_, adds.mpr above⟩
      all_goals simp [historyStep, execStreamWrite, kept, StreamReply.addedId]
    · obtain ⟨result, sid, taken, text, above⟩ := taken
      have pushed : execXadd lib env msg h.key =
          (.string result.1, ⟨.stream (args.added h.key.value.entries result.1), result.2⟩) := by
        rw [opened, xaddEntry, taken]
        exact xaddPush_granted granted _ _
      refine .inr ⟨args, result, sid, ?_, text, adds.trans above⟩
      simp [historyStep, execStreamWrite, pushed, StreamReply.addedId, text]
  · obtain ⟨status, reply, kept⟩ := execXadd_refused lib granted
    refine .inl ⟨?_, ?_, ?_, ?_⟩
    · simp [historyStep, execStreamWrite, reply]
    · simp [historyStep, execStreamWrite, kept]
    · simp [historyStep, execStreamWrite, reply, StreamReply.addedId]
    · intro msg' args same parsed granted' isStream
      cases same
      exact absurd ⟨granted', isStream, args, parsed⟩ granted

/-- An `XADD` with an id at or below the last one fails and changes nothing. -/
theorem historyStep_below (env : StreamEnv) {msg : CommandMsg} {args : XaddArgs}
    (parsed : xaddArgs msg = some args) (given : args.id ≠ text "*") {sid last : StreamId}
    (idParsed : lib.strToId args.id = some sid)
    (final : (h.key.ids lib).getLast? = some (some last)) (order : sid ≤ last) :
    (∃ status : ExecStatus, (historyStep lib h (env, .xadd msg)).1 = .status status ∧
        status.isError) ∧
      (historyStep lib h (env, .xadd msg)).2 = h := by
  have refused : xaddEntry lib env h.key args = (.status .errStreamId, h.key) := by
    obtain ⟨ids, same, -, -⟩ := stored
    have below : ∀ other, lib.strToId args.id = some other →
        ∃ last ∈ ids.getLast?, other ≤ last := by
      intro other also
      cases idParsed.symm.trans also
      rw [StreamKey.ids, same, List.getLast?_map] at final
      exact ⟨last, by simpa using final, order⟩
    rw [xaddEntry, xaddId_below documented given same below]
  have failed : ∃ status : ExecStatus, status.isError ∧
      execXadd lib env msg h.key = (.status status, h.key) := by
    unfold execXadd
    rw [parsed]
    simp only
    split
    · exact ⟨_, rfl, rfl⟩
    all_goals try split
    all_goals first | exact ⟨_, rfl, rfl⟩ | exact ⟨_, rfl, refused⟩
  obtain ⟨status, error, kept⟩ := failed
  refine ⟨⟨status, ?_, error⟩, ?_⟩
  · simp [historyStep, execStreamWrite, kept]
  · simp [historyStep, execStreamWrite, kept, StreamReply.addedId]

omit documented in
theorem Stored.increasing : h.key.Increasing lib := by
  obtain ⟨ids, same, sorted, -⟩ := stored
  exact ⟨ids, same, sorted⟩

omit documented in
/-- A removal keeps the history in order. -/
theorem historyStep_removes (env : StreamEnv) (write : StreamWrite)
    (removes : OnlyRemoves h.key (execStreamWrite lib env h.key write)) :
    (∀ idval, (historyStep lib h (env, write)).1 ≠ .string idval) ∧
      Stored lib (historyStep lib h (env, write)).2.key.value.entries
        (historyStep lib h (env, write)).2.added := by
  obtain ⟨silent, sub⟩ := removes
  refine ⟨silent, ?_⟩
  obtain ⟨ids, same, sorted, member⟩ := stored.sublist sub
  exact ⟨ids, same, sorted, List.subset_append_of_subset_left _ member⟩

/-- A step that meets the condition keeps the entries in order. -/
theorem stored_historyStep (act : StreamEnv × StreamWrite) (above : AddsAbove lib h act) :
    Stored lib (historyStep lib h act).2.key.value.entries (historyStep lib h act).2.added := by
  obtain ⟨env, write⟩ := act
  cases write with
  | xtrim msg =>
      exact (historyStep_removes stored env (.xtrim msg) (execXtrim_removes env msg h.key)).2
  | xdel msg =>
      exact (historyStep_removes stored env (.xdel msg) (execXdel_removes env msg h.key)).2
  | xadd msg =>
      rcases historyStep_xadd documented stored env msg with quiet | adds
      · rw [quiet.2.1, quiet.2.2.1]
        exact stored
      · obtain ⟨args, result, sid, same, parsed, iff⟩ := adds
        rw [same]
        exact (stored.append parsed (iff.mp above)).sublist (xaddArgs_added_sublist args _)

/-- One command obeys the law exactly when it meets the condition. -/
theorem increasingStep_iff (act : StreamEnv × StreamWrite) :
    IncreasingStep lib h act ↔ AddsAbove lib h act := by
  constructor
  · intro law
    obtain ⟨env, write⟩ := act
    cases write with
    | xtrim msg => exact fun _ _ same => nomatch same
    | xdel msg => exact fun _ _ same => nomatch same
    | xadd msg =>
        rcases historyStep_xadd documented stored env msg with quiet | adds
        · exact quiet.2.2.2
        · obtain ⟨args, result, sid, same, parsed, iff⟩ := adds
          obtain ⟨sid', parsed', later⟩ := law.replies result.1 (by rw [same])
          cases parsed.symm.trans parsed'
          exact iff.mpr later
  · intro above
    have after := (stored_historyStep documented stored act above).increasing
    obtain ⟨env, write⟩ := act
    refine ⟨stored.increasing, after, ?_, ?_⟩
    · intro idval reply
      cases write with
      | xtrim msg =>
          have removed :=
            historyStep_removes stored env (.xtrim msg) (execXtrim_removes env msg h.key)
          exact absurd reply (removed.1 idval)
      | xdel msg =>
          have removed :=
            historyStep_removes stored env (.xdel msg) (execXdel_removes env msg h.key)
          exact absurd reply (removed.1 idval)
      | xadd msg =>
          rcases historyStep_xadd documented stored env msg with quiet | adds
          · exact absurd reply (quiet.1 idval)
          · obtain ⟨args, result, sid, same, parsed, iff⟩ := adds
            rw [same] at reply
            cases reply
            exact ⟨sid, parsed, iff.mp above⟩
    · intro msg args sid last same parsed given idParsed final order
      cases same
      exact historyStep_below documented stored env parsed given idParsed final order

end Step

/-- In every run on a new key, the ids increase strictly, a successful `XADD` replies with an id
above all that were added, and an id at or below the last one is refused without a change, exactly
when each `XADD` meets the condition. -/
theorem streamIds_increase (lib : StreamData) (documented : lib.Documented)
    (acts : List (StreamEnv × StreamWrite)) :
    Along (historyStep lib) (IncreasingStep lib) {} acts ↔
      Along (historyStep lib) (AddsAbove lib) {} acts := by
  have start : Stored lib ({} : StreamHistory).key.value.entries ({} : StreamHistory).added :=
    ⟨[], rfl, List.Pairwise.nil, List.Subset.refl _⟩
  exact along_iff (fun h => Stored lib h.key.value.entries h.added)
    (fun h act stored => stored_historyStep documented stored act)
    (fun h act stored => increasingStep_iff documented stored act) start

section Decimal

/-- The reader of the ids of two decimal numbers. -/
def decimalStrToId (idval : Bytes) : Option StreamId :=
  let ms := idval.takeWhile (· != minus)
  let ser := idval.drop (ms.length + 1)
  if ms.isEmpty || ser.isEmpty || (ms ++ ser).any fun c => !decide (IsDigit c) then none
  else some (toLex (value ms, value ser))

def decimalStreams : StreamData where
  strToId := decimalStrToId
  compare first second := if first < second then -1 else if first = second then 0 else 1
  bsearchEq entries idval :=
    entries.findIdx? fun entry => decimalStrToId entry.id == decimalStrToId idval

theorem decimalStreams_documented : decimalStreams.Documented where
  strToId_idText ms ser := by
    have serial : (if ser = 0 then text "0" else uint64ToString ser.toNat) = decimal ser.toNat := by
      split
      · rename_i zero
        rw [zero]
        rfl
      · rfl
    have noMinus : ∀ c ∈ decimal ms.toNat, (c != minus) = true := by
      intro c member
      have isDigit := isDigit_of_mem_decimal _ c member
      rw [bne_iff_ne]
      rintro rfl
      exact absurd isDigit (by decide)
    have front : (idText ms ser).takeWhile (· != minus) = decimal ms.toNat := by
      rw [idText, uint64ToString, List.takeWhile_append_of_pos noMinus]
      simp
    have back : (idText ms ser).drop ((decimal ms.toNat).length + 1) = decimal ser.toNat := by
      rw [idText, serial, uint64ToString, List.drop_append]
      simp
    show decimalStrToId _ = _
    simp only [decimalStrToId, front, back, value_decimal]
    rw [if_neg]
    simpa [decimal_ne_nil] using
      And.intro (isDigit_of_mem_decimal ms.toNat) (isDigit_of_mem_decimal ser.toNat)
  compare_le first second := by
    show (if first < second then (-1 : Int) else if first = second then 0 else 1) ≤ 0 ↔ _
    by_cases less : first < second
    · simp [less, less.le]
    · by_cases same : first = second
      · simp [same]
      · simp [less, same, lt_of_le_of_ne (not_lt.mp less) (Ne.symm same)]

/-- An `XADD` of one field. -/
def xaddWords (idval : String) : StreamWrite :=
  .xadd ⟨commandWords ["xadd", "s", idval, "a", "1"], by simp [commandWords]⟩

/-- An id is asked for when the clock is past the id that was given. -/
theorem streamIds_increase_clock :
    Along (historyStep decimalStreams) (IncreasingStep decimalStreams) {}
      [({ clock := 3 }, xaddWords "1-1"), ({ clock := 3 }, xaddWords "*")] := by
  rw [streamIds_increase decimalStreams decimalStreams_documented]
  refine ⟨?_, ?_, trivial⟩
  · intro msg args same parsed _ _
    cases same
    cases parsed.symm.trans (show _ = some ⟨0, text "1-1", [text "a", text "1"]⟩ by decide)
    intro sid _ _ earlier member
    cases member
  · intro msg args same parsed _ _
    cases same
    cases parsed.symm.trans (show _ = some ⟨0, text "*", [text "a", text "1"]⟩ by decide)
    have added : (historyStep decimalStreams {} ({ clock := 3 }, xaddWords "1-1")).2.added =
        [toLex (1, 1)] := by decide
    intro earlier member
    rw [added] at member
    rw [List.mem_singleton.mp member]
    decide

/-- A given id ahead of the clock is above the next id that is asked for. -/
theorem not_streamIds_increase_ahead :
    ¬∀ acts, Along (historyStep decimalStreams) (IncreasingStep decimalStreams) {} acts := by
  intro law
  obtain ⟨-, second, -⟩ := law [({ clock := 3 }, xaddWords "9-5"), ({ clock := 3 }, xaddWords "*")]
  obtain ⟨sid, parsed, above⟩ := second.replies (text "3-0") (by decide)
  have same : sid = toLex (3, 0) := Option.some.inj (parsed.symm.trans (by decide))
  have order := above (toLex (9, 5)) (by decide)
  rw [same] at order
  exact absurd order (by decide)

end Decimal

end Raids
