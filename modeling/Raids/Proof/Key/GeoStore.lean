import Raids.Proof.Key.GeoRadius
import Raids.Proof.Key.ListEdit
import Raids.Proof.Cmd.MovableKeys

namespace Raids.Key

open LastWrite Ranking

section Dest

variable {F C H Z X : Type} {env : GeoEnv} {type : MdType} {read : GeoValue H Z → Option X}
  {entry : Option (Entry (GeoValue H Z))} (write : X → GeoValue H Z) (empty : X)
  (add : X → Place F C H → X)

/-- The list that is there under a type. -/
def oldList (env : GeoEnv) (type : MdType) (read : GeoValue H Z → Option X) (empty : X)
    (entry : Option (Entry (GeoValue H Z))) : X :=
  match live env.source entry with
  | none => empty
  | some e => if e.type = type then (read e.data).getD empty else empty

/-- The destination may have the type, or no type yet. -/
def TakesType (env : GeoEnv) (type : MdType) (entry : Option (Entry (GeoValue H Z))) : Prop :=
  ∀ e, live env.source entry = some e → e.type = type ∨ e.type = .noData

/-- A list that can grow takes all places. -/
theorem storeLoop_works {grow : Nat → List Bool} (grows : ∀ i, ∀ grown ∈ grow i, grown = true)
    (places : List (Place F C H)) (i : Nat) (x : X) :
    storeLoop add grow places i x = (true, places.foldl add x) := by
  induction places generalizing i x with
  | nil => rfl
  | cons place places ih =>
      have grown : (grow i).all id := by simpa using grows i
      rw [storeLoop, if_pos grown, ih, List.foldl_cons]

/-- A destination that takes the type holds its old list with the places. -/
theorem storeInto_takes (works : env.Works) (forever : env.source.isExpired 0 = false)
    (holds : ∀ e, live env.source entry = some e → e.type = type → ∃ x, read e.data = some x)
    (named : type ≠ .noData) (takes : TakesType env type entry) (places : List (Place F C H)) :
    (storeInto env type read write empty add places entry).status = .execSendInt ∧
      (storeInto env type read write empty add places entry).out = [] ∧
      (storeInto env type read write empty add places entry).ival = places.length ∧
      ∃ e, live env.source
          ((storeInto env type read write empty add places entry).settle .geo) = some e ∧
        e.type = type ∧
        e.data = write (places.foldl add (oldList env type read empty entry)) := by
  have destLive : live env.dest entry = live env.source entry := rfl
  have resized : env.dest.resized = true := works.destResized
  have valued : env.dest.valued = true := works.destValued
  have success : ExecStatus.execSendInt.isSuccess = true := by decide
  have written : ∀ found : Option (Entry (GeoValue H Z)),
      (∀ e, found = some e → env.source.isExpired e.exp = false) → ∀ x,
      ∃ e, live env.source (some { Entry.write found (write x) with type := type }) = some e ∧
        e.type = type ∧ e.data = write x :=
    fun _ unexpired x => live_written forever unexpired (write x) type
  rw [storeInto, getKeyWrite_fetched works.destFetched, destLive, oldList]
  cases isLive : live env.source entry with
  | none =>
      simp only [resized, if_true, storeLoop_works add works.grows]
      refine ⟨trivial, rfl, trivial, ?_⟩
      have settled := written none (by simp) (places.foldl add empty)
      simpa [KeyRun.settle, Fetched.stop, named, success] using settled
  | some e =>
      have unexpired := unexpired_of_live isLive
      by_cases same : e.type = type
      · obtain ⟨x, isList⟩ := holds e isLive same
        simp only [same, if_true, Option.bind_some, isList, valued, storeLoop_works add works.grows,
          Option.getD_some]
        refine ⟨trivial, rfl, trivial, ?_⟩
        have settled := written (some e) (by simpa using unexpired) (places.foldl add x)
        rw [← same] at settled
        simpa [KeyRun.settle, Fetched.stop, Entry.write, same] using settled
      · have untyped : e.type = .noData := (takes e isLive).resolve_left same
        have notNamed : ¬MdType.noData = type := fun isNone => named isNone.symm
        simp only [untyped, notNamed, if_false, if_true, resized, storeLoop_works add works.grows]
        refine ⟨trivial, rfl, trivial, ?_⟩
        have settled := written (some e) (by simpa using unexpired) (places.foldl add empty)
        simpa [KeyRun.settle, Fetched.stop, named, Entry.write, success] using settled

/-- A destination of another type is refused. -/
theorem storeInto_refuses (works : env.Works) (refuses : ¬TakesType env type entry)
    (places : List (Place F C H)) :
    (storeInto env type read write empty add places entry).status = .errBadType ∧
      (storeInto env type read write empty add places entry).out = [] := by
  have destLive : live env.dest entry = live env.source entry := rfl
  simp only [TakesType, not_forall, not_or] at refuses
  obtain ⟨e, isLive, other, typed⟩ := refuses
  rw [storeInto, getKeyWrite_fetched works.destFetched, destLive, isLive]
  simp only [if_neg other, if_neg typed]
  exact ⟨rfl, rfl⟩

end Dest

section Meets

variable {F C H Z X K : Type} [LinearOrder F] [LinearOrder H] [LinearOrder Z] [LinearOrder K]
  {lib : GeoLib F C H Z} {args : GradiusArgs F C} {found : List (Place F C H)}

omit [LinearOrder F] [LinearOrder H] [LinearOrder Z] in
theorem length_of_isFirst {key : Place F C H → K} {n : Nat} {sent : List (Place F C H)}
    (isFirst : IsFirst key n found sent) : sent.length = min n found.length := by
  obtain ⟨order, perm, -, rfl⟩ := isFirst
  rw [List.length_take, perm.length_eq]

omit [LinearOrder H] [LinearOrder Z] in
/-- A reply has as many matches as the count allows, each of them once. -/
theorem IsSent.length_eq {sent : List (Place F C H)} (isSent : IsSent args found sent) :
    sent.length = min (args.limit found) found.length ∧ sent.Subperm found := by
  have first : ∀ {L : Type} [LinearOrder L] {key : Place F C H → L},
      IsFirst key (args.limit found) found sent →
        sent.length = min (args.limit found) found.length ∧ sent.Subperm found := by
    intro L _ key isFirst
    refine ⟨length_of_isFirst isFirst, ?_⟩
    obtain ⟨order, perm, -, rfl⟩ := isFirst
    exact (List.take_sublist _ _).subperm.trans perm.subperm
  rw [IsSent] at isSent
  by_cases desc : args.desc
  · rw [if_pos desc] at isSent
    exact first isSent
  · rw [if_neg desc] at isSent
    by_cases asc : args.asc
    · rw [if_pos asc] at isSent
      exact first isSent
    · rw [if_neg asc] at isSent
      exact ⟨isSent.2, isSent.1⟩

omit [LinearOrder H] in
/-- All matches are a reply when the count allows them. -/
theorem exists_isSent [LinearOrder H] (libWorks : lib.Works)
    (allowed : found.length ≤ args.limit found) :
    ∃ sent, IsSent args found sent ∧ sent.Perm found := by
  have first : ∀ {L : Type} [LinearOrder L] {key : Place F C H → L}
      {cmp : Place F C H → Place F C H → Ordering},
      (∀ x y, cmp x y = compare (key x) (key y)) →
        IsFirst key (args.limit found) found (lib.qsort cmp found) := by
    intro L _ key cmp compares
    refine ⟨_, libWorks.perm cmp found, pairwise_of_key libWorks key compares found, ?_⟩
    rw [List.take_of_length_le]
    rw [(libWorks.perm cmp found).length_eq]
    exact allowed
  by_cases desc : args.desc
  · refine ⟨lib.qsort cmpDescendDist found, ?_, libWorks.perm _ _⟩
    rw [IsSent, if_pos desc]
    exact first fun x y => rfl
  · by_cases asc : args.asc
    · refine ⟨lib.qsort cmpAscendDist found, ?_, libWorks.perm _ _⟩
      rw [IsSent, if_neg desc, if_pos asc]
      exact first fun x y => rfl
    · refine ⟨found, ?_, List.Perm.refl _⟩
      rw [IsSent, if_neg desc, if_neg asc]
      exact ⟨List.Subperm.refl _, (Nat.min_eq_right allowed).symm⟩

omit [LinearOrder F] [LinearOrder H] [LinearOrder Z] [LinearOrder K] in
/-- The scores of the matches do not depend on their order. -/
theorem placeScores_perm {score : Place F C H → K} {chosen : List (Place F C H)}
    (nodup : (found.map Place.name).Nodup) (perm : chosen.Perm found) :
    placeScores score chosen = placeScores score found := by
  funext m
  cases isScore : placeScores score chosen m with
  | some s =>
      obtain ⟨place, member, rfl, rfl⟩ := exists_of_placeScores isScore
      exact (placeScores_of_mem nodup (perm.mem_iff.mp member)).symm
  | none =>
      cases isScore' : placeScores score found m with
      | none => rfl
      | some s =>
          obtain ⟨place, member, rfl, rfl⟩ := exists_of_placeScores isScore'
          have nodup' : (chosen.map Place.name).Nodup := (perm.map Place.name).nodup_iff.mpr nodup
          rw [placeScores_of_mem nodup' (perm.mem_iff.mpr member)] at isScore
          cases isScore

/-- A store replies the number of the matches that the query asks for. The destination has them
under its type, or is absent if there are none. -/
def StoreMeets (env : GeoEnv) (type : MdType) (read : GeoValue H Z → Option X)
    (view : X → Bytes → Option K) (score : Place F C H → K) (args : GradiusArgs F C)
    (found : List (Place F C H)) (reply : Bytes) (after : Option (Entry (GeoValue H Z))) : Prop :=
  ∃ chosen, IsSent args found chosen ∧ reply = sendInt chosen.length ∧
    if chosen = [] then live env.source after = none
    else ∃ e x, live env.source after = some e ∧ e.type = type ∧ read e.data = some x ∧
      view x = placeScores score chosen

/-- There are matches, no more than the count allows, the destination has the type or none yet, and
its old members and the names with a zero do not matter. -/
structure StoreFits (env : GeoEnv) (type : MdType) (read : GeoValue H Z → Option X) (empty : X)
    (view : X → Bytes → Option K) (score : Place F C H → K) (args : GradiusArgs F C)
    (found : List (Place F C H)) (entry : Option (Entry (GeoValue H Z))) : Prop where
  isMatch : found ≠ []
  counted : args.counted → found.length ≤ args.count
  takes : TakesType env type entry
  replaces : ReplaceFits score found (view (oldList env type read empty entry))

omit [LinearOrder F] [LinearOrder H] [LinearOrder Z] [LinearOrder K] in
theorem length_le_limit_iff :
    found.length ≤ args.limit found ↔ (args.counted → found.length ≤ args.count) := by
  rw [GradiusArgs.limit]
  by_cases counted : args.counted
  · simp [counted]
  · simp [counted]

/-- A store meets its promise exactly where the destination and the matches fit. -/
theorem storeMeets_iff {env : GeoEnv} {type : MdType} {read : GeoValue H Z → Option X}
    {write : X → GeoValue H Z} {empty : X} {view : X → Bytes → Option K}
    {score : Place F C H → K} {add : X → Place F C H → X} {sorted : List (Place F C H)}
    {entry : Option (Entry (GeoValue H Z))} (works : env.Works) (libWorks : lib.Works)
    (forever : env.source.isExpired 0 = false) (named : type ≠ .noData)
    (holds : ∀ e, live env.source entry = some e → e.type = type → ∃ x, read e.data = some x)
    (reads : ∀ x, read (write x) = some x)
    (adds : ∀ x place m, view (add x place) m =
      if m = place.cut.name then some (score place) else view x m)
    (nodup : (found.map Place.name).Nodup) (perm : sorted.Perm found)
    (ordered : sorted.Pairwise fun x y => score x ≤ score y) (arg0 : Bytes) :
    StoreMeets env type read view score args found
        ((storeInto env type read write empty add sorted entry).reply arg0)
        ((storeInto env type read write empty add sorted entry).settle .geo) ↔
      StoreFits env type read empty view score args found entry := by
  by_cases takes : TakesType env type entry
  · obtain ⟨status, out, ival, e, isLive, isType, data⟩ :=
      storeInto_takes write empty add works forever holds named takes sorted
    have reply : (storeInto env type read write empty add sorted entry).reply arg0 =
        sendInt found.length := by
      rw [KeyRun.reply, out, status, ival, perm.length_eq]
      rfl
    have scores : view (sorted.foldl add (oldList env type read empty entry)) =
          placeScores score found ↔
        ReplaceFits score found (view (oldList env type read empty entry)) := by
      rw [← stored_iff nodup perm ordered, foldl_scores adds, funext_iff]
      apply forall_congr'
      intro m
      rw [writeAll_apply]
    rw [StoreMeets, reply, isLive]
    constructor
    · intro meets
      obtain ⟨chosen, isSent, number, after⟩ := meets
      obtain ⟨length, among⟩ := isSent.length_eq
      have whole : found.length = chosen.length := by exact_mod_cast sendInt_injective number
      have nonempty : chosen ≠ [] := by
        intro none
        rw [if_pos none] at after
        cases after
      have chosenPerm : chosen.Perm found := among.perm_of_length_le (le_of_eq whole)
      rw [if_neg nonempty] at after
      obtain ⟨e', x, same, -, isRead, exact_⟩ := after
      rw [← Option.some.inj same, data, reads] at isRead
      obtain rfl := Option.some.inj isRead
      refine ⟨?_, length_le_limit_iff.mp (by omega), takes, ?_⟩
      · intro none
        rw [none, List.length_nil] at whole
        exact nonempty (List.eq_nil_of_length_eq_zero whole.symm)
      · rw [← scores, exact_, placeScores_perm nodup chosenPerm]
    · intro fits
      obtain ⟨chosen, isSent, chosenPerm⟩ := exists_isSent libWorks (length_le_limit_iff.mpr fits.counted)
      have nonempty : chosen ≠ [] := by
        intro none
        rw [none] at chosenPerm
        exact fits.isMatch chosenPerm.symm.eq_nil
      refine ⟨chosen, isSent, by rw [chosenPerm.length_eq], ?_⟩
      rw [if_neg nonempty]
      refine ⟨e, _, rfl, isType, by rw [data, reads], ?_⟩
      rw [scores.mpr fits.replaces, placeScores_perm nodup chosenPerm]
  · obtain ⟨status, out⟩ :=
      @storeInto_refuses _ _ _ _ _ _ _ read _ write empty add works takes sorted
    refine iff_of_false ?_ fun fits => takes fits.takes
    intro meets
    obtain ⟨chosen, _, number, _⟩ := meets
    rw [KeyRun.reply, out, status, List.nil_append,
      sendStatus_of_isError (show ExecStatus.errBadType.isError by decide)] at number
    exact sendErrString_ne_sendInt _ _ _ number

omit [LinearOrder F] [LinearOrder K] [LinearOrder H] [LinearOrder Z] in
/-- Only the live destination matters. -/
theorem storeFits_congr [LinearOrder K] {env : GeoEnv} {type : MdType}
    {read : GeoValue H Z → Option X} {empty : X} {view : X → Bytes → Option K}
    {score : Place F C H → K} {entry entry' : Option (Entry (GeoValue H Z))}
    (same : live env.source entry = live env.source entry') :
    StoreFits env type read empty view score args found entry ↔
      StoreFits env type read empty view score args found entry' := by
  have takes : TakesType env type entry = TakesType env type entry' := by
    rw [TakesType, TakesType, same]
  have old : oldList env type read empty entry = oldList env type read empty entry' := by
    rw [oldList, oldList, same]
  constructor
  · intro fits
    exact ⟨fits.isMatch, fits.counted, takes ▸ fits.takes, old ▸ fits.replaces⟩
  · intro fits
    exact ⟨fits.isMatch, fits.counted, takes ▸ fits.takes, old ▸ fits.replaces⟩

end Meets

section Parse

variable {F C H Z : Type} {lib : GeoLib F C H Z} {msg : CommandMsg} {args : GradiusArgs F C}

/-- A query has one store at most, and no count unless it is given. -/
structure GradiusArgs.Sound (args : GradiusArgs F C) : Prop where
  single : ¬(args.store = true ∧ args.storedist = true)
  uncounted : args.counted = false → args.count = 0

theorem gradiusOptions_sound {left argi : Nat} {start : GradiusArgs F C} (sound : start.Sound)
    (parsed : gradiusOptions msg left argi start = some args) : args.Sound := by
  induction left generalizing argi start with
  | zero => exact Option.some.inj parsed ▸ sound
  | succ left ih =>
      rw [gradiusOptions] at parsed
      split at parsed
      · split at parsed
        · refine ih ?_ parsed
          exact ⟨sound.single, sound.uncounted⟩
        · refine ih ?_ parsed
          exact ⟨sound.single, sound.uncounted⟩
        · refine ih ?_ parsed
          exact ⟨sound.single, sound.uncounted⟩
        · split at parsed
          · cases parsed
          · split at parsed
            · cases parsed
            · refine ih ?_ parsed
              exact ⟨sound.single, by simp⟩
        · refine ih ?_ parsed
          exact ⟨sound.single, sound.uncounted⟩
        · refine ih ?_ parsed
          exact ⟨sound.single, sound.uncounted⟩
        · refine ih ?_ parsed
          exact ⟨by simp, sound.uncounted⟩
        · refine ih ?_ parsed
          exact ⟨by simp, sound.uncounted⟩
        · cases parsed
      · exact Option.some.inj parsed ▸ sound

theorem gradiusRadius_sound {argi : Nat} {origin : GeoOrigin C}
    (parsed : gradiusRadius lib msg argi origin = some args) : args.Sound := by
  rw [gradiusRadius] at parsed
  split at parsed
  · exact gradiusOptions_sound ⟨by simp, fun _ => rfl⟩ parsed
  · cases parsed

theorem gradiusArgs_sound {byMember : Bool} (parsed : gradiusArgs lib byMember msg = some args) :
    args.Sound := by
  rw [gradiusArgs] at parsed
  split at parsed
  · split at parsed
    · exact gradiusRadius_sound parsed
    · cases parsed
  · split at parsed
    · exact gradiusRadius_sound parsed
    · cases parsed

end Parse

section Run

variable {F C H Z : Type} [LinearOrder F] [LinearOrder H] {lib : GeoLib F C H Z} {env : GeoEnv}
  {byMember : Bool} {msg : CommandMsg} {args : GradiusArgs F C} {arg0 : Bytes}
  {source : KeyHash} {db : KeyHash → Option (Entry (GeoValue H Z))}

/-- What a query on a geo key leaves: the output, and the places that are saved for a store. -/
theorem doGradius_geo (works : env.Works) (parsed : gradiusArgs lib byMember msg = some args)
    {x : ZSetData H} {exp : Nat} {entry : Option (Entry (GeoValue H Z))}
    (isLive : live env.source entry = some ⟨.geo, .geo x, exp⟩) :
    ∃ run saved, doGradius lib env.source byMember msg entry = (run, saved) ∧
      run.status = .execOk ∧ run.settle .geo = some ⟨.geo, .geo x, exp⟩ ∧
      run.out = (if args.store ∨ args.storedist then []
        else gradiusReply lib args (sentPlaces lib args (gradiusPlaces lib args x))) ∧
      saved = if args.store ∨ args.storedist then
        some ⟨sortedPlaces lib args (gradiusPlaces lib args x), args.store, args.storedist,
          args.units⟩
        else none := by
  rw [doGradius, parsed]
  dsimp only
  rw [getKeyRead_works works.source, isLive]
  simp only [if_true, Option.bind_some, GeoValue.places, works.source.valued]
  rw [gradiusFinished]
  by_cases stores : args.store ∨ args.storedist
  · simp only [if_pos stores, works.source.validated, if_true]
    exact ⟨_, _, rfl, rfl, rfl, rfl, rfl⟩
  · simp only [if_neg stores, works.source.validated, if_true]
    exact ⟨_, _, rfl, rfl, rfl, rfl, rfl⟩

/-- A query without a destination ends with its source. -/
theorem runGradius_source {run : KeyRun (GeoValue H Z)} {saved : Option (StorePlaceList F C H)}
    (ran : doGradius lib env.source byMember msg (db source) = (run, saved)) (fuel : Nat) :
    runGradius lib env byMember msg arg0 source none (fuel + 1) [0] { db := db } =
      some { db := Function.update db source (run.settle .geo)
             saved := saved
             keyDone := 1
             out := run.out ++ sendStatus arg0 run.ival run.status } := by
  simp [runGradius, ran]

/-- The destination has its turn behind the source. -/
theorem runGradius_dest (arg0 : Bytes) (dest : KeyHash) {run : KeyRun (GeoValue H Z)}
    {saved : Option (StorePlaceList F C H)}
    (ran : doGradius lib env.source byMember msg (db source) = (run, saved))
    (ok : run.status = .execOk) {queue : List Nat} (orders : queue = [0, 1] ∨ queue = [1, 0]) :
    ∃ final, runGradius lib env byMember msg arg0 source (some dest) 3 queue { db := db } =
        some final ∧
      final.out = run.out ++ (doGradiusStore lib env saved
        (Function.update db source (run.settle .geo) dest)).reply arg0 ∧
      final.db dest = (doGradiusStore lib env saved
        (Function.update db source (run.settle .geo) dest)).settle .geo := by
  have goesOn : ExecStatus.execOk.ctorIdx ≤ ExecStatus.execBlocked.ctorIdx := by decide
  rcases orders with rfl | rfl
  · refine ⟨_, by simp [runGradius, ran, ok, goesOn]; rfl, ?_, ?_⟩
    · simp [KeyRun.reply]
    · simp
  · refine ⟨_, by simp [runGradius, ran, ok, goesOn]; rfl, ?_, ?_⟩
    · simp [KeyRun.reply]
    · simp

end Run

section Main

variable {F C H Z : Type} [LinearOrder F] [LinearOrder H] [LinearOrder Z]

/-- A query replies its matches, and a store replies their number and replaces its destination. -/
def GradiusMeets (lib : GeoLib F C H Z) (env : GeoEnv) (args : GradiusArgs F C)
    (found : List (Place F C H)) (dest : KeyHash) (final : GradiusRun F C H Z) : Prop :=
  if args.store then
    StoreMeets env .geo GeoValue.places ZSetData.score Place.h3i args found final.out
      (final.db dest)
  else if args.storedist then
    StoreMeets env .sortedSet GeoValue.scores ZSetData.score (placeScore lib args.units) args found
      final.out (final.db dest)
  else ∃ sent, final.out = gradiusReply lib args sent ∧ IsSent args found sent

/-- A store has a destination that fits, and a query has none and fits. -/
def GradiusFits (lib : GeoLib F C H Z) (env : GeoEnv) (args : GradiusArgs F C)
    (found : List (Place F C H)) (located : Option KeyHash)
    (entry : Option (Entry (GeoValue H Z))) : Prop :=
  if args.store then
    located ≠ none ∧
      StoreFits env .geo GeoValue.places .empty ZSetData.score Place.h3i args found entry
  else if args.storedist then
    located ≠ none ∧
      StoreFits env .sortedSet GeoValue.scores .empty ZSetData.score (placeScore lib args.units)
        args found entry
  else located = none ∧ SendFits lib args found

variable {lib : GeoLib F C H Z} {env : GeoEnv} {byMember : Bool} {msg : CommandMsg}
  {args : GradiusArgs F C} {x : ZSetData H} {found : List (Place F C H)}

omit [LinearOrder F] [LinearOrder H] [LinearOrder Z] in
theorem sendInt_ne_nil (v : Int) : sendInt v ≠ [] := by simp [sendInt]

/-- A reply of matches is read back up to the names that are cut. -/
theorem sendMeets_iff (libWorks : lib.Works) (sound : args.Sound)
    (isQuery : ¬(args.store ∨ args.storedist)) (nodup : (found.map Place.name).Nodup)
    (rest : Bytes) :
    (∃ sent, gradiusReply lib args (sentPlaces lib args found) ++ rest =
        gradiusReply lib args sent ∧ IsSent args found sent) ↔ rest = [] ∧ SendFits lib args found := by
  have items : (∃ sent, (sentPlaces lib args found).map (appendPlace lib args) =
      sent.map (appendPlace lib args) ∧ IsSent args found sent) ↔ SendFits lib args found := by
    by_cases zero : args.counted = true ∧ args.count = 0
    · exact sent_iff_of_zero libWorks zero.1 zero.2
    · exact sent_iff_of_positive libWorks sound.uncounted (fun counted none => zero ⟨counted, none⟩)
        isQuery nodup
  rw [← items]
  constructor
  · intro meets
    obtain ⟨sent, same, isSent⟩ := meets
    obtain ⟨each, none⟩ := gradiusReply_append (same.trans (List.append_nil _).symm)
    exact ⟨none, sent, each, isSent⟩
  · intro both
    obtain ⟨rfl, sent, each, isSent⟩ := both
    exact ⟨sent, by rw [List.append_nil, gradiusReply_congr each], isSent⟩

/-- A store keeps its promise exactly where it fits. -/
theorem doGradiusStore_iff (works : env.Works) (libWorks : lib.Works)
    (forever : env.source.isExpired 0 = false) (sound : args.Sound)
    (stores : args.store ∨ args.storedist) (nodup : (found.map Place.name).Nodup)
    {entry : Option (Entry (GeoValue H Z))}
    (typed : ∀ e, live env.source entry = some e →
      (e.type = .geo → ∃ y, e.data = .geo y) ∧ (e.type = .sortedSet → ∃ y, e.data = .zset y))
    (arg0 : Bytes) {dest : KeyHash} {final : GradiusRun F C H Z}
    (out : final.out = (doGradiusStore lib env (some ⟨sortedPlaces lib args found, args.store,
      args.storedist, args.units⟩) entry).reply arg0)
    (after : final.db dest = (doGradiusStore lib env (some ⟨sortedPlaces lib args found, args.store,
      args.storedist, args.units⟩) entry).settle .geo) :
    GradiusMeets lib env args found dest final ↔
      GradiusFits lib env args found (some dest) entry := by
  have perm := sortedPlaces_perm libWorks args found
  obtain ⟨byDist, byHash, _⟩ := @sortedPlaces_dist _ _ _ _ _ _ _ _ libWorks args found
  rw [GradiusMeets, GradiusFits, out, after, doGradiusStore]
  by_cases store : args.store
  · have single : args.storedist = false := by simpa using fun both => sound.single ⟨store, both⟩
    simp only [store, if_true]
    have reads : ∀ y : ZSetData H, (GeoValue.geo y : GeoValue H Z).places = some y := fun _ => rfl
    have adds : ∀ (y : ZSetData H) (place : Place F C H) m,
        (lib.geoadd y place.cut.name place.h3i).score m =
          if m = place.cut.name then some place.h3i else y.score m :=
      fun y place m => libWorks.geoadd _ _ _ _
    have holds : ∀ e, live env.source entry = some e → e.type = .geo →
        ∃ y, e.data.places = some y := by
      intro e isLive isGeo
      obtain ⟨y, data⟩ := (typed e isLive).1 isGeo
      exact ⟨y, by rw [data]; rfl⟩
    have named : MdType.geo ≠ .noData := by decide
    rw [storeMeets_iff works libWorks forever named holds reads adds nodup perm
      (byHash store single) arg0]
    exact ⟨fun fits => ⟨by simp, fits⟩, fun fits => fits.2⟩
  · have storedist : args.storedist = true := stores.resolve_left store
    have ordered := (byDist storedist).imp fun near => placeScore_le libWorks args.units near
    simp only [store, storedist, if_true, Bool.false_eq_true, if_false]
    have reads : ∀ y : ZSetData Z, (GeoValue.zset y : GeoValue H Z).scores = some y := fun _ => rfl
    have adds : ∀ (y : ZSetData Z) (place : Place F C H) m,
        (lib.zadd y place.cut.name (placeScore lib args.units place)).score m =
          if m = place.cut.name then some (placeScore lib args.units place) else y.score m :=
      fun y place m => libWorks.zadd _ _ _ _
    have holds : ∀ e, live env.source entry = some e → e.type = .sortedSet →
        ∃ y, e.data.scores = some y := by
      intro e isLive isSet
      obtain ⟨y, data⟩ := (typed e isLive).2 isSet
      exact ⟨y, by rw [data]; rfl⟩
    have named : MdType.sortedSet ≠ .noData := by decide
    rw [storeMeets_iff works libWorks forever named holds reads adds nodup perm ordered arg0]
    exact ⟨fun fits => ⟨by simp, fits⟩, fun fits => fits.2⟩

/-- The turns of a query may start in any order, and it keeps its promise exactly where it fits. -/
theorem gradius_exact (works : env.Works) (libWorks : lib.Works)
    (forever : env.source.isExpired 0 = false) (parsed : gradiusArgs lib byMember msg = some args)
    {db : KeyHash → Option (Entry (GeoValue H Z))} {source dest : KeyHash} {exp : Nat}
    (isLive : live env.source (db source) = some ⟨.geo, .geo x, exp⟩)
    (typed : ∀ e, live env.source (db dest) = some e →
      (e.type = .geo → ∃ y, e.data = .geo y) ∧ (e.type = .sortedSet → ∃ y, e.data = .zset y))
    (arg0 : Bytes) {queue : List Nat}
    (orders : queue.Perm (if gradiusDest msg dest = none then [0] else [0, 1])) :
    ∃ final, runGradius lib env byMember msg arg0 source (gradiusDest msg dest) 3 queue
        { db := db } = some final ∧
      (GradiusMeets lib env args (gradiusPlaces lib args x) dest final ↔
        GradiusFits lib env args (gradiusPlaces lib args x) (gradiusDest msg dest) (db dest)) := by
  have nodup : ((gradiusPlaces lib args x).map Place.name).Nodup := gradiusPlaces_nodup libWorks
  have sound := gradiusArgs_sound parsed
  obtain ⟨run, saved, ran, ok, settled, out, isSaved⟩ := doGradius_geo works parsed isLive
  generalize gradiusPlaces lib args x = found at nodup out isSaved ⊢
  cases located : gradiusDest msg dest with
  | none =>
      rw [located, if_pos rfl, List.perm_singleton] at orders
      rw [orders]
      refine ⟨_, runGradius_source ran 2, ?_⟩
      rw [GradiusMeets, GradiusFits]
      dsimp only
      rw [ok, show sendStatus arg0 run.ival .execOk = [] from rfl, out]
      by_cases store : args.store
      · simp only [store, if_true, true_or, List.append_nil, ne_eq, not_true, false_and, iff_false]
        intro meets
        obtain ⟨chosen, _, number, _⟩ := meets
        exact sendInt_ne_nil _ number.symm
      · by_cases storedist : args.storedist
        · simp only [store, storedist, if_true, or_true, List.append_nil, ne_eq, not_true,
            false_and, iff_false, Bool.false_eq_true, if_false]
          intro meets
          obtain ⟨chosen, _, number, _⟩ := meets
          exact sendInt_ne_nil _ number.symm
        · have isQuery : ¬(args.store = true ∨ args.storedist = true) := by simp [store, storedist]
          rw [if_neg store, if_neg storedist, if_neg store, if_neg storedist, if_neg isQuery]
          rw [sendMeets_iff libWorks sound isQuery nodup]
          simp
  | some hash =>
      have isDest : hash = dest := by
        rw [gradiusDest] at located
        split at located
        · exact (Option.some.inj located).symm
        · cases located
      subst isDest
      rw [located, if_neg (Option.some_ne_none hash)] at orders
      have order : queue = [0, 1] ∨ queue = [1, 0] := orders_of_two orders
      obtain ⟨final, runs, output, after⟩ :=
        runGradius_dest arg0 hash ran ok order
      refine ⟨final, runs, ?_⟩
      have destLive : live env.source (Function.update db source (run.settle .geo) hash) =
          live env.source (db hash) := by
        by_cases same : hash = source
        · rw [same, Function.update_self, settled, ← isLive, live_live]
        · rw [Function.update_of_ne same]
      by_cases stores : args.store ∨ args.storedist
      · rw [if_pos stores] at out isSaved
        rw [isSaved, out, List.nil_append] at output
        rw [isSaved] at after
        rw [doGradiusStore_iff works libWorks forever sound stores nodup
          (by rw [destLive]; exact typed) arg0 output after]
        rw [GradiusFits, GradiusFits, storeFits_congr destLive, storeFits_congr destLive]
      · have store : ¬args.store = true := fun store => stores (Or.inl store)
        have storedist : ¬args.storedist = true := fun store => stores (Or.inr store)
        rw [if_neg stores] at out isSaved
        rw [isSaved, out] at output
        rw [GradiusMeets, GradiusFits, if_neg store, if_neg storedist, if_neg store,
          if_neg storedist, output, sendMeets_iff libWorks sound stores nodup]
        have sends : (doGradiusStore lib env none
            (Function.update db source (run.settle .geo) hash)).reply arg0 ≠ [] := by
          show ([] : Bytes) ++ line ":0" ≠ []
          decide
        simp [sends]

omit [LinearOrder Z] in
/-- Names without a zero fit, where the count is not zero. -/
theorem sendFits_of_whole [LinearOrder Z] (libWorks : lib.Works)
    (nodup : (found.map Place.name).Nodup) (whole : ∀ place ∈ found, 0 ∉ place.name)
    (positive : args.counted → args.count ≠ 0) : SendFits lib args found := by
  have perm := sortedPlaces_perm libWorks args found
  have member : ∀ place ∈ (sortedPlaces lib args found).take (args.limit found), place ∈ found :=
    fun place taken => perm.mem_iff.mp (List.mem_of_mem_take taken)
  apply SendFits.mk
  · exact fun counted zero => absurd zero (positive counted)
  · intro _
    rw [List.map_congr_left fun place taken => by
      rw [Place.cut_eq (whole place (member place taken))]]
    have sorted : ((sortedPlaces lib args found).map Place.name).Nodup :=
      (perm.map Place.name).nodup_iff.mpr nodup
    exact sorted.sublist ((List.take_sublist _ _).map Place.name)
  · intro _ place taken
    exact ⟨place, member place taken, rfl, by rw [Place.cut_eq (whole place (member place taken))]⟩

end Main

section Sample

/-- The member is set in front of the others. -/
def setMember {H : Type} (x : ZSetData H) (m : Bytes) (set : H) : ZSetData H where
  members := (m, set) :: x.members.filter fun gv => gv.1 ≠ m
  nodup := by
    rw [List.map_cons, List.nodup_cons]
    constructor
    · intro member
      obtain ⟨gv, found, same⟩ := List.mem_map.mp member
      simpa [same] using (List.mem_filter.mp found).2
    · exact x.nodup.sublist (List.filter_sublist.map Prod.fst)

theorem setMember_score {H : Type} (x : ZSetData H) (m : Bytes) (set : H) (m' : Bytes) :
    (setMember x m set).score m' = if m' = m then some set else x.score m' := by
  rw [ZSetData.score, setMember, List.find?_cons]
  by_cases same : m' = m
  · simp [same]
  · have other : decide (m = m') = false := decide_eq_false fun same' => same same'.symm
    rw [if_neg same, other, ZSetData.score, List.find?_filter]
    dsimp only
    congr 2
    funext gv
    by_cases isName : gv.1 = m'
    · simp [isName, same]
    · simp [isName]

/-- Places on a line, whose hash is their number. -/
def lineLib : GeoLib Nat Nat Nat Nat where
  number str := (stringToUint str).toOption
  coord lon _ := lon
  meters units := if units = .m then 1 else 1000
  times a b := a * b
  divided a b := a / b
  h3ToGeo h := h
  haversineDist a b := a - b + (b - a)
  search x _ _ := [(1, x.hcount + 1)]
  qsort cmp places := places.insertionSort fun x y => cmp x y ≠ .gt
  geoadd := setMember
  zadd := setMember
  ftod dist := dist
  distText := uint64ToString
  hashNumber h := h
  lonText := uint64ToString
  latText _ := text "0"

theorem lineLib_works : lineLib.Works where
  perm cmp places := List.perm_insertionSort _ places
  sorted cmp swaps trans places := by
    have total : Std.Total fun x y : Place Nat Nat Nat => cmp x y ≠ .gt := by
      constructor
      intro x y
      by_cases greater : cmp x y = .gt
      · right
        rw [← swaps, greater]
        decide
      · exact Or.inl greater
    have transitive : IsTrans (Place Nat Nat Nat) fun x y => cmp x y ≠ .gt := ⟨trans⟩
    exact List.pairwise_insertionSort _ places
  disjoint x coordi radius := by
    simpa [lineLib] using List.nodup_range'
  geoadd := setMember_score
  zadd := setMember_score
  divided units dist dist' near := Nat.div_le_div_right near
  ftod dist dist' near := near

/-- A geo key with a near member and a far one. -/
def nearFar : ZSetData Nat := ⟨[(text "a", 1), (text "b", 9)], by decide⟩

def geoTable (h : KeyHash) : Option (Entry (GeoValue Nat Nat)) :=
  if h = ⟨1, 0⟩ then some ⟨.geo, .geo nearFar, 0⟩
  else if h = ⟨2, 0⟩ then some ⟨.geo, .geo ⟨[(text "c", 3)], by decide⟩, 0⟩
  else none

def georadiusMsg : CommandMsg :=
  ⟨commandWords ["georadius", "k", "0", "0", "5", "m", "asc"], by simp [commandWords]⟩

def georadiusStoreMsg : CommandMsg :=
  ⟨commandWords ["georadius", "k", "0", "0", "5", "m", "store", "d"], by simp [commandWords]⟩

theorem quietGeo_works : GeoEnv.Works {} := ⟨quietEnv_works, rfl, rfl, rfl, by simp⟩

def nearArgs : GradiusArgs Nat Nat := { origin := .coord 0, radius := 5, units := .m, asc := true }

theorem getArgStr_word {msg : CommandMsg} {word : Bytes} (n : Nat)
    (here : msg.args[n]? = some (mkStr word)) (fits : word.length < 2 ^ 31) (some_ : word ≠ []) :
    msg.getArgStr n = some word := by
  rw [(isArg_mkStr here fits).getArgStr, if_neg some_]

theorem matchArg_word {msg : CommandMsg} {words : List Bytes} {word : Bytes} (n k : Nat)
    (distinct : DistinctWords words) (here : msg.args[n]? = some (mkStr word))
    (known : words[k]? = some word) (fits : word.length < 2 ^ 31) :
    msg.matchArg n words = k + 1 :=
  matchArg_of_isWord distinct here known (isWord_mkStr fits)

/-- A query at the start of the line for the first five meters. -/
theorem gradiusArgs_line {msg : CommandMsg} (lon : msg.args[2]? = some (mkStr (text "0")))
    (lat : msg.args[3]? = some (mkStr (text "0"))) (radius : msg.args[4]? = some (mkStr (text "5")))
    (units : msg.args[5]? = some (mkStr (text "m"))) :
    gradiusArgs lineLib false msg =
      gradiusOptions msg msg.argc 6 { origin := .coord 0, radius := 5, units := .m } := by
  have isUnit : parseUnits msg 5 = some .m := by
    rw [parseUnits, matchArg_word 5 0 (by decide) units rfl (by decide)]
    rfl
  have isRadius : msg.getArgStr ((4 : Nat) : Int) = some (text "5") :=
    getArgStr_word 4 radius (by decide) (by decide)
  have isLon : msg.getArgStr 2 = some (text "0") := getArgStr_word 2 lon (by decide) (by decide)
  have isLat : msg.getArgStr 3 = some (text "0") := getArgStr_word 3 lat (by decide) (by decide)
  have zero : lineLib.number (text "0") = some 0 := by decide
  have five : lineLib.number (text "5") = some 5 := by decide
  rw [gradiusArgs, if_neg Bool.false_ne_true, isLon, isLat, Option.bind_some, zero]
  dsimp only
  rw [gradiusRadius, isRadius, Option.bind_some, five, isUnit]
  rfl

theorem gradiusArgs_georadius : gradiusArgs lineLib false georadiusMsg = some nearArgs := by
  rw [gradiusArgs_line rfl rfl rfl rfl]
  have isAsc : georadiusMsg.matchArg 6 gradiusWords = 5 :=
    matchArg_word 6 4 (by decide) rfl rfl (by decide)
  rw [show georadiusMsg.argc = 6 + 1 from rfl, gradiusOptions,
    if_pos (show 6 < georadiusMsg.argc by decide), isAsc]
  rfl

theorem gradiusArgs_georadiusStore :
    gradiusArgs lineLib false georadiusStoreMsg =
      some { origin := .coord 0, radius := 5, units := .m, store := true } := by
  rw [gradiusArgs_line rfl rfl rfl rfl]
  have isStore : georadiusStoreMsg.matchArg 6 gradiusWords = 7 :=
    matchArg_word 6 6 (by decide) rfl rfl (by decide)
  rw [show georadiusStoreMsg.argc = 7 + 1 from rfl, gradiusOptions,
    if_pos (show 6 < georadiusStoreMsg.argc by decide), isStore]
  rfl

theorem gradius_exact_near :
    ∃ final, runGradius lineLib {} false georadiusMsg [] ⟨1, 0⟩ none 3 [0] { db := geoTable } =
        some final ∧
      GradiusMeets lineLib {} nearArgs (gradiusPlaces lineLib nearArgs nearFar) ⟨2, 0⟩ final := by
  have parsed := gradiusArgs_georadius
  have located : gradiusDest georadiusMsg ⟨2, 0⟩ = none := rfl
  have isLive : live quietEnv (geoTable ⟨1, 0⟩) = some ⟨.geo, .geo nearFar, 0⟩ := rfl
  have typed : ∀ e, live quietEnv (geoTable ⟨2, 0⟩) = some e →
      (e.type = .geo → ∃ y, e.data = .geo y) ∧ (e.type = .sortedSet → ∃ y, e.data = .zset y) := by
    intro e isLive
    rw [← Option.some.inj isLive]
    exact ⟨fun _ => ⟨_, rfl⟩, nofun⟩
  have exact_ := gradius_exact quietGeo_works lineLib_works rfl parsed isLive typed []
    (show [0].Perm (if gradiusDest georadiusMsg ⟨2, 0⟩ = none then [0] else [0, 1]) by
      rw [located, if_pos rfl])
  rw [located] at exact_
  obtain ⟨final, runs, meets⟩ := exact_
  refine ⟨final, runs, meets.mpr ?_⟩
  have nodup : ((gradiusPlaces lineLib nearArgs nearFar).map Place.name).Nodup :=
    gradiusPlaces_nodup lineLib_works
  refine ⟨rfl, sendFits_of_whole lineLib_works nodup ?_ nofun⟩
  have found : gradiusPlaces lineLib nearArgs nearFar = [⟨text "a", 1, 1, 1⟩] := rfl
  rw [found]
  decide

/-- The member that was there stays. -/
theorem not_gradius_exact :
    ∃ final, runGradius lineLib {} false georadiusStoreMsg [] ⟨1, 0⟩ (some ⟨2, 0⟩) 3 [0, 1]
        { db := geoTable } = some final ∧
      ∀ args, gradiusArgs lineLib false georadiusStoreMsg = some args →
        ¬GradiusMeets lineLib {} args (gradiusPlaces lineLib args nearFar) ⟨2, 0⟩ final := by
  have isLive : live quietEnv (geoTable ⟨1, 0⟩) = some ⟨.geo, .geo nearFar, 0⟩ := rfl
  obtain ⟨run, saved, ran, ok, settled, out, isSaved⟩ :=
    doGradius_geo quietGeo_works gradiusArgs_georadiusStore isLive
  obtain ⟨final, runs, output, after⟩ :=
    runGradius_dest [] ⟨2, 0⟩ ran ok (Or.inl rfl)
  refine ⟨final, runs, ?_⟩
  intro args parsed
  have isArgs := Option.some.inj (parsed.symm.trans gradiusArgs_georadiusStore)
  subst isArgs
  rw [out, isSaved, if_pos (Or.inl rfl), if_pos (Or.inl rfl), List.nil_append,
    Function.update_of_ne (by decide)] at output
  rw [isSaved, if_pos (Or.inl rfl), Function.update_of_ne (by decide)] at after
  have typed : ∀ e, live quietEnv (geoTable ⟨2, 0⟩) = some e →
      (e.type = .geo → ∃ y, e.data = .geo y) ∧ (e.type = .sortedSet → ∃ y, e.data = .zset y) := by
    intro e isLive
    rw [← Option.some.inj isLive]
    exact ⟨fun _ => ⟨_, rfl⟩, nofun⟩
  rw [doGradiusStore_iff quietGeo_works lineLib_works rfl (gradiusArgs_sound parsed) (Or.inl rfl)
    (gradiusPlaces_nodup lineLib_works) typed [] output after]
  intro fits
  rw [GradiusFits, if_pos rfl] at fits
  obtain ⟨place, member, name⟩ := fits.2.replaces.replaced (text "c") (by decide)
  have found : gradiusPlaces lineLib { origin := .coord 0, radius := 5, units := .m, store := true }
      nearFar = [⟨text "a", 1, 1, 1⟩] := rfl
  rw [found, List.mem_singleton] at member
  rw [member] at name
  exact absurd name (by decide)

end Sample

end Raids.Key
