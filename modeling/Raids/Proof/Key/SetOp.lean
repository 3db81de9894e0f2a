import Mathlib.Data.Set.Basic
import Raids.Construction.Key.SetOp
import Raids.Proof.Key.Add
import Raids.Proof.Key.Saves

namespace Raids.Key

section Algebra

/-- What one merge does with two sets. -/
def SetOp.apply (op : SetOp) (first second : Set Bytes) : Set Bytes :=
  match op with
  | .sunion => first ∪ second
  | .sinter => first ∩ second
  | .sdiff => first \ second

/-- The union, the intersection, or the first set without the others. -/
def SetOp.result (op : SetOp) (first : Set Bytes) (others : List (Set Bytes)) : Set Bytes :=
  match op with
  | .sunion => {m | m ∈ first ∨ ∃ other ∈ others, m ∈ other}
  | .sinter => {m | m ∈ first ∧ ∀ other ∈ others, m ∈ other}
  | .sdiff => {m | m ∈ first ∧ ∀ other ∈ others, m ∉ other}

/-- One merge behind the other leaves the result of all sets. -/
theorem SetOp.foldl_apply (op : SetOp) (first : Set Bytes) (others : List (Set Bytes)) :
    others.foldl op.apply first = op.result first others := by
  induction others generalizing first with
  | nil =>
      cases op <;> ext m <;> simp [SetOp.result]
  | cons other others ih =>
      rw [List.foldl_cons, ih]
      cases op with
      | sunion =>
          ext m
          simp [SetOp.result, SetOp.apply, or_assoc]
      | sinter =>
          ext m
          simp [SetOp.result, SetOp.apply, and_assoc]
      | sdiff =>
          ext m
          simp [SetOp.result, SetOp.apply, and_assoc]

end Algebra

section Merge

variable {S M : Type} {lib : SetLib S M}

def SetLib.toSet (lib : SetLib S M) (set : S) : Set Bytes := {m | m ∈ lib.members set}

/-- The sets of the table work: a set without members has none, a set is written as it is read, has
each member once and counts them. A merge that ends has applied its operation, and one that is full
goes on in a copy with room for the other set, with less left to do. -/
structure SetLib.Works (lib : SetLib S M) (merging : SetOp → S → S → S → M → Prop)
    (left : SetOp → S → S → S → M → Nat) : Prop where
  mtList : lib.members (lib.load lib.mtList) = []
  listp : ∀ set, lib.members (lib.load (lib.listp set)) = lib.members set
  nodup : ∀ set, (lib.members set).Nodup
  hcount : ∀ set, lib.hcount set = (lib.members set).length
  start : ∀ op first set2, merging op first set2 first lib.start
  ends : ∀ {op first set2 set pos set' pos'}, merging op first set2 set pos →
    lib.merge op set set2 pos = (true, set', pos') →
    lib.toSet set' = op.apply (lib.toSet first) (lib.toSet set2)
  full : ∀ {op first set2 set pos set' pos'}, merging op first set2 set pos →
    lib.merge op set set2 pos = (false, set', pos') →
    ∀ count ≥ lib.count set2 + 2, ∀ ndata ≥ lib.dataLen set2,
      merging op first set2 (lib.copy set' count ndata) pos' ∧
        left op first set2 (lib.copy set' count ndata) pos' < left op first set2 set pos

variable {merging : SetOp → S → S → S → M → Prop} {left : SetOp → S → S → S → M → Nat}
  {op : SetOp}

/-- A merge that is full goes on in a larger copy, and it ends with its result when there is fuel
for all of its runs. -/
theorem setMergeLoop_ends {set2 : S} (state : S → M → Prop) (todo : S → M → Nat)
    (result : S → Prop)
    (ends : ∀ {set pos set' pos'}, state set pos →
      lib.merge op set set2 pos = (true, set', pos') → result set')
    (full : ∀ {set pos set' pos'}, state set pos →
      lib.merge op set set2 pos = (false, set', pos') →
      ∀ count ≥ lib.count set2 + 2, ∀ ndata ≥ lib.dataLen set2,
        state (lib.copy set' count ndata) pos' ∧
          todo (lib.copy set' count ndata) pos' < todo set pos)
    (fuel retry : Nat) {set : S} {pos : M} (start : state set pos) (enough : todo set pos < fuel) :
    ∃ set' retry', (∀ more ≥ fuel,
        setMergeLoop lib op set2 more retry set pos = some (set', retry')) ∧ result set' := by
  induction fuel generalizing retry set pos with
  | zero => omega
  | succ fuel ih =>
      obtain ⟨ended, set', pos', run⟩ : ∃ ended set' pos', lib.merge op set set2 pos =
          (ended, set', pos') := ⟨_, _, _, rfl⟩
      cases ended with
      | true =>
          refine ⟨set', retry, ?_, ends start run⟩
          intro more enough
          obtain ⟨more, rfl⟩ : ∃ n, more = n + 1 := ⟨more - 1, by omega⟩
          rw [setMergeLoop, run]
      | false =>
          obtain ⟨next, less⟩ := full start run (lib.count set2 + 2) (Nat.le_refl _)
            (lib.dataLen set2 + retry) (by omega)
          obtain ⟨set'', retry'', ran, merged⟩ := ih (retry + 16) next (by omega)
          refine ⟨set'', retry'', ?_, merged⟩
          intro more enough
          obtain ⟨more, rfl⟩ : ∃ n, more = n + 1 := ⟨more - 1, by omega⟩
          rw [setMergeLoop, run]
          exact ran more (by omega)

/-- A merge has applied its operation when there is fuel for all of its runs. -/
theorem setMergeLoop_spec (works : lib.Works merging left) {first set2 : S} (fuel retry : Nat)
    {set : S} {pos : M} (state : merging op first set2 set pos)
    (enough : left op first set2 set pos < fuel) :
    ∃ set' retry', (∀ more ≥ fuel,
        setMergeLoop lib op set2 more retry set pos = some (set', retry')) ∧
      lib.toSet set' = op.apply (lib.toSet first) (lib.toSet set2) :=
  setMergeLoop_ends (merging op first set2) (left op first set2) _ works.ends works.full fuel retry
    state enough

/-- All parts are merged when there is fuel for each merge. -/
theorem mergeOthers_spec (works : lib.Works merging left) (parts : List Bytes) (retry : Nat)
    (set : S) :
    ∃ set' bound, (∀ fuel ≥ bound, mergeOthers lib op fuel parts retry set = some set') ∧
      lib.toSet set' =
        (parts.map fun part => lib.toSet (lib.load part)).foldl op.apply (lib.toSet set) := by
  induction parts generalizing retry set with
  | nil => exact ⟨set, 0, fun _ _ => rfl, rfl⟩
  | cons part parts ih =>
      obtain ⟨next, retry', ran, merged⟩ := setMergeLoop_spec works
        (left op set (lib.load part) set lib.start + 1) retry (works.start op set (lib.load part))
        (Nat.lt_succ_self _)
      obtain ⟨set', bound, all, result⟩ := ih retry' next
      refine ⟨set', max bound (left op set (lib.load part) set lib.start + 1), ?_, ?_⟩
      · intro fuel enough
        rw [mergeOthers, ran fuel (by omega)]
        exact all fuel (by omega)
      · rw [result, merged, List.map_cons, List.foldl_cons]

theorem mergeSets_spec (works : lib.Works merging left) (part : Bytes) (parts : List Bytes) :
    ∃ set bound, (∀ fuel ≥ bound, mergeSets lib op fuel (part :: parts) = some set) ∧
      lib.toSet set = op.result (lib.toSet (lib.load part))
        (parts.map fun part => lib.toSet (lib.load part)) := by
  obtain ⟨set, bound, ran, merged⟩ := @mergeOthers_spec _ _ _ _ _ op works parts 0 (lib.load part)
  exact ⟨set, bound, ran, merged.trans (op.foldl_apply _ _)⟩

end Merge

section Keys

variable {S M : Type} {lib : SetLib S M} {env : KeyEnv} {op : SetOp} {store : Bool}

/-- A key is absent or holds a set. -/
def IsSetKey (env : KeyEnv) (entry : Option (Entry Bytes)) : Prop :=
  ∀ e, live env entry = some e → e.type = .noData ∨ e.type = .set

theorem IsSetKey.of_live {first second : Option (Entry Bytes)}
    (same : live env first = live env second) (isSet : IsSetKey env second) :
    IsSetKey env first := by
  rw [IsSetKey, same]
  exact isSet

/-- The bytes of the set of a key. -/
def setBytes (env : KeyEnv) (entry : Option (Entry Bytes)) : Option Bytes :=
  ((live env entry).filter fun e => e.type = .set ∧ e.data ≠ []).map Entry.data

/-- The members of a key; a missing key has none. -/
def keyMembers (lib : SetLib S M) (env : KeyEnv) (entry : Option (Entry Bytes)) : List Bytes :=
  match setBytes env entry with
  | none => []
  | some data => lib.members (lib.load data)

/-- The bytes that are saved for a source. -/
def sourceData (lib : SetLib S M) (env : KeyEnv) (entry : Option (Entry Bytes)) : Bytes :=
  (setBytes env entry).getD lib.mtList

theorem sourceData_of_live {first second : Option (Entry Bytes)}
    (same : live env first = live env second) :
    sourceData lib env first = sourceData lib env second := by
  rw [sourceData, sourceData, setBytes, setBytes, same]

/-- The saved bytes of a source hold the members of its key. -/
theorem toSet_sourceData {merging : SetOp → S → S → S → M → Prop}
    {left : SetOp → S → S → S → M → Nat} (works : lib.Works merging left)
    (entry : Option (Entry Bytes)) :
    lib.toSet (lib.load (sourceData lib env entry)) = {m | m ∈ keyMembers lib env entry} := by
  rw [SetLib.toSet, sourceData, keyMembers]
  cases setBytes env entry with
  | none =>
      rw [Option.getD_none, works.mtList]
  | some data => rfl

/-- A source reads the bytes of its set, or an empty set. -/
theorem doSsetop_source (works : env.Works) (fuel : Nat) (s : CommandRun Bytes) (ctx : KeyCtx)
    (source : ¬(store = true ∧ ctx.argn = 1)) {entry : Option (Entry Bytes)}
    (isSet : IsSetKey env entry) :
    ∃ found data, doSsetop lib env fuel op store s ctx entry =
        ssetopSource lib env fuel op s ctx found data ∧ found.entry = live env entry ∧
      (if data.length = 0 then lib.mtList else data) = sourceData lib env entry := by
  rw [doSsetop, if_neg source, getKeyRead_works works, sourceData, setBytes]
  cases found : live env entry with
  | none => exact ⟨_, [], rfl, rfl, rfl⟩
  | some e =>
      rcases isSet e found with untyped | isSet
      · refine ⟨⟨some .keyNotFound, some e, false, .noData⟩, [], ?_, rfl, ?_⟩
        · simp [untyped]
        · simp [Option.filter, untyped]
      · refine ⟨⟨some .keyOk, some e, false, .set⟩, e.data, ?_, rfl, ?_⟩
        · simp [isSet, works.valued]
        · by_cases empty : e.data = []
          · simp [Option.filter, empty]
          · simp [Option.filter, isSet, empty]

end Keys

section Runs

variable {S M : Type} {lib : SetLib S M} {env : KeyEnv} {op : SetOp} {store : Bool}
  {db : KeyHash → Option (Entry Bytes)} {dest first : KeyHash} {others : List KeyHash}
  {arg0 : Bytes}

/-- The sources are saved while other keys are left. -/
theorem doSsetop_saves (works : env.Works) (fuel : Nat) {hashes : List KeyHash} (i : Nat)
    (source : ∀ ctx : KeyCtx, (placesFrom 1 hashes)[i]? = some (ctx.argn, ctx.hash) →
      ¬(store = true ∧ ctx.argn = 1) ∧ IsSetKey env (db ctx.hash)) :
    Saves env db (placesFrom 1 hashes) (fun h => some (sourceData lib env (db h)))
      (doSsetop lib env fuel op store) .set i := by
  intro s ctx left place same
  obtain ⟨isSource, isSet⟩ := source ctx place
  obtain ⟨found, data, handled, entry, isData⟩ :=
    @doSsetop_source _ _ lib _ op _ works fuel s ctx isSource _ (isSet.of_live same)
  rw [handled, ssetopSource, isData, if_pos works.validated, if_neg (by omega),
    sourceData_of_live same]
  refine ⟨_, rfl, quiet_read ?_, show ExecStatus.execOk ≠ .execDepends by decide,
    show ExecStatus.execOk.ctorIdx ≤ ExecStatus.execBlocked.ctorIdx by decide⟩
  rw [entry, live_live, same]

/-- The sets of the keys are merged into their result. -/
theorem mergeSets_keys {merging : SetOp → S → S → S → M → Prop}
    {left : SetOp → S → S → S → M → Nat} (sets : lib.Works merging left) :
    ∃ set bound, (∀ fuel ≥ bound, mergeSets lib op fuel
        ((first :: others).map fun h => sourceData lib env (db h)) = some set) ∧
      lib.toSet set = op.result {m | m ∈ keyMembers lib env (db first)}
        (others.map fun h => {m | m ∈ keyMembers lib env (db h)}) := by
  obtain ⟨set, bound, ran, result⟩ := @mergeSets_spec _ _ _ _ _ op sets
    (sourceData lib env (db first)) (others.map fun h => sourceData lib env (db h))
  refine ⟨set, bound, ran, ?_⟩
  rw [result, toSet_sourceData sets, List.map_map]
  congr 1
  apply List.map_congr_left
  intro h _
  exact toSet_sourceData sets (db h)

/-- The last key sends the members of the result, and the keys stay. -/
theorem doSsetop_run (works : env.Works) (fuel : Nat)
    (isSet : ∀ h ∈ first :: others, IsSetKey env (db h)) {order : List Nat}
    (all : order.Perm (List.range (others.length + 1))) {set : S}
    (merged : mergeSets lib op fuel ((first :: others).map fun h => sourceData lib env (db h)) =
      some set) :
    ∃ s, runKeys (doSsetop lib env fuel op false) .set arg0 (2 * (others.length + 1)) order
        { db := db, keys := keysFrom 1 (first :: others) } = some s ∧
      s.out = sendArray (lib.members set) ∧ ∀ h, live env (s.db h) = live env (db h) := by
  have length := length_placesFrom 1 (first :: others)
  rw [List.length_cons] at length
  have turns : order.Perm (List.range (placesFrom 1 (first :: others)).length) := by
    rw [length]
    exact all
  have start : Progress env db (placesFrom 1 (first :: others))
      (fun h => some (sourceData lib env (db h))) []
      { db := db, keys := keysFrom 1 (first :: others) } := Progress.start keysFrom_fresh
  obtain ⟨before, last, rest, s, isOrder, progress, inside, total, ran⟩ :=
    @Progress.runKeys_allButLast _ _ _ _ _ (doSsetop lib env fuel op false) .set arg0 _ _ start
      (fun i _ => doSsetop_saves works fuel i fun ctx place =>
        ⟨fun both => absurd both.1 (by decide), isSet ctx.hash (mem_of_place place)⟩) turns
      (by
        intro nil
        rw [nil] at length
        cases length)
  obtain ⟨ctx, found, place⟩ := progress.found inside
  have same := progress.same ctx.hash
  obtain ⟨fetched, data, handled, entry, isData⟩ := @doSsetop_source _ _ lib _ op false works fuel s
    ctx (fun both => absurd both.1 (by decide)) _
    ((isSet ctx.hash (mem_of_place place)).of_live same)
  have members : ∀ i < (first :: others).length, i ≠ last → i ∈ before := by
    intro i small other
    have turn : i ∈ order := all.mem_iff.mpr (List.mem_range.mpr small)
    rw [isOrder, List.mem_append, List.mem_singleton] at turn
    exact turn.resolve_right other
  have parts : (s.keys.map fun key => if key.argn = ctx.argn then sourceData lib env (db ctx.hash)
      else key.part.getD []) = (first :: others).map fun h => sourceData lib env (db h) := by
    have saved := congrArg (List.map fun part : Option Bytes => part.getD [])
      (progress.parts_last members found)
    rw [List.map_map, List.map_map] at saved
    refine Eq.trans (List.map_congr_left fun key _ => ?_) saved
    by_cases here : key.argn = ctx.argn
    · simp [here]
    · simp [here]
  rw [ssetopSource, isData, if_pos works.validated,
    if_pos (by rw [progress.length, progress.keyDone, total]), sourceData_of_live same, parts]
    at handled
  dsimp only at handled
  rw [merged] at handled
  obtain ⟨s', ended, table, out⟩ := @Progress.last _ _ _ _ _ (doSsetop lib env fuel op false) .set
    arg0 _ _ _ progress _ found total _ _ handled (show ExecStatus.execOk ≠ .execDepends by decide)
    rest []
  rw [length] at ran
  refine ⟨s', ran.trans ended, ?_, ?_⟩
  · rw [out]
    exact List.append_nil _
  · intro h
    rw [table, KeyRun.settle, if_neg (fun settles => absurd rfl (settles.1)), live_update,
      progress.same]
    show live env fetched.entry = _
    rw [entry, live_live]

/-- The destination waits for the sources. -/
theorem doSsetop_waits (fuel : Nat) {hashes : List KeyHash} :
    Waits env db (placesFrom 1 (dest :: hashes)) (doSsetop lib env fuel op true) .set 0 := by
  intro s ctx left place same
  obtain ⟨argn, -⟩ := getElem?_placesFrom.mp place
  rw [doSsetop, if_pos ⟨rfl, argn⟩, if_pos (by omega)]
  refine ⟨_, rfl, ⟨rfl, rfl, ?_⟩, rfl, rfl⟩
  rw [KeyRun.settle, if_neg (fun settles => settles.1 rfl)]
  exact same

/-- The destination holds the set, whatever was there. -/
theorem ssetopDest_spec (works : env.Works) (forever : env.isExpired 0 = false) (set : S)
    (entry : Option (Entry Bytes)) :
    (ssetopDest lib env set entry).status = .execSendInt ∧
      (ssetopDest lib env set entry).out = [] ∧
      (ssetopDest lib env set entry).ival = lib.hcount set ∧
      ∃ e, live env ((ssetopDest lib env set entry).settle .set) = some e ∧ e.type = .set ∧
        e.data = lib.listp set := by
  have stored : ∀ found : Fetched Bytes, (∀ e, found.entry = some e → env.isExpired e.exp = false) →
      ∃ e, live env (some { Entry.write found.entry (lib.listp set) with type := .set }) = some e ∧
        e.type = .set ∧ e.data = lib.listp set :=
    fun _ unexpired => live_written forever unexpired _ _
  rw [ssetopDest, getKeyWrite_works works]
  cases found : live env entry with
  | none =>
      simp only [works.resized, if_true]
      refine ⟨rfl, rfl, trivial, stored ⟨some .keyIsNew, none, true, .noData⟩ ?_⟩
      intro e isEntry
      cases isEntry
  | some e =>
      have unexpired : ∀ e', some e = some e' → env.isExpired e'.exp = false := by
        intro e' same
        rw [← Option.some.inj same]
        exact unexpired_of_live found
      by_cases isSet : e.type = .set
      · simp only [isSet, works.resized, if_true]
        exact ⟨rfl, rfl, trivial, stored ⟨some .keyOk, some e, false, .set⟩ unexpired⟩
      · by_cases untyped : e.type = .noData
        · simp only [untyped, works.resized, if_true, reduceCtorEq, if_false]
          exact ⟨rfl, rfl, trivial, stored ⟨some .keyIsNew, some e, true, .noData⟩ unexpired⟩
        · simp only [isSet, untyped, works.resized, if_true, if_false]
          exact ⟨rfl, rfl, trivial, stored ⟨some .keyNoValue, some e, false, e.type⟩ unexpired⟩

/-- The destination has the result with its number as the reply, and the other keys stay. -/
theorem doSsetop_store (works : env.Works) (forever : env.isExpired 0 = false) (fuel : Nat)
    (isSet : ∀ h ∈ first :: others, IsSetKey env (db h)) {order : List Nat}
    (all : order.Perm (List.range (others.length + 2))) {set : S}
    (merged : mergeSets lib op fuel ((first :: others).map fun h => sourceData lib env (db h)) =
      some set) :
    ∃ s, runKeys (doSsetop lib env fuel op true) .set arg0 (2 * (others.length + 2)) order
        { db := db, keys := keysFrom 1 (dest :: first :: others) } = some s ∧
      s.out = sendInt (lib.hcount set) ∧ (∀ h ≠ dest, live env (s.db h) = live env (db h)) ∧
      ∃ e, live env (s.db dest) = some e ∧ e.type = .set ∧ e.data = lib.listp set := by
  have length := length_placesFrom 1 (dest :: first :: others)
  rw [List.length_cons, List.length_cons] at length
  have turns : order.Perm (List.range (placesFrom 1 (dest :: first :: others)).length) := by
    rw [length]
    exact all
  have start : Progress env db (placesFrom 1 (dest :: first :: others))
      (fun h => some (sourceData lib env (db h))) []
      { db := db, keys := keysFrom 1 (dest :: first :: others) } := Progress.start keysFrom_fresh
  have saves : ∀ i < (placesFrom 1 (dest :: first :: others)).length, i ≠ 0 →
      Saves env db (placesFrom 1 (dest :: first :: others))
        (fun h => some (sourceData lib env (db h))) (doSsetop lib env fuel op true) .set i := by
    intro i _ source
    apply doSsetop_saves works fuel
    intro ctx place
    obtain ⟨argn, isKey⟩ := getElem?_placesFrom.mp place
    rw [List.getElem?_cons, if_neg source] at isKey
    dsimp only at argn
    exact ⟨by omega, isSet ctx.hash (List.mem_of_getElem? isKey)⟩
  obtain ⟨done, rest, s, members, progress, total, ran⟩ :=
    @Progress.runKeys_dest _ _ _ _ _ (doSsetop lib env fuel op true) .set arg0 _ _ 0 start
      (doSsetop_waits fuel) saves turns (by omega)
  obtain ⟨ctx, found, place⟩ := progress.found (show 0 < _ by omega)
  obtain ⟨argn, isKey⟩ := getElem?_placesFrom.mp place
  obtain rfl : dest = ctx.hash := Option.some.inj isKey
  have parts : (s.keys.tail.map fun key => key.part.getD []) =
      (first :: others).map fun h => sourceData lib env (db h) := by
    have saved := congrArg (List.map fun part : Option Bytes => part.getD [])
      (progress.parts_dest members)
    rw [List.map_map, List.map_map] at saved
    exact saved
  obtain ⟨ok, noOut, number, e, isEntry, isType, data⟩ :=
    @ssetopDest_spec _ _ lib _ works forever set (s.db ctx.hash)
  obtain ⟨s', ended, table, out⟩ := @Progress.last _ _ _ _ _ (doSsetop lib env fuel op true) .set
    arg0 _ _ _ progress _ found total _ none
    (by
      rw [doSsetop, if_pos ⟨rfl, argn⟩, if_neg, parts, merged]
      rw [progress.length, progress.keyDone, total]
      exact fun different => different rfl)
    (by rw [ok]; decide) rest []
  rw [length] at ran
  refine ⟨s', ran.trans ended, ?_, ?_, e, ?_, isType, data⟩
  · rw [out, noOut, ok, number]
    rfl
  · intro h other
    rw [table, Function.update_of_ne other, progress.same]
  · rw [table, Function.update_self, isEntry]

/-- The result of the sets of the keys. -/
def keyResult (lib : SetLib S M) (env : KeyEnv) (op : SetOp) (db : KeyHash → Option (Entry Bytes))
    (first : KeyHash) (others : List KeyHash) : Set Bytes :=
  op.result {m | m ∈ keyMembers lib env (db first)}
    (others.map fun h => {m | m ∈ keyMembers lib env (db h)})

/-- The plain command sends each member of the result once and changes no key. The command that
stores leaves the result in its destination, which is absent without members, sends its number and
changes no other key. -/
structure SsetopMeets (lib : SetLib S M) (env : KeyEnv) (op : SetOp)
    (db : KeyHash → Option (Entry Bytes)) (dest first : KeyHash) (others : List KeyHash)
    (plain stored : CommandRun Bytes) : Prop where
  members : ∃ items : List Bytes, plain.out = sendArray items ∧ items.Nodup ∧
    {m | m ∈ items} = keyResult lib env op db first others
  kept : ∀ h, live env (plain.db h) = live env (db h)
  number : ∃ items : List Bytes, stored.out = sendInt items.length ∧ items.Nodup ∧
    {m | m ∈ items} = keyResult lib env op db first others
  stores : (keyResult lib env op db first others).Nonempty → ∃ e,
    live env (stored.db dest) = some e ∧ e.type = .set ∧
    (lib.members (lib.load e.data)).Nodup ∧
    lib.toSet (lib.load e.data) = keyResult lib env op db first others
  absent : keyResult lib env op db first others = ∅ → live env (stored.db dest) = none
  others : ∀ h ≠ dest, live env (stored.db h) = live env (db h)

/-- The commands are the set algebra under the condition only: the result has a member. -/
theorem ssetop_exact {merging : SetOp → S → S → S → M → Prop}
    {left : SetOp → S → S → S → M → Nat} (works : env.Works) (forever : env.isExpired 0 = false)
    (sets : lib.Works merging left) (isSet : ∀ h ∈ first :: others, IsSetKey env (db h))
    {order order' : List Nat} (all : order.Perm (List.range (others.length + 1)))
    (all' : order'.Perm (List.range (others.length + 2))) :
    ∃ bound, ∀ fuel ≥ bound, ∃ plain stored,
      runKeys (doSsetop lib env fuel op false) .set arg0 (2 * (others.length + 1)) order
        { db := db, keys := keysFrom 1 (first :: others) } = some plain ∧
      runKeys (doSsetop lib env fuel op true) .set arg0 (2 * (others.length + 2)) order'
        { db := db, keys := keysFrom 1 (dest :: first :: others) } = some stored ∧
      (SsetopMeets lib env op db dest first others plain stored ↔
        (keyResult lib env op db first others).Nonempty) := by
  obtain ⟨set, bound, merged, result⟩ := @mergeSets_keys _ _ lib env op db first others _ _ sets
  refine ⟨bound, fun fuel enough => ?_⟩
  obtain ⟨plain, ran, out, kept⟩ :=
    @doSsetop_run _ _ _ _ _ _ _ _ arg0 works fuel isSet _ all _ (merged fuel enough)
  obtain ⟨stored, ran', out', same, e, isEntry, isType, data⟩ :=
    @doSsetop_store _ _ _ _ _ _ dest _ _ arg0 works forever fuel isSet _ all' _ (merged fuel enough)
  refine ⟨plain, stored, ran, ran', ?_⟩
  apply Iff.intro
  · intro meets
    by_contra none
    have absent := meets.absent (Set.not_nonempty_iff_eq_empty.mp none)
    rw [isEntry] at absent
    cases absent
  · intro some
    refine ⟨⟨_, out, sets.nodup set, result⟩, kept, ⟨_, ?_, sets.nodup set, result⟩, ?_, ?_, same⟩
    · rw [out', sets.hcount]
    · intro _
      refine ⟨e, isEntry, isType, sets.nodup _, ?_⟩
      rw [SetLib.toSet, data, sets.listp]
      exact result
    · intro empty
      exact absurd some (Set.not_nonempty_iff_eq_empty.mpr empty)

end Runs

section Samples

/-- Sets of single bytes, whose merges are never full. -/
def byteSets : SetLib {l : List UInt8 // l.Nodup} Unit where
  mtList := []
  load := fun data => ⟨data.dedup, data.nodup_dedup⟩
  listp := Subtype.val
  count := fun set => set.val.length + 1
  hcount := fun set => set.val.length
  dataLen := fun set => set.val.length
  lindex := fun set n => if n = 0 then none else set.val[n - 1]?.map fun b => [b]
  start := ()
  merge := fun op set set2 _ =>
    match op with
    | .sunion => (true, ⟨(set.val ++ set2.val).dedup, List.nodup_dedup _⟩, ())
    | .sinter => (true, ⟨set.val.filter (· ∈ set2.val), set.property.filter _⟩, ())
    | .sdiff => (true, ⟨set.val.filter (· ∉ set2.val), set.property.filter _⟩, ())
  copy := fun set _ _ => set

theorem memberLoop_byteSets (set : {l : List UInt8 // l.Nodup}) (left i : Nat) :
    memberLoop byteSets set left i = ((set.val.drop i).take left).map fun b => [b] := by
  induction left generalizing i with
  | zero => rfl
  | succ left ih =>
      rw [memberLoop, ih]
      cases found : set.val[i]? with
      | none =>
          rw [List.drop_eq_nil_of_le (List.getElem?_eq_none_iff.mp found)]
          simp [byteSets, found]
      | some b =>
          obtain ⟨inside, rfl⟩ := List.getElem?_eq_some_iff.mp found
          have isMember : byteSets.lindex set (i + 1) = some [set.val[i]] := by
            simp [byteSets, found]
          rw [isMember, List.drop_eq_getElem_cons inside, List.take_succ_cons, List.map_cons]

theorem members_byteSets (set : {l : List UInt8 // l.Nodup}) :
    byteSets.members set = set.val.map fun b => [b] := by
  rw [SetLib.members, memberLoop_byteSets, List.drop_zero, List.take_of_length_le]
  exact Nat.le_succ _

theorem byteSets_works :
    byteSets.Works (fun _ first _ set _ => set = first) (fun _ _ _ _ _ => 0) where
  mtList := rfl
  listp := by
    intro set
    rw [members_byteSets, members_byteSets]
    exact congrArg _ set.property.dedup
  nodup := by
    intro set
    rw [members_byteSets]
    exact set.property.map fun _ _ same => List.singleton_injective same
  hcount := by
    intro set
    rw [members_byteSets, List.length_map]
    rfl
  start := fun _ _ _ => rfl
  ends := by
    intro op first set2 set pos set' pos' same ended
    subst same
    cases op with
    | sunion =>
        obtain rfl := (Prod.mk.inj (Prod.mk.inj ended).2).1
        ext m
        simp [SetLib.toSet, members_byteSets, SetOp.apply, or_and_right, exists_or]
    | sinter =>
        obtain rfl := (Prod.mk.inj (Prod.mk.inj ended).2).1
        ext m
        simp only [SetLib.toSet, members_byteSets, SetOp.apply, Set.mem_ofPred_eq, List.mem_map,
          List.mem_filter, decide_eq_true_eq, Set.mem_inter_iff]
        apply Iff.intro
        · rintro ⟨b, ⟨here, there⟩, rfl⟩
          exact ⟨⟨b, here, rfl⟩, b, there, rfl⟩
        · rintro ⟨⟨b, here, rfl⟩, b', there, same⟩
          rw [List.singleton_injective same] at there
          exact ⟨b, ⟨here, there⟩, rfl⟩
    | sdiff =>
        obtain rfl := (Prod.mk.inj (Prod.mk.inj ended).2).1
        ext m
        simp only [SetLib.toSet, members_byteSets, SetOp.apply, Set.mem_ofPred_eq, List.mem_map,
          List.mem_filter, decide_eq_true_eq, Set.mem_sdiff]
        apply Iff.intro
        · rintro ⟨b, ⟨here, missing⟩, rfl⟩
          refine ⟨⟨b, here, rfl⟩, ?_⟩
          rintro ⟨b', there, same⟩
          rw [List.singleton_injective same] at there
          exact missing there
        · rintro ⟨⟨b, here, rfl⟩, missing⟩
          exact ⟨b, ⟨here, fun there => missing ⟨b, there, rfl⟩⟩, rfl⟩
  full := by
    intro op first set2 set pos set' pos' same ended
    cases op <;> cases (Prod.mk.inj ended).1

/-- Two keys with sets that share a member. -/
def twoSets (h : KeyHash) : Option (Entry Bytes) :=
  if h = ⟨1, 0⟩ then some ⟨.set, [1, 2], 0⟩
  else if h = ⟨2, 0⟩ then some ⟨.set, [2, 3], 0⟩
  else none

theorem isSetKey_twoSets (h : KeyHash) : IsSetKey quietEnv (twoSets h) := by
  intro e isEntry
  have entry := eq_of_live isEntry
  rw [twoSets] at entry
  by_cases one : h = ⟨1, 0⟩
  · rw [if_pos one] at entry
    rw [← Option.some.inj entry]
    exact Or.inr rfl
  · rw [if_neg one] at entry
    by_cases two : h = ⟨2, 0⟩
    · rw [if_pos two] at entry
      rw [← Option.some.inj entry]
      exact Or.inr rfl
    · rw [if_neg two] at entry
      cases entry

theorem keyResult_twoSets (second : KeyHash) :
    keyResult byteSets quietEnv .sdiff twoSets ⟨1, 0⟩ [second] =
      {m | m ∈ [[1], [2]] ∧ m ∉ keyMembers byteSets quietEnv (twoSets second)} := by
  have first : keyMembers byteSets quietEnv (twoSets ⟨1, 0⟩) = [[1], [2]] := by decide
  rw [keyResult, first]
  ext m
  simp [SetOp.result]

/-- The first set without the second one is stored over the first one. -/
theorem ssetop_exact_two : ∃ bound, ∀ fuel ≥ bound, ∃ plain stored,
    runKeys (doSsetop byteSets quietEnv fuel .sdiff false) .set [] (2 * 2) [1, 0]
      { db := twoSets, keys := keysFrom 1 [⟨1, 0⟩, ⟨2, 0⟩] } = some plain ∧
    runKeys (doSsetop byteSets quietEnv fuel .sdiff true) .set [] (2 * 3) [0, 2, 1]
      { db := twoSets, keys := keysFrom 1 [⟨1, 0⟩, ⟨1, 0⟩, ⟨2, 0⟩] } = some stored ∧
    SsetopMeets byteSets quietEnv .sdiff twoSets ⟨1, 0⟩ ⟨1, 0⟩ [⟨2, 0⟩] plain stored := by
  obtain ⟨bound, runs⟩ := @ssetop_exact _ _ byteSets quietEnv .sdiff twoSets ⟨1, 0⟩ ⟨1, 0⟩
    [⟨2, 0⟩] [] _ _ quietEnv_works rfl byteSets_works (fun h _ => isSetKey_twoSets h) [1, 0]
    [0, 2, 1] (by decide) (by decide)
  refine ⟨bound, fun fuel enough => ?_⟩
  obtain ⟨plain, stored, ran, ran', exact⟩ := runs fuel enough
  refine ⟨plain, stored, ran, ran', exact.mpr ⟨[1], ?_⟩⟩
  rw [keyResult_twoSets]
  exact ⟨by decide, by decide⟩

/-- A set without itself leaves a destination without members. -/
theorem not_ssetop_exact : ¬∃ fuel plain stored, 2 ≤ fuel ∧
    runKeys (doSsetop byteSets quietEnv fuel .sdiff true) .set [] (2 * 3) [0, 1, 2]
      { db := twoSets, keys := keysFrom 1 [⟨3, 0⟩, ⟨1, 0⟩, ⟨1, 0⟩] } = some stored ∧
    SsetopMeets byteSets quietEnv .sdiff twoSets ⟨3, 0⟩ ⟨1, 0⟩ [⟨1, 0⟩] plain stored := by
  rintro ⟨fuel, plain, stored, enough, ran, meets⟩
  have empty : keyResult byteSets quietEnv .sdiff twoSets ⟨1, 0⟩ [⟨1, 0⟩] = ∅ := by
    rw [keyResult_twoSets]
    have first : keyMembers byteSets quietEnv (twoSets ⟨1, 0⟩) = [[1], [2]] := by decide
    apply Set.eq_empty_of_forall_notMem
    rintro m ⟨here, missing⟩
    rw [first] at missing
    exact missing here
  have absent := meets.absent empty
  obtain ⟨fuel, rfl⟩ : ∃ n, fuel = n + 2 := ⟨fuel - 2, by omega⟩
  have stays : (runKeys (doSsetop byteSets quietEnv (fuel + 2) .sdiff true) .set [] (2 * 3) [0, 1, 2]
      { db := twoSets, keys := keysFrom 1 [⟨3, 0⟩, ⟨1, 0⟩, ⟨1, 0⟩] }).map
        (fun s => live quietEnv (s.db ⟨3, 0⟩)) = some (some ⟨.set, [], 0⟩) := by
    rfl
  rw [ran, Option.map_some, absent] at stays
  cases stays

end Samples

end Raids.Key
