import Raids.Construction.Key.HyperLogLog
import Raids.Proof.Key.Add
import Raids.Proof.Key.Saves

namespace Raids.Key

/-- The registers of a counter. -/
abbrev Registers := Nat → Nat

/-- The registerwise maximum of counters; without a counter all registers are zero. -/
def registerMax (registers : Bytes → Registers) (counters : List Bytes) : Registers :=
  fun i => (counters.map fun counter => registers counter i).foldr max 0

/-- A merge is the registerwise maximum, and the estimate depends on the registers only; it is zero
when nothing was counted, and then only. A counter has bytes. -/
structure HyperLogLog.Merges (hll : HyperLogLog) (registers : Bytes → Registers) : Prop where
  bytes : ∀ {a}, hll.isHllmsg a → a ≠ []
  isInit : hll.isHllmsg hll.init
  init : registers hll.init = 0
  isMerge : ∀ {a b}, hll.isHllmsg a → hll.isHllmsg b → hll.isHllmsg (hll.merge a b)
  merge : ∀ {a b}, hll.isHllmsg a → hll.isHllmsg b →
    registers (hll.merge a b) = fun i => max (registers a i) (registers b i)
  estimate : ∀ {a b}, hll.isHllmsg a → hll.isHllmsg b → registers a = registers b →
    hll.estimate a = hll.estimate b
  estimate_eq_zero : ∀ {a}, hll.isHllmsg a → (hll.estimate a = 0 ↔ registers a = 0)

section Registers

variable {hll : HyperLogLog} {registers : Bytes → Registers} {counters more : List Bytes}

theorem registerMax_cons (first : Bytes) :
    registerMax registers (first :: counters) =
      fun i => max (registers first i) (registerMax registers counters i) :=
  rfl

/-- The maximum is the least upper bound of the counters. -/
theorem registerMax_le {r : Registers} :
    registerMax registers counters ≤ r ↔ ∀ counter ∈ counters, registers counter ≤ r := by
  induction counters with
  | nil => simp [registerMax, Pi.le_def]
  | cons first counters ih =>
      rw [List.forall_mem_cons, ← ih, registerMax_cons, Pi.le_def, Pi.le_def, Pi.le_def,
        ← forall_and]
      exact forall_congr' fun i => max_le_iff

theorem le_registerMax {counter : Bytes} (member : counter ∈ counters) :
    registers counter ≤ registerMax registers counters :=
  registerMax_le.mp (le_refl _) counter member

/-- The maximum does not depend on the order of the counters. -/
theorem registerMax_congr (same : ∀ counter, counter ∈ counters ↔ counter ∈ more) :
    registerMax registers counters = registerMax registers more := by
  apply le_antisymm
  · exact registerMax_le.mpr fun counter member => le_registerMax ((same counter).mp member)
  · exact registerMax_le.mpr fun counter member => le_registerMax ((same counter).mpr member)

theorem registerMax_eq_zero :
    registerMax registers counters = 0 ↔ ∀ counter ∈ counters, registers counter = 0 := by
  have least : ∀ r : Registers, r = 0 ↔ r ≤ 0 := by
    intro r
    apply Iff.intro le_of_eq
    intro low
    funext i
    exact Nat.le_zero.mp (low i)
  rw [least, registerMax_le]
  simp only [least]

/-- Counters that are merged into one leave the maximum of all. -/
theorem HyperLogLog.Merges.foldl (merges : hll.Merges registers) {first : Bytes}
    (isFirst : hll.isHllmsg first) (all : ∀ counter ∈ counters, hll.isHllmsg counter) :
    hll.isHllmsg (counters.foldl hll.merge first) ∧
      registers (counters.foldl hll.merge first) = registerMax registers (first :: counters) := by
  induction counters generalizing first with
  | nil =>
      refine ⟨isFirst, ?_⟩
      funext i
      simp [registerMax]
  | cons second counters ih =>
      have isSecond := all second (by simp)
      obtain ⟨isMerged, merged⟩ := ih (merges.isMerge isFirst isSecond)
        (fun counter member => all counter (by simp [member]))
      refine ⟨isMerged, ?_⟩
      rw [List.foldl_cons, merged]
      funext i
      rw [registerMax_cons, registerMax_cons, registerMax_cons, merges.merge isFirst isSecond]
      exact max_assoc _ _ _

/-- The merged values of the sources are the maximum of all. -/
theorem HyperLogLog.Merges.mergedParts (merges : hll.Merges registers)
    (all : ∀ counter ∈ counters, hll.isHllmsg counter) :
    hll.isHllmsg (Key.mergedParts hll counters) ∧
      registers (Key.mergedParts hll counters) = registerMax registers counters := by
  cases counters with
  | nil => exact ⟨merges.isInit, merges.init⟩
  | cons first counters =>
      exact merges.foldl (all first (by simp)) fun counter member => all counter (by simp [member])

end Registers

section Keys

variable {env : KeyEnv} {hll : HyperLogLog}

/-- The counter of a key. -/
def counter (env : KeyEnv) (entry : Option (Entry Bytes)) : Option Bytes :=
  (live env entry).bind fun e => if e.type = .hyperLogLog then some e.data else none

/-- A key is absent or holds a counter. -/
def IsCounter (hll : HyperLogLog) (env : KeyEnv) (entry : Option (Entry Bytes)) : Prop :=
  ∀ e, live env entry = some e → e.type = .noData ∨ e.type = .hyperLogLog ∧ hll.isHllmsg e.data

theorem IsCounter.isHllmsg {entry : Option (Entry Bytes)} (isCounter : IsCounter hll env entry)
    {bytes : Bytes} (found : counter env entry = some bytes) : hll.isHllmsg bytes := by
  obtain ⟨e, isEntry, typed⟩ := Option.bind_eq_some_iff.mp found
  rcases isCounter e isEntry with untyped | ⟨isHll, valid⟩
  · rw [untyped] at typed
    cases typed
  · rw [if_pos isHll] at typed
    rw [← Option.some.inj typed]
    exact valid

/-- A read meets no counter or the bytes of one. -/
theorem getKeyRead_counter (works : env.Works) {entry : Option (Entry Bytes)}
    (isCounter : IsCounter hll env entry) :
    match counter env entry with
    | none => getKeyRead env .hyperLogLog entry = ⟨some .keyNotFound, live env entry, false, .noData⟩
    | some bytes => ∃ e, live env entry = some e ∧ e.data = bytes ∧ hll.isHllmsg bytes ∧
        getKeyRead env .hyperLogLog entry = ⟨some .keyOk, some e, false, .hyperLogLog⟩ := by
  rw [getKeyRead_works works, counter]
  cases found : live env entry with
  | none => rfl
  | some e =>
      rcases isCounter e found with untyped | ⟨isHll, valid⟩
      · simp [untyped]
      · simp only [Option.bind_some, if_pos isHll]
        refine ⟨e, rfl, rfl, valid, ?_⟩
        rw [isHll]

end Keys

section Count

variable {env : KeyEnv} {hll : HyperLogLog} {registers : Bytes → Registers}
  {db : KeyHash → Option (Entry Bytes)} {hashes : List KeyHash} {arg0 : Bytes}

/-- The counters of the keys that are there. -/
def counters (env : KeyEnv) (db : KeyHash → Option (Entry Bytes)) (hashes : List KeyHash) :
    List Bytes :=
  hashes.filterMap fun h => counter env (db h)

theorem counter_of_live {first second : Option (Entry Bytes)}
    (same : live env first = live env second) : counter env first = counter env second := by
  rw [counter, counter, same]

theorem IsCounter.of_live {first second : Option (Entry Bytes)}
    (same : live env first = live env second) (isCounter : IsCounter hll env second) :
    IsCounter hll env first := by
  rw [IsCounter, same]
  exact isCounter

theorem isHllmsg_of_mem_counters (isCounter : ∀ h ∈ hashes, IsCounter hll env (db h)) :
    ∀ bytes ∈ counters env db hashes, hll.isHllmsg bytes := by
  intro bytes member
  obtain ⟨h, isKey, found⟩ := List.mem_filterMap.mp member
  exact (isCounter h isKey).isHllmsg found

/-- The counter of a key is saved while other keys are left. -/
theorem execPfcount_saves (works : env.Works)
    (isCounter : ∀ h ∈ hashes, IsCounter hll env (db h)) (i : Nat) :
    Saves env db (placesFrom 1 hashes) (fun h => counter env (db h)) (execPfcount hll env)
      .hyperLogLog i := by
  intro s ctx left place same
  have here := (isCounter ctx.hash (mem_of_place place)).of_live same
  have read := getKeyRead_counter works here
  dsimp only
  rw [← counter_of_live same]
  cases found : counter env (s.db ctx.hash) with
  | none =>
      rw [found] at read
      simp only [execPfcount, read]
      exact ⟨_, rfl, quiet_read (by rw [live_live, same]),
        show ExecStatus.execSendZero ≠ .execDepends by decide,
        show ExecStatus.execSendZero.ctorIdx ≤ ExecStatus.execBlocked.ctorIdx by decide⟩
  | some bytes =>
      rw [found] at read
      obtain ⟨e, isEntry, rfl, valid, fetched⟩ := read
      simp only [execPfcount, fetched, works.valued, works.validated, valid, if_true,
        if_neg (show s.keys.length ≠ 1 by omega),
        if_neg (show s.keys.length ≠ s.keyDone + 1 by omega), Bool.true_eq_false, if_false]
      refine ⟨_, rfl, quiet_read ?_, show ExecStatus.execOk ≠ .execDepends by decide,
        show ExecStatus.execOk.ctorIdx ≤ ExecStatus.execBlocked.ctorIdx by decide⟩
      rw [← same, ← isEntry, live_live]

/-- The last key replies the estimate of all counters, or zero when it is missing. -/
theorem execPfcount_last (works : env.Works) {s : CommandRun Bytes} {ctx : KeyCtx}
    (isCounter : IsCounter hll env (s.db ctx.hash)) (last : s.keys.length = s.keyDone + 1)
    (alone : s.keys.length = 1 → s.keys.filterMap KeyCtx.part = []) :
    ∃ run, execPfcount hll env s ctx (s.db ctx.hash) = (run, none) ∧ run.out = [] ∧
      run.entry = live env (s.db ctx.hash) ∧ run.isReadOnly ∧
      match counter env (s.db ctx.hash) with
      | none => run.status = .execSendZero
      | some bytes => run.status = .execSendInt ∧
          run.ival = hll.estimate ((s.keys.filterMap KeyCtx.part).foldl hll.merge bytes) := by
  have read := getKeyRead_counter works isCounter
  cases found : counter env (s.db ctx.hash) with
  | none =>
      rw [found] at read
      simp only [execPfcount, read]
      exact ⟨_, rfl, rfl, rfl, rfl, rfl⟩
  | some bytes =>
      rw [found] at read
      obtain ⟨e, isEntry, rfl, valid, fetched⟩ := read
      simp only [execPfcount, fetched, works.valued, works.validated, valid, if_true, isEntry,
        Bool.true_eq_false, if_false]
      by_cases one : s.keys.length = 1
      · rw [if_pos one, alone one]
        exact ⟨_, rfl, rfl, rfl, rfl, rfl, rfl⟩
      · rw [if_neg one, if_pos last]
        exact ⟨_, rfl, rfl, rfl, rfl, rfl, rfl⟩

/-- What a count replies: the estimate of the maximum of the counters. -/
def CountMeets (hll : HyperLogLog) (registers : Bytes → Registers) (all : List Bytes)
    (s : CommandRun Bytes) : Prop :=
  ∃ b, hll.isHllmsg b ∧ registers b = registerMax registers all ∧ s.out = sendInt (hll.estimate b)

/-- The key that has the last turn of an order is there. -/
def LastIsThere (env : KeyEnv) (db : KeyHash → Option (Entry Bytes)) (hashes : List KeyHash)
    (order : List Nat) : Prop :=
  ∀ i ∈ order.getLast?, ∀ h ∈ hashes[i]?, (counter env (db h)).isSome

/-- The count is right under the condition only: the last key is there, or nothing was counted. -/
theorem execPfcount_iff (works : env.Works) (merges : hll.Merges registers)
    (isCounter : ∀ h ∈ hashes, IsCounter hll env (db h)) (some : hashes ≠ []) {order : List Nat}
    (all : order.Perm (List.range hashes.length)) :
    ∃ s, runKeys (execPfcount hll env) .hyperLogLog arg0 (2 * hashes.length) order
        { db := db, keys := keysFrom 1 hashes } = Option.some s ∧
      (∀ h, live env (s.db h) = live env (db h)) ∧
      (CountMeets hll registers (counters env db hashes) s ↔
        LastIsThere env db hashes order ∨
          ∀ bytes ∈ counters env db hashes, registers bytes = 0) := by
  have length := length_placesFrom 1 hashes
  have turns : order.Perm (List.range (placesFrom 1 hashes).length) := by
    rw [length]
    exact all
  have start : Progress env db (placesFrom 1 hashes) (fun h => counter env (db h)) []
      { db := db, keys := keysFrom 1 hashes } := Progress.start keysFrom_fresh
  obtain ⟨before, last, fuel, s, isOrder, progress, inside, total, ran⟩ :=
    @Progress.runKeys_allButLast _ _ _ _ _ (execPfcount hll env) .hyperLogLog arg0 _ _ start
      (fun i _ => execPfcount_saves works isCounter i) turns
      (by
        intro nil
        rw [nil] at length
        exact some (List.eq_nil_of_length_eq_zero length.symm))
  obtain ⟨ctx, found, place⟩ := progress.found inside
  have isKey := (getElem?_placesFrom.mp place).2
  have same := progress.same ctx.hash
  have here := (isCounter ctx.hash (mem_of_place place)).of_live same
  have none : s.keys.length = 1 → s.keys.filterMap KeyCtx.part = [] := by
    intro one
    apply List.eq_nil_iff_forall_not_mem.mpr
    intro bytes member
    obtain ⟨i, isDone, -⟩ := (progress.mem_parts bytes).mp member
    rw [progress.length, ← total] at one
    rw [List.eq_nil_of_length_eq_zero (by omega : before.length = 0)] at isDone
    cases isDone
  obtain ⟨run, handled, noOut, entry, readOnly, result⟩ := execPfcount_last works here
    (by rw [progress.length, progress.keyDone, total]) none
  rw [counter_of_live same] at result
  have notDepends : run.status ≠ .execDepends := by
    intro depends
    rw [depends] at result
    cases found : counter env (db ctx.hash) with
    | none => simp [found] at result
    | some bytes => simp [found] at result
  obtain ⟨s', ended, table, out⟩ := @Progress.last _ _ _ _ _ _ .hyperLogLog arg0 _ _ _ progress _
    found total _ _ handled notDepends fuel []
  rw [length] at ran
  refine ⟨s', ran.trans ended, ?_, ?_⟩
  · intro h
    have settled : run.settle .hyperLogLog = run.entry := by
      rw [KeyRun.settle, if_neg]
      exact fun settles => settles.1 readOnly
    rw [table, settled, entry, live_update (live_live env _), progress.same]
  · have lastIs : LastIsThere env db hashes order ↔ (counter env (db ctx.hash)).isSome := by
      rw [LastIsThere, isOrder]
      simp [isKey]
    rw [lastIs, CountMeets, out, noOut, List.nil_append]
    cases there : counter env (db ctx.hash) with
    | none =>
        rw [there] at result
        obtain ⟨isMerged, merged⟩ := merges.mergedParts (isHllmsg_of_mem_counters isCounter)
        rw [result, ← registerMax_eq_zero]
        simp only [Option.isSome_none, Bool.false_eq_true, false_or]
        apply Iff.intro
        · rintro ⟨b, valid, max, zero⟩
          have estimate : (hll.estimate b : Int) = 0 :=
            (sendInt_injective (sendInt_zero.symm.trans zero)).symm
          rw [← max]
          exact (merges.estimate_eq_zero valid).mp (by exact_mod_cast estimate)
        · intro zero
          refine ⟨_, isMerged, merged, ?_⟩
          rw [(merges.estimate_eq_zero isMerged).mpr (merged.trans zero)]
          exact sendInt_zero
    | some bytes =>
        rw [there] at result
        apply iff_of_true
        · have parts : ∀ part ∈ s.keys.filterMap KeyCtx.part, hll.isHllmsg part := by
            intro part member
            obtain ⟨i, -, h, isHash, isPart⟩ := (progress.mem_parts part).mp member
            exact (isCounter h (List.mem_of_getElem? isHash)).isHllmsg isPart
          obtain ⟨isMerged, merged⟩ := merges.foldl
            ((isCounter ctx.hash (mem_of_place place)).isHllmsg there) parts
          refine ⟨_, isMerged, merged.trans (registerMax_congr fun part => ?_), ?_⟩
          · rw [List.mem_cons, progress.mem_parts, counters, List.mem_filterMap]
            apply Iff.intro
            · rintro (rfl | ⟨i, -, h, isHash, isPart⟩)
              · exact ⟨ctx.hash, mem_of_place place, there⟩
              · exact ⟨h, List.mem_of_getElem? isHash, isPart⟩
            · rintro ⟨h, member, isPart⟩
              obtain ⟨i, small, isHash⟩ := List.getElem_of_mem member
              have turn : i ∈ order :=
                all.mem_iff.mpr (List.mem_range.mpr small)
              have isHash' : hashes[i]? = Option.some h := by
                rw [List.getElem?_eq_getElem small, isHash]
              rw [isOrder, List.mem_append, List.mem_singleton] at turn
              rcases turn with early | rfl
              · exact Or.inr ⟨i, early, h, isHash', isPart⟩
              · rw [isKey] at isHash'
                rw [← Option.some.inj isHash', there] at isPart
                exact Or.inl (Option.some.inj isPart).symm
          · rw [result.1, result.2]
            rfl
        · exact Or.inl rfl

end Count

section Merge

variable {env : KeyEnv} {hll : HyperLogLog} {registers : Bytes → Registers}
  {db : KeyHash → Option (Entry Bytes)} {dest : KeyHash} {hashes : List KeyHash} {arg0 : Bytes}

/-- The counter of a source is saved. -/
theorem execPfmerge_saves (works : env.Works) (merges : hll.Merges registers)
    (isCounter : ∀ h ∈ hashes, IsCounter hll env (db h)) (i : Nat) (source : i ≠ 0) :
    Saves env db (placesFrom 1 (dest :: hashes)) (fun h => counter env (db h))
      (execPfmerge hll env) .hyperLogLog i := by
  intro s ctx left place same
  obtain ⟨argn, isKey⟩ := getElem?_placesFrom.mp place
  rw [List.getElem?_cons, if_neg source] at isKey
  have here := (isCounter ctx.hash (List.mem_of_getElem? isKey)).of_live same
  have read := getKeyRead_counter works here
  dsimp only at argn ⊢
  rw [← counter_of_live same, execPfmerge, if_neg (by omega)]
  cases found : counter env (s.db ctx.hash) with
  | none =>
      rw [found] at read
      simp only [pfmergeSource, read]
      exact ⟨_, rfl, quiet_read (by rw [live_live, same]),
        show ExecStatus.execOk ≠ .execDepends by decide,
        show ExecStatus.execOk.ctorIdx ≤ ExecStatus.execBlocked.ctorIdx by decide⟩
  | some bytes =>
      rw [found] at read
      obtain ⟨e, isEntry, rfl, valid, fetched⟩ := read
      have some : e.data.length ≠ 0 := by
        intro empty
        exact merges.bytes valid (List.eq_nil_of_length_eq_zero empty)
      simp only [pfmergeSource, fetched, works.valued, works.validated, valid, if_true, if_neg some,
        Bool.true_eq_false, if_false]
      refine ⟨_, rfl, quiet_read ?_, show ExecStatus.execOk ≠ .execDepends by decide,
        show ExecStatus.execOk.ctorIdx ≤ ExecStatus.execBlocked.ctorIdx by decide⟩
      rw [← same, ← isEntry, live_live]

/-- The destination waits for the sources. -/
theorem execPfmerge_waits :
    Waits env db (placesFrom 1 (dest :: hashes)) (execPfmerge hll env) .hyperLogLog 0 := by
  intro s ctx left place same
  obtain ⟨argn, -⟩ := getElem?_placesFrom.mp place
  rw [execPfmerge, if_pos argn, if_pos (by omega)]
  refine ⟨_, rfl, ⟨rfl, rfl, ?_⟩, rfl, rfl⟩
  rw [KeyRun.settle, if_neg (fun settles => settles.1 rfl)]
  exact same

/-- The destination is overwritten by the merged counters of the sources. -/
theorem pfmergeDest_spec (works : env.Works) (forever : env.isExpired 0 = false)
    (parts : List Bytes) {entry : Option (Entry Bytes)} (isCounter : IsCounter hll env entry) :
    (pfmergeDest hll env parts entry).status = .execSendOk ∧
      (pfmergeDest hll env parts entry).out = [] ∧
      ∃ e, live env ((pfmergeDest hll env parts entry).settle .hyperLogLog) = some e ∧
        e.type = .hyperLogLog ∧ e.data = mergedParts hll parts := by
  rw [pfmergeDest, getKeyWrite_works works]
  cases found : live env entry with
  | none =>
      simp only [works.resized, if_true]
      have unexpired : (!env.isExpired 0) = true := by
        rw [forever]
        rfl
      exact ⟨rfl, rfl, ⟨.hyperLogLog, mergedParts hll parts, 0⟩,
        Option.filter_some_pos unexpired, rfl, rfl⟩
  | some e =>
      have unexpired : (!env.isExpired e.exp) = true := by
        rw [live, Option.filter_eq_some_iff] at found
        exact found.2
      rcases isCounter e found with untyped | ⟨isHll, -⟩
      · simp only [untyped, works.resized, if_true, reduceCtorEq, if_false]
        exact ⟨rfl, rfl, ⟨.hyperLogLog, mergedParts hll parts, e.exp⟩,
          Option.filter_some_pos unexpired, rfl, rfl⟩
      · simp only [isHll, works.resized, if_true]
        exact ⟨rfl, rfl, { e with data := mergedParts hll parts },
          Option.filter_some_pos unexpired, isHll, rfl⟩

/-- The destination has the merged counters of the sources, and the other keys stay. -/
theorem execPfmerge_run (works : env.Works) (forever : env.isExpired 0 = false)
    (merges : hll.Merges registers) (isCounter : ∀ h ∈ dest :: hashes, IsCounter hll env (db h))
    {order : List Nat} (all : order.Perm (List.range (hashes.length + 1))) :
    ∃ s, runKeys (execPfmerge hll env) .hyperLogLog arg0 (2 * (hashes.length + 1)) order
        { db := db, keys := keysFrom 1 (dest :: hashes) } = some s ∧
      s.out = line "+OK" ∧ (∀ h ≠ dest, live env (s.db h) = live env (db h)) ∧
      ∃ e, live env (s.db dest) = some e ∧ e.type = .hyperLogLog ∧
        e.data = mergedParts hll (counters env db hashes) := by
  have length := length_placesFrom 1 (dest :: hashes)
  rw [List.length_cons] at length
  have turns : order.Perm (List.range (placesFrom 1 (dest :: hashes)).length) := by
    rw [length]
    exact all
  have start : Progress env db (placesFrom 1 (dest :: hashes)) (fun h => counter env (db h)) []
      { db := db, keys := keysFrom 1 (dest :: hashes) } := Progress.start keysFrom_fresh
  obtain ⟨done, fuel, s, members, progress, total, ran⟩ :=
    @Progress.runKeys_dest _ _ _ _ _ (execPfmerge hll env) .hyperLogLog arg0 _ _ 0 start
      execPfmerge_waits
      (fun i _ source => execPfmerge_saves works merges
        (fun h member => isCounter h (List.mem_cons_of_mem _ member)) i source)
      turns (by omega)
  obtain ⟨ctx, found, place⟩ := progress.found (show 0 < _ by omega)
  obtain ⟨argn, isKey⟩ := getElem?_placesFrom.mp place
  obtain rfl : dest = ctx.hash := Option.some.inj isKey
  have same := progress.same ctx.hash
  have here := (isCounter ctx.hash (by simp)).of_live same
  have parts : s.keys.tail.filterMap KeyCtx.part = counters env db hashes := by
    have saved := congrArg (List.filterMap id) (progress.parts_dest members)
    rw [List.filterMap_map, List.filterMap_map] at saved
    exact saved
  obtain ⟨ok, noOut, e, isEntry, isHll, data⟩ :=
    pfmergeDest_spec works forever (s.keys.tail.filterMap KeyCtx.part) here
  obtain ⟨s', ended, table, out⟩ := @Progress.last _ _ _ _ _ (execPfmerge hll env) .hyperLogLog arg0
    _ _ _ progress _ found total _ none
    (by
      rw [execPfmerge, if_pos argn, if_neg]
      rw [progress.length, progress.keyDone, total]
      exact fun different => different rfl)
    (by rw [ok]; decide) fuel []
  rw [length] at ran
  refine ⟨s', ran.trans ended, ?_, ?_, e, ?_, isHll, ?_⟩
  · rw [out, noOut, ok]
    rfl
  · intro h other
    rw [table, Function.update_of_ne other, progress.same]
  · rw [table, Function.update_self, isEntry]
  · rw [data, parts]

/-- A count of the keys, a merge of the same keys, and a count of its destination agree: the merge
has the maximum of its sources and of the counter that was there before, and the sources stay. -/
structure CountsAgree (env : KeyEnv) (hll : HyperLogLog) (registers : Bytes → Registers)
    (db : KeyHash → Option (Entry Bytes)) (dest : KeyHash) (hashes : List KeyHash)
    (count merge recount : CommandRun Bytes) : Prop where
  counts : CountMeets hll registers (counters env db hashes) count
  empty : counters env db hashes = [] → count.out = sendInt 0
  recounts : counter env (db dest) = none → recount.out = count.out
  merges : ∃ e, live env (merge.db dest) = some e ∧ e.type = .hyperLogLog ∧ hll.isHllmsg e.data ∧
    registers e.data = registerMax registers ((counter env (db dest)).toList ++
      counters env db hashes)
  counted : ∀ h, live env (count.db h) = live env (db h)
  sources : ∀ h ≠ dest, live env (merge.db h) = live env (db h)

/-- A merge that drops the old counter has its maximum only where the sources have it. -/
theorem registerMax_old {all : List Bytes} {old : Option Bytes} :
    registerMax registers all = registerMax registers (old.toList ++ all) ↔
      ∀ bytes ∈ old, registers bytes ≤ registerMax registers all := by
  cases old with
  | none => simp
  | some bytes =>
      rw [Option.toList_some, List.singleton_append]
      apply Iff.intro
      · intro same bytes' isOld
        obtain rfl := Option.some.inj isOld
        rw [same]
        exact le_registerMax (by simp)
      · intro low
        rw [registerMax_cons]
        funext i
        exact (max_eq_right (low bytes rfl i)).symm

/-- The commands agree under the condition only: the key with the last turn of the count is there or
nothing was counted, and the counter in the destination is below the maximum of the sources. -/
theorem pfmerge_exact (works : env.Works) (forever : env.isExpired 0 = false)
    (merges : hll.Merges registers) (isCounter : ∀ h ∈ dest :: hashes, IsCounter hll env (db h))
    (some : hashes ≠ []) {order order' : List Nat}
    (all : order.Perm (List.range hashes.length))
    (all' : order'.Perm (List.range (hashes.length + 1))) :
    ∃ count merge recount,
      runKeys (execPfcount hll env) .hyperLogLog arg0 (2 * hashes.length) order
        { db := db, keys := keysFrom 1 hashes } = Option.some count ∧
      runKeys (execPfmerge hll env) .hyperLogLog arg0 (2 * (hashes.length + 1)) order'
        { db := db, keys := keysFrom 1 (dest :: hashes) } = Option.some merge ∧
      execRunToCompletion (execPfcount hll env) .hyperLogLog arg0
        { db := merge.db, keys := keysFrom 1 [dest] } = Option.some recount ∧
      (CountsAgree env hll registers db dest hashes count merge recount ↔
        (LastIsThere env db hashes order ∨
          ∀ bytes ∈ counters env db hashes, registers bytes = 0) ∧
        ∀ old ∈ counter env (db dest),
          registers old ≤ registerMax registers (counters env db hashes)) := by
  have sources : ∀ h ∈ hashes, IsCounter hll env (db h) :=
    fun h member => isCounter h (List.mem_cons_of_mem _ member)
  obtain ⟨count, counted, sameCount, exact⟩ :=
    @execPfcount_iff _ _ _ _ _ arg0 works merges sources some _ all
  obtain ⟨merge, merged, -, sameMerge, e, isEntry, isHll, data⟩ :=
    @execPfmerge_run _ _ _ _ _ _ arg0 works forever merges isCounter _ all'
  obtain ⟨valid, max⟩ := merges.mergedParts (isHllmsg_of_mem_counters sources)
  have isCounter' : ∀ h ∈ [dest], IsCounter hll env (merge.db h) := by
    intro h member e' isEntry'
    rw [List.mem_singleton.mp member, isEntry] at isEntry'
    rw [← Option.some.inj isEntry', data]
    exact Or.inr ⟨isHll, valid⟩
  have there : counter env (merge.db dest) = Option.some e.data := by
    rw [counter, isEntry, Option.bind_some, if_pos isHll]
  obtain ⟨recount, recounted, -, exact'⟩ :=
    @execPfcount_iff _ _ _ _ _ arg0 works merges isCounter' (by simp) [0] (by rfl)
  obtain ⟨b, isB, sameB, outB⟩ := exact'.mpr (Or.inl (by simp [LastIsThere, there]))
  have one : registers b = registerMax registers (counters env db hashes) := by
    rw [sameB, ← max, ← data]
    funext i
    simp [counters, there, registerMax]
  refine ⟨count, merge, recount, counted, merged, recounted, ?_⟩
  rw [← exact, ← registerMax_old, ← max, ← data]
  apply Iff.intro
  · intro agree
    obtain ⟨e', isEntry', -, -, same⟩ := agree.merges
    rw [isEntry] at isEntry'
    rw [Option.some.inj isEntry']
    exact ⟨agree.counts, same⟩
  · rintro ⟨meets, same⟩
    obtain ⟨a, isA, sameA, outA⟩ := meets
    refine ⟨⟨a, isA, sameA, outA⟩, ?_, ?_, ?_, sameCount, sameMerge⟩
    · intro nil
      rw [outA, (merges.estimate_eq_zero isA).mpr]
      · rfl
      · rw [sameA, nil]
        rfl
    · intro _
      rw [outA, outB, merges.estimate isA isB (sameA.trans one.symm)]
    · exact ⟨e, isEntry, isHll, data ▸ valid, same⟩

end Merge

section Samples

def largerByte (x y : UInt8) : UInt8 := if x ≤ y then y else x

/-- Counters of two registers, whose estimate is the number of registers in use. -/
def twoRegisters : HyperLogLog where
  isHllmsg := fun bytes => bytes.length = 2
  init := [0, 0]
  merge := List.zipWith largerByte
  estimate := fun bytes => (bytes.filter (· ≠ 0)).length

def byteRegisters (bytes : Bytes) : Registers := fun i => (bytes.getD i 0).toNat

theorem toNat_largerByte (x y : UInt8) : (largerByte x y).toNat = max x.toNat y.toNat := by
  rw [largerByte]
  by_cases low : x ≤ y
  · rw [if_pos low, max_eq_right (UInt8.le_iff_toNat_le.mp low)]
  · rw [if_neg low, max_eq_left]
    rw [UInt8.le_iff_toNat_le] at low
    omega

theorem byteRegisters_zero : byteRegisters [0, 0] = 0 := by
  funext i
  match i with
  | 0 | 1 | i + 2 => rfl

theorem twoRegisters_merges : twoRegisters.Merges byteRegisters where
  bytes := by
    intro a isA
    rintro rfl
    simp [twoRegisters] at isA
  isInit := by decide
  init := byteRegisters_zero
  isMerge := by
    intro a b isA isB
    simp only [twoRegisters, decide_eq_true_eq] at isA isB ⊢
    rw [List.length_zipWith, isA, isB]
    rfl
  merge := by
    intro a b isA isB
    simp only [twoRegisters, decide_eq_true_eq] at isA isB
    obtain ⟨x, y, rfl⟩ := List.length_eq_two.mp isA
    obtain ⟨x', y', rfl⟩ := List.length_eq_two.mp isB
    funext i
    match i with
    | 0 => exact toNat_largerByte x x'
    | 1 => exact toNat_largerByte y y'
    | i + 2 => rfl
  estimate := by
    intro a b isA isB same
    simp only [twoRegisters, decide_eq_true_eq] at isA isB
    obtain ⟨x, y, rfl⟩ := List.length_eq_two.mp isA
    obtain ⟨x', y', rfl⟩ := List.length_eq_two.mp isB
    have first : x = x' := UInt8.toNat_inj.mp (congrFun same 0)
    have second : y = y' := UInt8.toNat_inj.mp (congrFun same 1)
    rw [first, second]
  estimate_eq_zero := by
    intro a isA
    simp only [twoRegisters, decide_eq_true_eq] at isA
    obtain ⟨x, y, rfl⟩ := List.length_eq_two.mp isA
    rw [twoRegisters, List.length_eq_zero_iff, List.filter_eq_nil_iff]
    apply Iff.intro
    · intro unused
      have first : x = 0 := by simpa using unused x (by simp)
      have second : y = 0 := by simpa using unused y (by simp)
      rw [first, second]
      exact byteRegisters_zero
    · intro zero
      have first : x = 0 := UInt8.toNat_inj.mp (congrFun zero 0)
      have second : y = 0 := UInt8.toNat_inj.mp (congrFun zero 1)
      simp [first, second]

/-- One key with two registers in use, and one key that is missing. -/
def oneCounter (h : KeyHash) : Option (Entry Bytes) :=
  if h = ⟨1, 0⟩ then some ⟨.hyperLogLog, [3, 1], 0⟩ else none

theorem isCounter_oneCounter (h : KeyHash) : IsCounter twoRegisters quietEnv (oneCounter h) := by
  intro e isEntry
  have entry := eq_of_live isEntry
  by_cases here : h = ⟨1, 0⟩
  · rw [oneCounter, if_pos here] at entry
    obtain rfl := Option.some.inj entry
    exact Or.inr ⟨rfl, rfl⟩
  · rw [oneCounter, if_neg here] at entry
    cases entry

/-- The missing key has its turn first. -/
theorem pfmerge_exact_two :
    ∃ count merge recount,
      runKeys (execPfcount twoRegisters quietEnv) .hyperLogLog [] (2 * 2) [0, 1]
        { db := oneCounter, keys := keysFrom 1 [⟨2, 0⟩, ⟨1, 0⟩] } = some count ∧
      runKeys (execPfmerge twoRegisters quietEnv) .hyperLogLog [] (2 * (2 + 1)) [0, 1, 2]
        { db := oneCounter, keys := keysFrom 1 [⟨3, 0⟩, ⟨2, 0⟩, ⟨1, 0⟩] } = some merge ∧
      execRunToCompletion (execPfcount twoRegisters quietEnv) .hyperLogLog []
        { db := merge.db, keys := keysFrom 1 [⟨3, 0⟩] } = some recount ∧
      CountsAgree quietEnv twoRegisters byteRegisters oneCounter ⟨3, 0⟩ [⟨2, 0⟩, ⟨1, 0⟩] count merge
        recount := by
  obtain ⟨count, merge, recount, counted, merged, recounted, exact⟩ :=
    @pfmerge_exact quietEnv twoRegisters byteRegisters oneCounter ⟨3, 0⟩ [⟨2, 0⟩, ⟨1, 0⟩] []
      quietEnv_works rfl twoRegisters_merges (fun h _ => isCounter_oneCounter h) (by simp) [0, 1]
      [0, 1, 2] (by rfl) (by rfl)
  refine ⟨count, merge, recount, counted, merged, recounted, exact.mpr ⟨Or.inl ?_, ?_⟩⟩
  · intro i last h isKey
    obtain rfl : 1 = i := Option.some.inj last
    obtain rfl : ⟨1, 0⟩ = h := Option.some.inj isKey
    decide
  · intro old isOld
    cases isOld

/-- The missing key has its turn last, and the count is zero. -/
theorem not_pfmerge_exact :
    ¬∃ count, runKeys (execPfcount twoRegisters quietEnv) .hyperLogLog [] (2 * 2) [0, 1]
        { db := oneCounter, keys := keysFrom 1 [⟨1, 0⟩, ⟨2, 0⟩] } = some count ∧
      CountMeets twoRegisters byteRegisters (counters quietEnv oneCounter [⟨1, 0⟩, ⟨2, 0⟩]) count := by
  rintro ⟨count, counted, b, isB, same, out⟩
  have run : (runKeys (execPfcount twoRegisters quietEnv) .hyperLogLog [] (2 * 2) [0, 1]
      { db := oneCounter, keys := keysFrom 1 [⟨1, 0⟩, ⟨2, 0⟩] }).map CommandRun.out =
        some (sendInt 0) := by
    decide
  rw [counted, Option.map_some, out] at run
  have zero : (twoRegisters.estimate b : Int) = 0 := sendInt_injective (Option.some.inj run)
  have none := (twoRegisters_merges.estimate_eq_zero isB).mp (by exact_mod_cast zero)
  rw [same] at none
  exact absurd (congrFun none 0) (by decide)

end Samples

end Raids.Key
