import Raids.Construction.Key.Bits
import Raids.Proof.Key.Continue

namespace Raids.Key

section Progress

variable {D : Type} (env : KeyEnv) (db : KeyHash → Option (Entry D))
  (places : List (Nat × KeyHash)) (part : KeyHash → Option Bytes)

/-- The keys of a list of places are done, each has saved the value of its entry, and nothing else
has happened. -/
structure Progress (done : List Nat) (s : CommandRun D) : Prop where
  same : ∀ h, live env (s.db h) = live env (db h)
  out : s.out = []
  keyDone : s.keyDone = done.length
  keys : s.keys.map (fun ctx => (ctx.argn, ctx.hash)) = places
  parts : s.keys.map KeyCtx.part =
    places.mapIdx fun i place => if i ∈ done then part place.2 else none
  zero : ∀ ctx ∈ s.keys, ctx.ival = 0

variable (handler : Handler D) (catg : MdType)

/-- What a turn leaves that has no output and keeps its entry. -/
structure Quiet (run : KeyRun D) (h : KeyHash) : Prop where
  out : run.out = []
  ival : run.ival = 0
  same : live env (run.settle catg) = live env (db h)

/-- A key saves the value of its entry while other keys are left. -/
def Saves (i : Nat) : Prop :=
  ∀ (s : CommandRun D) (ctx : KeyCtx), s.keyDone + 1 < s.keys.length →
    places[i]? = some (ctx.argn, ctx.hash) → live env (s.db ctx.hash) = live env (db ctx.hash) →
    ∃ run, handler s ctx (s.db ctx.hash) = (run, part ctx.hash) ∧ Quiet env db catg run ctx.hash ∧
      run.status ≠ .execDepends ∧ run.status.ctorIdx ≤ ExecStatus.execBlocked.ctorIdx

/-- A key waits while other keys are left. -/
def Waits (i : Nat) : Prop :=
  ∀ (s : CommandRun D) (ctx : KeyCtx), s.keyDone + 1 < s.keys.length →
    places[i]? = some (ctx.argn, ctx.hash) → live env (s.db ctx.hash) = live env (db ctx.hash) →
    ∃ run, handler s ctx (s.db ctx.hash) = (run, none) ∧ Quiet env db catg run ctx.hash ∧
      run.isReadOnly ∧ run.status = .execDepends

end Progress

section Run

variable {D : Type} {env : KeyEnv} {db : KeyHash → Option (Entry D)}
  {places : List (Nat × KeyHash)} {part : KeyHash → Option Bytes} {handler : Handler D}
  {catg : MdType} {arg0 : Bytes} {done : List Nat} {s : CommandRun D} {i : Nat}

/-- A read-only turn without output is quiet. -/
theorem quiet_read {h : KeyHash} {found : Fetched D} {status : ExecStatus}
    (entry : live env found.entry = live env (db h)) :
    Quiet env db catg (found.read status) h where
  out := rfl
  ival := rfl
  same := by
    rw [KeyRun.settle, if_neg]
    · exact entry
    · exact fun settles => settles.1 rfl

/-- A command starts with no key done. -/
theorem Progress.start {keys : List KeyCtx} (fresh : ∀ ctx ∈ keys, ctx.part = none ∧ ctx.ival = 0) :
    Progress env db (keys.map fun ctx => (ctx.argn, ctx.hash)) part []
      { db := db, keys := keys } where
  same := fun _ => rfl
  out := rfl
  keyDone := rfl
  keys := rfl
  parts := by
    apply List.ext_getElem
    · simp
    · intro n here there
      rw [List.length_map] at here
      simp [(fresh keys[n] (List.getElem_mem here)).1]
  zero := fun ctx member => (fresh ctx member).2

theorem Progress.length (progress : Progress env db places part done s) :
    s.keys.length = places.length := by
  rw [← progress.keys, List.length_map]

theorem Progress.found (progress : Progress env db places part done s) (inside : i < places.length) :
    ∃ ctx, s.keys[i]? = some ctx ∧ places[i]? = some (ctx.argn, ctx.hash) := by
  rw [← progress.length] at inside
  refine ⟨s.keys[i], List.getElem?_eq_getElem inside, ?_⟩
  rw [← progress.keys, List.getElem?_map, List.getElem?_eq_getElem inside]
  rfl

/-- A turn that keeps a property of its context keeps it of all. -/
theorem map_set_same {α : Type} {f : KeyCtx → α} {ctx ctx' : KeyCtx}
    (found : s.keys[i]? = some ctx) (same : f ctx' = f ctx) :
    (s.keys.set i ctx').map f = s.keys.map f := by
  obtain ⟨inside, rfl⟩ := List.getElem?_eq_some_iff.mp found
  rw [List.map_set, same, ← List.getElem_map f (h := by simpa using inside), List.set_getElem_self]

/-- A quiet turn keeps the live entries. -/
theorem Progress.same_update (progress : Progress env db places part done s) {run : KeyRun D}
    {h : KeyHash} (quiet : Quiet env db catg run h) (h' : KeyHash) :
    live env (Function.update s.db h (run.settle catg) h') = live env (db h') := by
  rw [live_update (by rw [quiet.same, progress.same]), progress.same]

/-- The numbers stay zero when a quiet turn is over. -/
theorem Progress.zero_set (progress : Progress env db places part done s) {ctx' : KeyCtx}
    (zero : ctx'.ival = 0) : ∀ ctx ∈ s.keys.set i ctx', ctx.ival = 0 := by
  intro ctx member
  rcases List.mem_or_eq_of_mem_set member with old | rfl
  · exact progress.zero ctx old
  · exact zero

/-- The parts behind the turn of one more key. -/
theorem Progress.parts_set (progress : Progress env db places part done s) {ctx ctx' : KeyCtx}
    (found : s.keys[i]? = some ctx) (saved : ctx'.part = part ctx.hash) :
    (s.keys.set i ctx').map KeyCtx.part =
      places.mapIdx fun j place => if j ∈ done ++ [i] then part place.2 else none := by
  have hashes : ∀ j : Nat, places[j]?.map Prod.snd = s.keys[j]?.map KeyCtx.hash := by
    intro j
    rw [← progress.keys, List.getElem?_map, Option.map_map]
    rfl
  apply List.ext_getElem?
  intro j
  rw [List.map_set, List.getElem?_set, progress.parts, List.length_mapIdx]
  by_cases here : i = j
  · obtain ⟨inside, isCtx⟩ := List.getElem?_eq_some_iff.mp found
    rw [progress.length] at inside
    have place := hashes i
    rw [found, List.getElem?_eq_getElem inside] at place
    rw [if_pos here, if_pos inside, ← here, List.getElem?_mapIdx, List.getElem?_eq_getElem inside]
    simp only [Option.map_some, Option.some.injEq] at place
    simp [saved, place]
  · rw [if_neg here, List.getElem?_mapIdx, List.getElem?_mapIdx]
    simp [Ne.symm here]

/-- One more key has saved its value. -/
theorem Progress.saves (progress : Progress env db places part done s)
    (saves : Saves env db places part handler catg i) (inside : i < places.length)
    (fresh : i ∉ done) (left : done.length + 1 < places.length) :
    ∃ s', execKeyContinue handler catg arg0 i s = (.more, s') ∧
      Progress env db places part (done ++ [i]) s' := by
  obtain ⟨ctx, found, place⟩ := progress.found inside
  have more : s.keyDone + 1 < s.keys.length := by
    rw [progress.keyDone, progress.length]
    exact left
  obtain ⟨run, handled, quiet, notDepends, goesOn⟩ := saves s ctx more place (progress.same _)
  have none : ctx.part = none := by
    have parts := congrArg (·[i]?) progress.parts
    rw [List.getElem?_map, found, List.getElem?_mapIdx, place] at parts
    simpa [fresh] using parts
  have turn := @turn_more _ _ catg arg0 _ _ _ _ _ found handled notDepends more goesOn
  refine ⟨_, turn, ?_⟩
  constructor
  · exact progress.same_update quiet
  · simp [progress.out, quiet.out]
  · simp [progress.keyDone]
  · rw [← progress.keys]
    exact map_set_same found rfl
  · apply progress.parts_set found
    rw [KeyCtx.after, none]
    cases part ctx.hash <;> rfl
  · exact progress.zero_set quiet.ival

/-- The keys of a list save their values one behind the other. -/
theorem Progress.runKeys_saves {todo rest : List Nat} {fuel : Nat}
    (progress : Progress env db places part done s)
    (saves : ∀ i ∈ todo, Saves env db places part handler catg i)
    (inside : ∀ i ∈ todo, i < places.length) (nodup : (done ++ todo).Nodup)
    (left : done.length + todo.length < places.length) :
    ∃ s', Progress env db places part (done ++ todo) s' ∧
      runKeys handler catg arg0 (todo.length + fuel) (todo ++ rest) s =
        runKeys handler catg arg0 fuel rest s' := by
  induction todo generalizing done s with
  | nil =>
      rw [List.append_nil, List.length_nil, Nat.zero_add]
      exact ⟨s, progress, rfl⟩
  | cons i todo ih =>
      rw [List.length_cons] at left
      have fresh : i ∉ done := by
        intro member
        exact (List.nodup_append.mp nodup).2.2 i member i (by simp) rfl
      obtain ⟨s', turn, next⟩ := @Progress.saves _ _ _ _ _ _ _ arg0 _ _ _ progress
        (saves i (by simp)) (inside i (by simp)) fresh (by omega)
      obtain ⟨s'', after, ran⟩ := ih next (fun j member => saves j (by simp [member]))
        (fun j member => inside j (by simp [member])) (by simpa using nodup)
        (by rw [List.length_append, List.length_singleton]; omega)
      rw [List.append_assoc, List.singleton_append] at after
      refine ⟨s'', after, ?_⟩
      rw [List.length_cons, Nat.add_right_comm, List.cons_append, runKeys_more turn, ran]

/-- A key that waits has its next turn behind the others. -/
theorem Progress.waits (progress : Progress env db places part done s)
    (waits : Waits env db places handler catg i) (inside : i < places.length)
    (left : done.length + 1 < places.length) :
    ∃ s', execKeyContinue handler catg arg0 i s = (.depends, s') ∧
      Progress env db places part done s' := by
  obtain ⟨ctx, found, place⟩ := progress.found inside
  have more : s.keyDone + 1 < s.keys.length := by
    rw [progress.keyDone, progress.length]
    exact left
  obtain ⟨run, handled, quiet, readOnly, depends⟩ := waits s ctx more place (progress.same _)
  have settled : run.settle catg = run.entry := by
    rw [KeyRun.settle, if_neg]
    exact fun settles => settles.1 readOnly
  have turn := @turn_depends _ _ catg arg0 _ _ _ _ _ found handled readOnly depends
  refine ⟨_, turn, ?_⟩
  rw [← settled]
  constructor
  · exact progress.same_update quiet
  · simp [progress.out, quiet.out]
  · exact progress.keyDone
  · rw [← progress.keys]
    exact map_set_same found rfl
  · rw [← progress.parts]
    exact map_set_same found rfl
  · exact progress.zero_set quiet.ival

/-- The last key ends the command with its reply. -/
theorem Progress.last (progress : Progress env db places part done s) {ctx : KeyCtx}
    (found : s.keys[i]? = some ctx) (all : done.length + 1 = places.length) {run : KeyRun D}
    {saved : Option Bytes} (handled : handler s ctx (s.db ctx.hash) = (run, saved))
    (notDepends : run.status ≠ .execDepends) (fuel : Nat) (queue : List Nat) :
    ∃ s', runKeys handler catg arg0 (fuel + 1) (i :: queue) s = some s' ∧
      s'.db = Function.update s.db ctx.hash (run.settle catg) ∧
      s'.out = run.out ++ sendStatus arg0 run.ival run.status := by
  have turn := @turn_success _ _ catg arg0 _ _ _ _ _ found handled notDepends
    (Or.inl (by rw [progress.keyDone, progress.length]; exact all))
  refine ⟨_, runKeys_success turn, rfl, ?_⟩
  obtain ⟨inside, -⟩ := List.getElem?_eq_some_iff.mp found
  have total : ((s.keys.set i (ctx.after run saved)).map KeyCtx.ival).sum = run.ival := by
    rw [List.map_set, List.set_eq_take_append_cons_drop, if_pos (by simpa using inside)]
    have zero : ∀ x ∈ s.keys.map KeyCtx.ival, x = 0 := by
      intro x member
      obtain ⟨key, isKey, rfl⟩ := List.mem_map.mp member
      exact progress.zero key isKey
    rw [List.sum_append, List.sum_cons,
      List.sum_eq_zero fun x member => zero x (List.mem_of_mem_take member),
      List.sum_eq_zero fun x member => zero x (List.mem_of_mem_drop member), KeyCtx.after]
    simp
  simp only [progress.out, List.nil_append, total]

/-- All keys but the last of an order have saved their values. -/
theorem Progress.runKeys_allButLast {order : List Nat} (progress : Progress env db places part [] s)
    (saves : ∀ i < places.length, Saves env db places part handler catg i)
    (all : order.Perm (List.range places.length)) (some : places ≠ []) :
    ∃ before last fuel s', order = before ++ [last] ∧ Progress env db places part before s' ∧
      last < places.length ∧ before.length + 1 = places.length ∧
      runKeys handler catg arg0 (2 * places.length) order s =
        runKeys handler catg arg0 (fuel + 1) [last] s' := by
  have length : order.length = places.length := by rw [all.length_eq, List.length_range]
  have inside : ∀ i ∈ order, i < places.length :=
    fun i member => List.mem_range.mp (all.mem_iff.mp member)
  have nodup : order.Nodup := all.nodup_iff.mpr List.nodup_range
  obtain ⟨before, last, rfl⟩ : ∃ before last, order = before ++ [last] := by
    rcases List.eq_nil_or_concat' order with rfl | ends
    · rw [List.length_nil] at length
      exact absurd (List.eq_nil_of_length_eq_zero length.symm) some
    · exact ends
  rw [List.length_append, List.length_singleton] at length
  obtain ⟨s', after, ran⟩ := @Progress.runKeys_saves _ _ _ _ _ handler catg arg0 _ _ before [last]
    (before.length + 2) progress (fun i member => saves i (inside i (by simp [member])))
    (fun i member => inside i (by simp [member]))
    (by rw [List.nil_append]; exact (List.nodup_append.mp nodup).1) (by simp; omega)
  refine ⟨before, last, before.length + 1, s', rfl, after, inside last (by simp), length, ?_⟩
  rw [← ran]
  congr 1
  omega

/-- A destination that waits has its last turn when all sources have saved their values. -/
theorem Progress.runKeys_dest {order : List Nat} {dest : Nat}
    (progress : Progress env db places part [] s) (waits : Waits env db places handler catg dest)
    (saves : ∀ i < places.length, i ≠ dest → Saves env db places part handler catg i)
    (all : order.Perm (List.range places.length)) (inside : dest < places.length) :
    ∃ done fuel s', (∀ i, i ∈ done ↔ i < places.length ∧ i ≠ dest) ∧
      Progress env db places part done s' ∧ done.length + 1 = places.length ∧
      runKeys handler catg arg0 (2 * places.length) order s =
        runKeys handler catg arg0 (fuel + 1) [dest] s' := by
  have length : order.length = places.length := by rw [all.length_eq, List.length_range]
  have nodup : order.Nodup := all.nodup_iff.mpr List.nodup_range
  have isKey : ∀ i, i ∈ order ↔ i < places.length :=
    fun i => all.mem_iff.trans List.mem_range
  obtain ⟨before, behind, rfl⟩ := List.append_of_mem ((isKey dest).mpr inside)
  have others : (before ++ behind).Nodup ∧ dest ∉ before ++ behind := by
    have moved := (List.perm_middle.nodup_iff.mp nodup)
    exact ⟨(List.nodup_cons.mp moved).2, (List.nodup_cons.mp moved).1⟩
  have source : ∀ i ∈ before ++ behind, i < places.length ∧ i ≠ dest := by
    intro i member
    refine ⟨(isKey i).mp (by simp at member ⊢; tauto), ?_⟩
    rintro rfl
    exact others.2 member
  rw [List.length_append, List.length_cons] at length
  have members : ∀ i, i ∈ before ++ behind ↔ i < places.length ∧ i ≠ dest := by
    intro i
    apply Iff.intro (source i)
    rintro ⟨small, other⟩
    have member := (isKey i).mpr small
    simp only [List.mem_append, List.mem_cons, other, false_or] at member
    exact List.mem_append.mpr member
  obtain ⟨first, started, ran⟩ := @Progress.runKeys_saves _ _ _ _ _ handler catg arg0 _ _ before
    (dest :: behind) (2 * behind.length + before.length + 2) progress
    (fun i member => saves i (source i (by simp [member])).1 (source i (by simp [member])).2)
    (fun i member => (source i (by simp [member])).1)
    (by rw [List.nil_append]; exact (List.nodup_append.mp others.1).1) (by simp; omega)
  rw [List.nil_append] at started
  rw [show 2 * places.length = before.length + (2 * behind.length + before.length + 2) by omega, ran]
  cases behind with
  | nil =>
      rw [List.append_nil] at members
      exact ⟨before, _, first, members, started, by simpa using length, rfl⟩
  | cons next behind =>
      rw [List.length_cons] at length
      obtain ⟨second, turn, waiting⟩ := @Progress.waits _ _ _ _ _ _ _ arg0 _ _ _ started waits inside
        (by omega)
      obtain ⟨third, after, done⟩ := @Progress.runKeys_saves _ _ _ _ _ handler catg arg0 _ _
        (next :: behind) [dest] (behind.length + before.length + 2) waiting
        (fun i member => saves i (source i (List.mem_append_right _ member)).1
          (source i (List.mem_append_right _ member)).2)
        (fun i member => (source i (List.mem_append_right _ member)).1) others.1
        (by rw [List.length_cons]; omega)
      refine ⟨before ++ next :: behind, behind.length + before.length + 1, third, members, after, ?_,
        ?_⟩
      · rw [List.length_append, List.length_cons]
        omega
      · rw [List.length_cons, show 2 * (behind.length + 1) + before.length + 2 =
          (behind.length + 1 + (behind.length + before.length + 2)) + 1 by omega,
          runKeys_depends turn, ← List.length_cons (a := next), done]

end Run

section Places

variable {D : Type} {env : KeyEnv} {db : KeyHash → Option (Entry D)} {part : KeyHash → Option Bytes}
  {done : List Nat} {argn : Nat} {hashes : List KeyHash} {s : CommandRun D}

/-- The keys of a command are counted from one argument on. -/
def keysFrom (argn : Nat) (hashes : List KeyHash) : List KeyCtx :=
  hashes.mapIdx fun i h => { argn := argn + i, hash := h }

/-- The places of these keys in the message. -/
def placesFrom (argn : Nat) (hashes : List KeyHash) : List (Nat × KeyHash) :=
  (keysFrom argn hashes).map fun ctx => (ctx.argn, ctx.hash)

theorem getElem?_placesFrom {argn i : Nat} {hashes : List KeyHash} {place : Nat × KeyHash} :
    (placesFrom argn hashes)[i]? = some place ↔
      place.1 = argn + i ∧ hashes[i]? = some place.2 := by
  rw [placesFrom, keysFrom, List.getElem?_map, List.getElem?_mapIdx, Option.map_map]
  cases hashes[i]? with
  | none => simp
  | some h =>
      obtain ⟨n, h'⟩ := place
      simp [eq_comm]

theorem length_placesFrom (argn : Nat) (hashes : List KeyHash) :
    (placesFrom argn hashes).length = hashes.length := by
  simp [placesFrom, keysFrom]

/-- The keys of a command start afresh. -/
theorem keysFrom_fresh {argn : Nat} {hashes : List KeyHash} :
    ∀ ctx ∈ keysFrom argn hashes, ctx.part = none ∧ ctx.ival = 0 := by
  intro ctx member
  obtain ⟨i, inside, rfl⟩ := List.mem_mapIdx.mp member
  exact ⟨rfl, rfl⟩

/-- A key is one of the keys of its command. -/
theorem mem_of_place {i : Nat} {ctx : KeyCtx}
    (place : (placesFrom argn hashes)[i]? = some (ctx.argn, ctx.hash)) : ctx.hash ∈ hashes :=
  List.mem_of_getElem? (getElem?_placesFrom.mp place).2

/-- The parts that the keys of a command have saved. -/
theorem Progress.mem_parts (progress : Progress env db (placesFrom argn hashes) part done s)
    (bytes : Bytes) :
    bytes ∈ s.keys.filterMap KeyCtx.part ↔
      ∃ i ∈ done, ∃ h, hashes[i]? = some h ∧ part h = some bytes := by
  have saved : bytes ∈ s.keys.filterMap KeyCtx.part ↔ some bytes ∈ s.keys.map KeyCtx.part := by
    simp
  rw [saved, progress.parts, List.mem_mapIdx]
  apply Iff.intro
  · rintro ⟨i, inside, isPart⟩
    by_cases member : i ∈ done
    · rw [if_pos member] at isPart
      exact ⟨i, member, _, (getElem?_placesFrom.mp (List.getElem?_eq_getElem inside)).2, isPart⟩
    · rw [if_neg member] at isPart
      cases isPart
  · rintro ⟨i, member, h, isKey, isPart⟩
    have place : (placesFrom argn hashes)[i]? = some (argn + i, h) :=
      getElem?_placesFrom.mpr ⟨rfl, isKey⟩
    obtain ⟨inside, same⟩ := List.getElem?_eq_some_iff.mp place
    refine ⟨i, inside, ?_⟩
    rw [if_pos member, same]
    exact isPart

/-- All keys behind the first one have saved their values. -/
theorem Progress.parts_tail {first : Nat × KeyHash} {rest : List (Nat × KeyHash)}
    (progress : Progress env db (first :: rest) part done s)
    (members : ∀ i, i ∈ done ↔ i < (first :: rest).length ∧ i ≠ 0) :
    s.keys.tail.map KeyCtx.part = rest.map fun place => part place.2 := by
  rw [List.map_tail, progress.parts]
  apply List.ext_getElem?
  intro i
  rw [List.getElem?_tail, List.getElem?_mapIdx, List.getElem?_map, List.getElem?_cons_succ]
  cases found : rest[i]? with
  | none => rfl
  | some place =>
      obtain ⟨inside, -⟩ := List.getElem?_eq_some_iff.mp found
      rw [Option.map_some, Option.map_some, if_pos]
      exact (members (i + 1)).mpr ⟨by rw [List.length_cons]; omega, by omega⟩

/-- The values of the places of some keys are the values of the keys. -/
theorem map_placesFrom {α : Type} (f : KeyHash → α) (argn : Nat) (hashes : List KeyHash) :
    (placesFrom argn hashes).map (fun place => f place.2) = hashes.map f := by
  rw [placesFrom, keysFrom, List.map_map]
  apply List.ext_getElem?
  intro i
  rw [List.getElem?_map, List.getElem?_mapIdx, List.getElem?_map, Option.map_map]
  rfl

theorem placesFrom_cons (argn : Nat) (h : KeyHash) (hashes : List KeyHash) :
    placesFrom argn (h :: hashes) = (argn, h) :: placesFrom (argn + 1) hashes := by
  rw [placesFrom, keysFrom, List.mapIdx_cons, List.map_cons, placesFrom, keysFrom]
  congr 2
  apply List.ext_getElem?
  intro i
  rw [List.getElem?_mapIdx, List.getElem?_mapIdx]
  congr 1
  funext h'
  rw [Nat.add_assoc, Nat.add_comm 1]

/-- All sources behind a destination have saved their values. -/
theorem Progress.parts_dest {dest : KeyHash}
    (progress : Progress env db (placesFrom argn (dest :: hashes)) part done s)
    (members : ∀ i, i ∈ done ↔ i < (placesFrom argn (dest :: hashes)).length ∧ i ≠ 0) :
    s.keys.tail.map KeyCtx.part = hashes.map part := by
  rw [placesFrom_cons] at progress members
  rw [progress.parts_tail members, map_placesFrom]

/-- The last key saves its value behind all others. -/
theorem Progress.parts_last {last : Nat} {ctx : KeyCtx}
    (progress : Progress env db (placesFrom argn hashes) part done s)
    (members : ∀ i < hashes.length, i ≠ last → i ∈ done) (found : s.keys[last]? = some ctx) :
    (s.keys.map fun key => if key.argn = ctx.argn then part ctx.hash else key.part) =
      hashes.map part := by
  have places : ∀ i : Nat, (placesFrom argn hashes)[i]? =
      s.keys[i]?.map fun key => (key.argn, key.hash) := by
    intro i
    rw [← progress.keys, List.getElem?_map]
  have isLast := places last
  rw [found, Option.map_some] at isLast
  obtain ⟨lastArgn, -⟩ := getElem?_placesFrom.mp isLast
  apply List.ext_getElem?
  intro i
  rw [List.getElem?_map, List.getElem?_map]
  cases isKey : s.keys[i]? with
  | none =>
      rw [List.getElem?_eq_none_iff, progress.length, length_placesFrom] at isKey
      rw [List.getElem?_eq_none isKey]
      rfl
  | some key =>
      have place := places i
      rw [isKey, Option.map_some] at place
      obtain ⟨keyArgn, isHash⟩ := getElem?_placesFrom.mp place
      obtain ⟨inside, -⟩ := List.getElem?_eq_some_iff.mp isHash
      rw [isHash, Option.map_some, Option.map_some]
      by_cases here : i = last
      · rw [← here, isKey] at found
        rw [Option.some.inj found, if_pos rfl]
      · have saved := congrArg (·[i]?) progress.parts
        rw [List.getElem?_map, isKey, List.getElem?_mapIdx, place, Option.map_some,
          Option.map_some, if_pos (members i inside here)] at saved
        rw [if_neg (by dsimp only at keyArgn lastArgn; omega)]
        exact saved

end Places

end Raids.Key
