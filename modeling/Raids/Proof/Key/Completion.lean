import Raids.Proof.Key.Mset

namespace Raids.Key

section Completion

variable {D : Type}

/-- A turn after which its key has another one. -/
def KeyRun.waits (run : KeyRun D) : Bool := run.isReadOnly && run.status == .execDepends

/-- A key waits for the others in its first turn only. -/
def DependsOnce (handler : Handler D) : Prop :=
  ∀ s ctx entry, (handler s ctx entry).1.waits → ctx.dep = 0

/-- The turns of a command: the index of each key and what its handler left. -/
def turnLog (handler : Handler D) (catg : MdType) (arg0 : Bytes) :
    Nat → List Nat → CommandRun D → List (Nat × KeyRun D)
  | _, [], _ => []
  | 0, _ :: _, _ => []
  | fuel + 1, idx :: queue, s =>
      match s.keys[idx]? with
      | none => []
      | some ctx =>
          (idx, (handler s ctx (s.db ctx.hash)).1) ::
            match execKeyContinue handler catg arg0 idx s with
            | (.depends, s) => turnLog handler catg arg0 fuel (queue ++ [idx]) s
            | (.more, s) => turnLog handler catg arg0 fuel queue s
            | (.success, _) => []

/-- The keys that are done behind some turns. -/
def finals (turns : List (Nat × KeyRun D)) : List Nat :=
  (turns.filter fun turn => !turn.2.waits).map Prod.fst

/-- The turns that a key has had to wait for. -/
def depAt (keys : List KeyCtx) (i : Nat) : Nat := (keys[i]?.map KeyCtx.dep).getD 0

theorem depAt_set_ne {keys : List KeyCtx} {idx i : Nat} (other : i ≠ idx) (ctx : KeyCtx) :
    depAt (keys.set idx ctx) i = depAt keys i := by
  rw [depAt, depAt, List.getElem?_set_ne other.symm]

theorem depAt_set_self {keys : List KeyCtx} {idx : Nat} (inside : idx < keys.length)
    (ctx : KeyCtx) : depAt (keys.set idx ctx) idx = ctx.dep := by
  rw [depAt, List.getElem?_set_self inside, Option.map_some, Option.getD_some]

/-- What the turns of a command leave. The command sends one reply, behind its last turn, which is
the first one whose status ends the command or the one of the last key. Each key is done at most
once and has at most the given number of turns, and without an early end all keys are done. -/
structure Completed (arg0 : Bytes) (queue : List Nat) (limit : Nat → Nat) (out : Bytes)
    (turns : List (Nat × KeyRun D)) (last : Nat × KeyRun D) (s : CommandRun D) : Prop where
  reply : s.out = out ++ (turns ++ [last]).flatMap (fun turn => turn.2.out) ++
    sendStatus arg0 s.ival last.2.status
  goesOn : ∀ turn ∈ turns, turn.2.status.ctorIdx ≤ ExecStatus.execBlocked.ctorIdx
  ends : last.2.waits = false
  members : ∀ turn ∈ turns ++ [last], turn.1 ∈ queue
  once : (finals (turns ++ [last])).Nodup
  all : last.2.status.ctorIdx ≤ ExecStatus.execBlocked.ctorIdx →
    ∀ i ∈ queue, i ∈ finals (turns ++ [last])
  few : ∀ i, ((turns ++ [last]).map Prod.fst).count i ≤ limit i

variable {handler : Handler D} {catg : MdType} {arg0 : Bytes} {s : CommandRun D} {idx : Nat}
  {ctx : KeyCtx} {run : KeyRun D} {part : Option Bytes}

theorem waits_iff : run.waits = true ↔ run.isReadOnly = true ∧ run.status = .execDepends := by
  simp [KeyRun.waits]

/-- A key that waits has its next turn later. -/
theorem turn_waits (found : s.keys[idx]? = some ctx)
    (handled : handler s ctx (s.db ctx.hash) = (run, part)) (waits : run.waits = true) :
    ∃ (s' : CommandRun D) (ctx' : KeyCtx), s'.keys = s.keys.set idx ctx' ∧
      ctx'.dep = ctx.dep + 1 ∧ s'.keyDone = s.keyDone ∧ s'.out = s.out ++ run.out ∧
      execKeyContinue handler catg arg0 idx s = (.depends, s') := by
  obtain ⟨readOnly, status⟩ := waits_iff.mp waits
  exact ⟨{ s with
      db := Function.update s.db ctx.hash run.entry
      keys := s.keys.set idx { ctx.after run part with dep := ctx.dep + 1 }
      out := s.out ++ run.out }, { ctx.after run part with dep := ctx.dep + 1 }, rfl, rfl, rfl, rfl,
    turn_depends found handled readOnly status⟩

/-- A key that does not wait is done, and the last key or one that does not go on sends the
reply. -/
theorem turn_done (found : s.keys[idx]? = some ctx)
    (handled : handler s ctx (s.db ctx.hash) = (run, part)) (done : run.waits = false) :
    ∃ s' : CommandRun D, s'.keys = s.keys.set idx (ctx.after run part) ∧
      s'.keyDone = s.keyDone + 1 ∧
      if s.keyDone + 1 < s.keys.length ∧
          run.status.ctorIdx ≤ ExecStatus.execBlocked.ctorIdx then
        execKeyContinue handler catg arg0 idx s = (.more, s') ∧ s'.out = s.out ++ run.out
      else
        execKeyContinue handler catg arg0 idx s = (.success, s') ∧
          s'.out = s.out ++ run.out ++ sendStatus arg0 s'.ival run.status := by
  have ready : ¬(run.isReadOnly = true ∧ run.status = .execDepends) := by
    rw [← waits_iff, done]
    decide
  by_cases more : s.keyDone + 1 < s.keys.length ∧
      run.status.ctorIdx ≤ ExecStatus.execBlocked.ctorIdx
  · refine ⟨{ db := Function.update s.db ctx.hash (run.settle catg)
              keys := s.keys.set idx (ctx.after run part)
              keyDone := s.keyDone + 1
              out := s.out ++ run.out }, rfl, rfl, ?_⟩
    rw [if_pos more]
    simp [execKeyContinue, found, handled, ready, more, KeyCtx.after]
  · refine ⟨{ db := Function.update s.db ctx.hash (run.settle catg)
              keys := s.keys.set idx (ctx.after run part)
              keyDone := s.keyDone + 1
              out := s.out ++ run.out ++ sendStatus arg0
                (CommandRun.ival { s with keys := s.keys.set idx (ctx.after run part) })
                run.status }, rfl, rfl, ?_⟩
    rw [if_neg more]
    refine ⟨?_, rfl⟩
    simp [execKeyContinue, found, handled, ready, more, KeyCtx.after, CommandRun.ival]

theorem finals_cons_done {turns : List (Nat × KeyRun D)} (done : run.waits = false) :
    finals ((idx, run) :: turns) = idx :: finals turns := by
  simp [finals, done]

theorem finals_cons_waits {turns : List (Nat × KeyRun D)} (waits : run.waits = true) :
    finals ((idx, run) :: turns) = finals turns := by
  simp [finals, waits]

/-- The turn of the last key, or of one that ends the command. -/
theorem Completed.single {queue : List Nat} {limit : Nat → Nat} {out : Bytes} {s' : CommandRun D}
    (reply : s'.out = out ++ run.out ++ sendStatus arg0 s'.ival run.status) (here : idx ∈ queue)
    (done : run.waits = false)
    (alone : run.status.ctorIdx ≤ ExecStatus.execBlocked.ctorIdx → queue = [idx])
    (positive : 0 < limit idx) : Completed arg0 queue limit out [] (idx, run) s' := by
  have lone : finals [(idx, run)] = [idx] := finals_cons_done done
  constructor
  · rw [reply, List.nil_append, List.flatMap_singleton]
  · exact fun turn member => absurd member List.not_mem_nil
  · exact done
  · intro turn member
    rw [List.nil_append, List.mem_singleton] at member
    rw [member]
    exact here
  · rw [List.nil_append, lone]
    exact List.nodup_singleton idx
  · intro late i member
    rw [List.nil_append, lone, ← alone late]
    exact member
  · intro i
    rw [List.nil_append, List.map_singleton, List.count_singleton]
    by_cases same : i = idx
    · subst same
      rw [if_pos (by simp)]
      exact positive
    · rw [if_neg (by simpa using Ne.symm same)]
      exact Nat.zero_le _

/-- One more turn in front. -/
theorem Completed.cons {queue rest : List Nat} {limit left : Nat → Nat} {out : Bytes}
    {turns : List (Nat × KeyRun D)} {last : Nat × KeyRun D} {s' : CommandRun D}
    (completed : Completed arg0 rest left (out ++ run.out) turns last s')
    (goesOn : run.status.ctorIdx ≤ ExecStatus.execBlocked.ctorIdx)
    (within : ∀ i ∈ rest, i ∈ queue) (here : idx ∈ queue)
    (fresh : run.waits = false → idx ∉ rest)
    (done : ∀ i ∈ queue, i ∈ rest ∨ i = idx ∧ run.waits = false)
    (own : left idx + 1 ≤ limit idx ∨ idx ∉ rest ∧ 0 < limit idx)
    (others : ∀ i, i ≠ idx → left i ≤ limit i) :
    Completed arg0 queue limit out ((idx, run) :: turns) last s' := by
  have absent : idx ∉ rest → ((turns ++ [last]).map Prod.fst).count idx = 0 := by
    intro gone
    apply List.count_eq_zero_of_not_mem
    intro member
    obtain ⟨turn, isTurn, same⟩ := List.mem_map.mp member
    exact gone (same ▸ completed.members turn isTurn)
  have nowhere : idx ∉ rest → idx ∉ finals (turns ++ [last]) := by
    intro gone member
    obtain ⟨turn, isTurn, same⟩ := List.mem_map.mp member
    exact gone (same ▸ completed.members turn (List.mem_of_mem_filter isTurn))
  constructor
  · rw [completed.reply]
    simp
  · intro turn member
    rcases List.mem_cons.mp member with rfl | later
    · exact goesOn
    · exact completed.goesOn turn later
  · exact completed.ends
  · intro turn member
    rcases List.mem_cons.mp member with rfl | later
    · exact here
    · exact within _ (completed.members turn later)
  · cases waits : run.waits with
    | true =>
        rw [List.cons_append, finals_cons_waits waits]
        exact completed.once
    | false =>
        rw [List.cons_append, finals_cons_done waits]
        exact List.nodup_cons.mpr ⟨nowhere (fresh waits), completed.once⟩
  · intro late i member
    rcases done i member with later | ⟨rfl, isDone⟩
    · have found := completed.all late i later
      cases waits : run.waits with
      | true =>
          rw [List.cons_append, finals_cons_waits waits]
          exact found
      | false =>
          rw [List.cons_append, finals_cons_done waits]
          exact List.mem_cons_of_mem _ found
    · rw [List.cons_append, finals_cons_done isDone]
      exact List.mem_cons_self
  · intro i
    have later := completed.few i
    rw [List.cons_append, List.map_cons, List.count_cons]
    by_cases same : i = idx
    · subst same
      rw [if_pos (by simp)]
      rcases own with less | ⟨gone, positive⟩
      · omega
      · rw [absent gone]
        omega
    · rw [if_neg (by simpa using Ne.symm same)]
      have bound := others i same
      omega

/-- The keys have their turns until the command ends. -/
theorem runKeys_completes (depends : DependsOnce handler) (fuel : Nat) (queue : List Nat)
    (s : CommandRun D) (some : queue ≠ []) (nodup : queue.Nodup)
    (within : ∀ i ∈ queue, i < s.keys.length) (deps : ∀ i ∈ queue, depAt s.keys i ≤ 1)
    (enough : (queue.map fun i => 2 - depAt s.keys i).sum ≤ fuel)
    (count : s.keyDone + queue.length = s.keys.length) :
    ∃ s' turns last, runKeys handler catg arg0 fuel queue s = Option.some s' ∧
      turnLog handler catg arg0 fuel queue s = turns ++ [last] ∧
      Completed arg0 queue (fun i => 2 - depAt s.keys i) s.out turns last s' := by
  induction fuel generalizing queue s with
  | zero =>
      obtain ⟨idx, queue, rfl⟩ := List.exists_cons_of_ne_nil some
      have first := deps idx List.mem_cons_self
      rw [List.map_cons, List.sum_cons] at enough
      omega
  | succ fuel ih =>
      obtain ⟨idx, queue, rfl⟩ := List.exists_cons_of_ne_nil some
      have inside : idx < s.keys.length := within idx List.mem_cons_self
      have first : depAt s.keys idx ≤ 1 := deps idx List.mem_cons_self
      obtain ⟨ctx, found⟩ : ∃ ctx, s.keys[idx]? = Option.some ctx :=
        ⟨_, List.getElem?_eq_getElem inside⟩
      have own : depAt s.keys idx = ctx.dep := by
        rw [depAt, found]
        rfl
      obtain ⟨gone, tail⟩ := List.nodup_cons.mp nodup
      have kept : ∀ ctx', (queue.map fun i => 2 - depAt (s.keys.set idx ctx') i) =
          queue.map fun i => 2 - depAt s.keys i := by
        intro ctx'
        apply List.map_congr_left
        intro i member
        have other : i ≠ idx := fun same => gone (same ▸ member)
        rw [depAt_set_ne other]
      rw [List.map_cons, List.sum_cons] at enough
      rw [List.length_cons] at count
      cases handled : handler s ctx (s.db ctx.hash) with
      | mk run part =>
          cases waits : run.waits with
          | true =>
              have early : ctx.dep = 0 := by
                apply depends s ctx (s.db ctx.hash)
                rw [handled]
                exact waits
              obtain ⟨next, ctx', keys, dep, keyDone, out, turn⟩ :=
                @turn_waits D handler catg arg0 s idx ctx run part found handled waits
              obtain ⟨s', turns, last, ran, logs, completed⟩ := ih (queue ++ [idx]) next (by simp)
                ((List.perm_append_singleton idx queue).nodup_iff.mpr nodup)
                (by
                  intro i member
                  rw [keys, List.length_set]
                  apply within i
                  simpa [or_comm] using member)
                (by
                  intro i member
                  rw [keys]
                  by_cases same : i = idx
                  · rw [same, depAt_set_self inside, dep, early]
                  · rw [depAt_set_ne same]
                    apply deps i
                    simpa [same] using member)
                (by
                  rw [keys, List.map_append, List.sum_append, kept, List.map_singleton,
                    List.sum_singleton, depAt_set_self inside]
                  omega)
                (by
                  rw [keys, keyDone, List.length_set, List.length_append, List.length_singleton]
                  exact count)
              refine ⟨s', (idx, run) :: turns, last, ?_, ?_, ?_⟩
              · rw [runKeys, turn]
                exact ran
              · rw [turnLog, found]
                simp only [turn, handled]
                rw [logs]
                rfl
              · rw [out] at completed
                apply completed.cons
                · rw [(waits_iff.mp waits).2]
                  decide
                · intro i member
                  simpa [or_comm] using member
                · exact List.mem_cons_self
                · intro done
                  rw [waits] at done
                  cases done
                · intro i member
                  left
                  simpa [or_comm] using member
                · left
                  rw [keys, depAt_set_self inside]
                  omega
                · intro i other
                  rw [keys, depAt_set_ne other]
          | false =>
              obtain ⟨next, keys, keyDone, turn⟩ :=
                @turn_done D handler catg arg0 s idx ctx run part found handled waits
              by_cases more : s.keyDone + 1 < s.keys.length ∧
                  run.status.ctorIdx ≤ ExecStatus.execBlocked.ctorIdx
              · rw [if_pos more] at turn
                obtain ⟨turn, out⟩ := turn
                obtain ⟨s', turns, last, ran, logs, completed⟩ := ih queue next
                  (by
                    rintro rfl
                    rw [List.length_nil] at count
                    omega)
                  tail
                  (by
                    intro i member
                    rw [keys, List.length_set]
                    exact within i (List.mem_cons_of_mem _ member))
                  (by
                    intro i member
                    have other : i ≠ idx := fun same => gone (same ▸ member)
                    rw [keys, depAt_set_ne other]
                    exact deps i (List.mem_cons_of_mem _ member))
                  (by
                    rw [keys, kept]
                    omega)
                  (by
                    rw [keys, keyDone, List.length_set]
                    omega)
                refine ⟨s', (idx, run) :: turns, last, ?_, ?_, ?_⟩
                · rw [runKeys, turn]
                  exact ran
                · rw [turnLog, found]
                  simp only [turn, handled]
                  rw [logs]
                  rfl
                · rw [out] at completed
                  apply completed.cons more.2
                  · exact fun i member => List.mem_cons_of_mem _ member
                  · exact List.mem_cons_self
                  · exact fun _ => gone
                  · intro i member
                    rcases List.mem_cons.mp member with same | later
                    · exact Or.inr ⟨same, waits⟩
                    · exact Or.inl later
                  · right
                    exact ⟨gone, by omega⟩
                  · intro i other
                    rw [keys, depAt_set_ne other]
              · rw [if_neg more] at turn
                obtain ⟨turn, out⟩ := turn
                refine ⟨next, [], (idx, run), ?_, ?_, ?_⟩
                · rw [runKeys, turn]
                · rw [turnLog, found]
                  simp only [turn, handled]
                  rfl
                · apply Completed.single out List.mem_cons_self waits
                  · intro late
                    have bound : ¬s.keyDone + 1 < s.keys.length := fun less => more ⟨less, late⟩
                    rw [List.eq_nil_of_length_eq_zero (by omega : queue.length = 0)]
                  · omega

/-- A store never waits. -/
theorem doSetValue_waits (env : KeyEnv) (cmd : RedisCmd) (msg : CommandMsg) (n : Nat)
    (flags : SetFlags) (entry : Option (Entry Bytes)) :
    (doSetValue env cmd msg n flags entry).waits = false := by
  unfold doSetValue
  split
  · rfl
  · dsimp only
    split
    all_goals first | rfl | (split <;> first | rfl | (split <;> rfl))

/-- MSETNX waits for its other keys in its first turn only. -/
theorem execMsetnx_dependsOnce (env : KeyEnv) (msg : CommandMsg) :
    DependsOnce (execMsetnx env msg) := by
  intro s ctx entry waits
  by_contra later
  rw [execMsetnx] at waits
  simp only [if_neg later, doSetValue_waits] at waits
  cases waits

/-- The keys of an MSETNX that names two keys. -/
def msetnxRun : CommandRun Bytes :=
  { db := fun _ => none, keys := [{ argn := 1, hash := ⟨1, 1⟩ }, { argn := 3, hash := ⟨2, 2⟩ }] }

theorem msetnxWords_length : (commandWords ["msetnx", "k", "v", "m", "w"]).length < 2 ^ 31 := by
  decide

def msetnxPairs : CommandMsg := ⟨commandWords ["msetnx", "k", "v", "m", "w"], msetnxWords_length⟩

end Completion

end Raids.Key
