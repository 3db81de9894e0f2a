import Raids.Proof.Key.Mset
import Raids.Construction.Key.Expire

namespace Raids.Key

/-- The handler of a counting command runs its keys on their own. -/
def CountCmd.handler {D : Type} (cmd : CountCmd) (env : KeyEnv) : Handler D :=
  fun _ _ entry => (cmd.run env entry, none)

/-- The deleting commands take a key away when it is counted. -/
def CountCmd.deletes : CountCmd → Bool
  | .del | .unlink => true
  | .existing | .touch => false

/-- What the keys add up to one behind the other, where `there` tells the keys of the table. -/
def tally (deletes : Bool) (there : KeyHash → Bool) : List KeyHash → Int
  | [] => 0
  | h :: hashes =>
      (if there h then 1 else 0) +
        tally deletes (if deletes then Function.update there h false else there) hashes

/-- Without deletions each mention of a key counts. -/
theorem tally_keeps (there : KeyHash → Bool) (hashes : List KeyHash) :
    tally false there hashes = hashes.countP there := by
  induction hashes with
  | nil => rfl
  | cons h hashes ih =>
      rw [tally, List.countP_cons]
      simp only [Bool.false_eq_true, if_false, ih]
      split <;> push_cast <;> omega

/-- With deletions each key counts once. -/
theorem tally_deletes (there : KeyHash → Bool) (hashes : List KeyHash) :
    tally true there hashes = (hashes.toFinset.filter fun h => there h).card := by
  induction hashes generalizing there with
  | nil => rfl
  | cons h hashes ih =>
      have others : (hashes.toFinset.filter fun k => Function.update there h false k) =
          (hashes.toFinset.filter fun k => there k).erase h := by
        ext k
        rw [Finset.mem_erase, Finset.mem_filter, Finset.mem_filter]
        by_cases here : k = h
        · simp [here]
        · simp [here]
      rw [tally, if_pos rfl, ih, others, List.toFinset_cons, Finset.filter_insert]
      by_cases isThere : there h
      · have erased : (insert h (hashes.toFinset.filter fun k => there k)) =
            insert h ((hashes.toFinset.filter fun k => there k).erase h) := by
          ext k
          by_cases here : k = h <;> simp [here]
        rw [if_pos isThere, if_pos isThere, erased,
          Finset.card_insert_of_notMem (Finset.notMem_erase _ _)]
        push_cast
        omega
      · have absent : h ∉ hashes.toFinset.filter fun k => there k := by
          simp [isThere]
        rw [if_neg isThere, if_neg isThere, Finset.erase_eq_of_notMem absent]
        omega

section Count

variable {D : Type} {env : KeyEnv} {cmd : CountCmd} {catg : MdType} {arg0 : Bytes}

/-- The keys that a table holds. -/
def isThere (env : KeyEnv) (db : KeyHash → Option (Entry D)) (h : KeyHash) : Bool :=
  (live env (db h)).isSome

/-- The number that a command replies: the keys that are deleted, or the mentions of the keys that
are there. -/
def CountCmd.count (cmd : CountCmd) (env : KeyEnv) (db : KeyHash → Option (Entry D))
    (hashes : List KeyHash) : Nat :=
  if cmd.deletes then (hashes.toFinset.filter fun h => isThere env db h).card
  else hashes.countP (isThere env db)

theorem tally_eq_count (db : KeyHash → Option (Entry D)) (hashes : List KeyHash) :
    tally cmd.deletes (isThere env db) hashes = cmd.count env db hashes := by
  rw [CountCmd.count]
  cases cmd.deletes with
  | false => exact tally_keeps _ _
  | true => exact tally_deletes _ _

/-- The order of the keys does not change the number. -/
theorem CountCmd.count_perm (db : KeyHash → Option (Entry D)) {hashes hashes' : List KeyHash}
    (same : hashes.Perm hashes') : cmd.count env db hashes = cmd.count env db hashes' := by
  rw [CountCmd.count, CountCmd.count, List.toFinset_eq_of_perm _ _ same, same.countP_eq]

/-- One key counts if it is there, and is deleted or left. -/
theorem CountCmd.run_works (works : env.Works) (cmd : CountCmd) (catg : MdType)
    (entry : Option (Entry D)) :
    (cmd.run env entry).status = .execSendInt ∧ (cmd.run env entry).out = [] ∧
      (cmd.run env entry).ival = (if (live env entry).isSome then 1 else 0) ∧
      live env ((cmd.run env entry).settle catg) =
        if cmd.deletes then none else live env entry := by
  have same := live_live env entry
  cases cmd <;> cases found : live env entry <;> rw [found] at same <;>
    simp [CountCmd.run, CountCmd.deletes, execDel, execUnlink, execExists, execTouch,
      execKeyFetch_works works, found, Fetched.stop, Fetched.read, KeyRun.settle, same] <;> rfl

/-- The table behind the turn of one key. -/
theorem isThere_update (db : KeyHash → Option (Entry D)) {h : KeyHash}
    {entry : Option (Entry D)}
    (settled : live env entry = if cmd.deletes then none else live env (db h)) :
    isThere env (Function.update db h entry) =
      if cmd.deletes then Function.update (isThere env db) h false else isThere env db := by
  funext k
  by_cases here : k = h
  · subst here
    cases deletes : cmd.deletes <;> simp [isThere, settled, deletes]
  · cases cmd.deletes <;> simp [isThere, here]

/-- The numbers of the keys add up. -/
theorem ival_set {s s' : CommandRun D} {idx : Nat} {ctx ctx' : KeyCtx}
    (keys : s'.keys = s.keys.set idx ctx') (found : s.keys[idx]? = some ctx)
    (zero : ctx.ival = 0) : s'.ival = s.ival + ctx'.ival := by
  rw [CommandRun.ival, CommandRun.ival, keys]
  clear keys
  generalize s.keys = keys at found ⊢
  induction keys generalizing idx with
  | nil => simp at found
  | cons key keys ih =>
      cases idx with
      | zero =>
          rw [List.getElem?_cons_zero, Option.some.injEq] at found
          rw [List.set_cons_zero, List.map_cons, List.map_cons, List.sum_cons, List.sum_cons, found,
            zero]
          omega
      | succ idx =>
          rw [List.getElem?_cons_succ] at found
          rw [List.set_cons_succ, List.map_cons, List.map_cons, List.sum_cons, List.sum_cons,
            ih found]
          omega

/-- The keys have their turns in any order, and the last one sends the number of all. -/
theorem runKeys_counts (works : env.Works) (fuel : Nat) (order : List Nat) (s : CommandRun D)
    (some : order ≠ []) (nodup : order.Nodup) (within : ∀ i ∈ order, i < s.keys.length)
    (fresh : ∀ i ∈ order, ∀ ctx, s.keys[i]? = Option.some ctx → ctx.ival = 0)
    (count : s.keyDone + order.length = s.keys.length) :
    ∃ s', runKeys (cmd.handler env) catg arg0 (order.length + fuel) order s = Option.some s' ∧
      s'.out = s.out ++ sendInt (s.ival +
        tally cmd.deletes (isThere env s.db) ((executed s.keys order).map Prod.snd)) ∧
      ∀ h, live env (s'.db h) =
        if cmd.deletes ∧ h ∈ (executed s.keys order).map Prod.snd then none
        else live env (s.db h) := by
  induction order generalizing s with
  | nil => exact absurd rfl some
  | cons idx order ih =>
      have inside : idx < s.keys.length := within idx List.mem_cons_self
      obtain ⟨ctx, found⟩ : ∃ ctx, s.keys[idx]? = Option.some ctx :=
        ⟨_, List.getElem?_eq_getElem inside⟩
      obtain ⟨status, quiet, number, settled⟩ := cmd.run_works works catg (s.db ctx.hash)
      have handled : cmd.handler env s ctx (s.db ctx.hash) = (cmd.run env (s.db ctx.hash), none) :=
        rfl
      have total : ∀ s' : CommandRun D,
          s'.keys = s.keys.set idx (ctx.after (cmd.run env (s.db ctx.hash)) none) →
            s'.ival = s.ival + if isThere env s.db ctx.hash then 1 else 0 := by
        intro s' keys
        rw [ival_set keys found (fresh idx List.mem_cons_self ctx found)]
        exact congrArg (s.ival + ·) number
      have there := isThere_update s.db settled
      have left : ∀ h, live env (Function.update s.db ctx.hash
          ((cmd.run env (s.db ctx.hash)).settle catg) h) =
            if cmd.deletes ∧ h = ctx.hash then none else live env (s.db h) := by
        intro h
        by_cases here : h = ctx.hash
        · subst here
          cases deletes : cmd.deletes <;> simp [settled, deletes]
        · simp [here]
      rw [List.length_cons] at count
      rw [executed_cons found, List.map_cons, tally,
        show (idx :: order).length + fuel = order.length + fuel + 1 by
          rw [List.length_cons]; omega, runKeys]
      by_cases last : order = []
      · subst last
        rw [turn_success found handled (by rw [status]; decide) (Or.inl (by simpa using count))]
        refine ⟨_, rfl, ?_, ?_⟩
        · simp only [status, quiet, sendStatus, List.append_nil]
          have sum := total
            { s with keys := s.keys.set idx (ctx.after (cmd.run env (s.db ctx.hash)) none) } rfl
          refine congrArg (fun n => s.out ++ sendInt n) (sum.trans ?_)
          simp only [executed, List.filterMap_nil, List.map_nil, tally, Int.add_zero]
          rfl
        · intro h
          rw [left]
          simp [executed, KeyCtx.place]
      · have more : s.keyDone + 1 < s.keys.length := by
          have positive := List.length_pos_iff.mpr last
          omega
        rw [turn_more found handled (by rw [status]; decide) more (by rw [status]; decide)]
        obtain ⟨s', ran, out, behind⟩ := ih
          { db := Function.update s.db ctx.hash ((cmd.run env (s.db ctx.hash)).settle catg)
            keys := s.keys.set idx (ctx.after (cmd.run env (s.db ctx.hash)) none)
            keyDone := s.keyDone + 1, out := s.out ++ (cmd.run env (s.db ctx.hash)).out }
          last nodup.of_cons
          (by
            intro i member
            rw [List.length_set]
            exact within i (List.mem_cons_of_mem _ member))
          (by
            intro i member key isKey
            have other : idx ≠ i := fun same => (List.nodup_cons.mp nodup).1 (same ▸ member)
            rw [List.getElem?_set_ne other] at isKey
            exact fresh i (List.mem_cons_of_mem _ member) key isKey)
          (by rw [List.length_set]; show s.keyDone + 1 + order.length = s.keys.length; omega)
        have samePlace : (ctx.after (cmd.run env (s.db ctx.hash)) none).place = ctx.place := rfl
        have places : executed (s.keys.set idx (ctx.after (cmd.run env (s.db ctx.hash)) none)) order =
            executed s.keys order := executed_congr (places_set found samePlace) order
        refine ⟨s', ran, ?_, ?_⟩
        · rw [out, places, quiet, List.append_nil]
          rw [total _ rfl, there, Int.add_assoc]
          rfl
        · intro h
          rw [behind, places]
          simp only [left, List.mem_cons, KeyCtx.place]
          by_cases deletes : cmd.deletes = true
          · by_cases here : h = ctx.hash
            · simp [deletes, here]
            · simp only [deletes, here, true_and, false_or, if_false]
          · simp [deletes]

/-- A list is read index by index. -/
theorem filterMap_range_getElem? {α : Type} (l : List α) :
    ((List.range l.length).filterMap fun i => l[i]?) = l := by
  induction l using List.reverseRecOn with
  | nil => rfl
  | append_singleton l a ih =>
      have front : ((List.range l.length).filterMap fun i => (l ++ [a])[i]?) = l := by
        refine (List.filterMap_congr fun i member => ?_).trans ih
        rw [List.getElem?_append_left (List.mem_range.mp member)]
      rw [List.length_append, List.length_singleton, List.range_succ, List.filterMap_append, front]
      simp

/-- All keys are executed. -/
theorem executed_perm {keys : List KeyCtx} {order : List Nat}
    (all : order.Perm (List.range keys.length)) :
    ((executed keys order).map Prod.snd).Perm (keys.map KeyCtx.hash) := by
  have whole := filterMap_range_getElem? (keys.map KeyCtx.place)
  rw [List.length_map] at whole
  have perm : (executed keys order).Perm (keys.map KeyCtx.place) := by
    rw [← whole]
    exact all.filterMap _
  have hashes := perm.map Prod.snd
  rw [List.map_map] at hashes
  exact hashes

/-- A key that is named twice. -/
def twice : List KeyCtx :=
  [{ argn := 1, hash := ⟨1, 1⟩ }, { argn := 2, hash := ⟨1, 1⟩ }]

/-- A table with one string for every key. -/
def fullTable (_ : KeyHash) : Option (Entry Bytes) := some ⟨.string, text "a", 0⟩

end Count

end Raids.Key
