import Raids.Library.LinearProbe
import Raids.Proof.Key.Continue
import Raids.Proof.Key.Set

namespace Raids.Key

open LastWrite

/-- The place of a key in the message and in the table. -/
def KeyCtx.place (ctx : KeyCtx) : Nat × KeyHash := (ctx.argn, ctx.hash)

/-- The keys of a command in the order of their turns. -/
def executed (keys : List KeyCtx) (order : List Nat) : List (Nat × KeyHash) :=
  order.filterMap fun i => (keys.map KeyCtx.place)[i]?

/-- The value behind a key is not empty. -/
def accepted (msg : CommandMsg) (place : Nat × KeyHash) : Bool :=
  (msg.getArgStr (place.1 + 1 : Nat)).isSome

/-- The string that is stored for a key has no expiry. -/
def newString (msg : CommandMsg) (place : Nat × KeyHash) : Option (Entry Bytes) :=
  (msg.getArgStr (place.1 + 1 : Nat)).map fun value => ⟨.string, value, 0⟩

/-- The table behind the stores of some keys. -/
def storeAll (msg : CommandMsg) (db : KeyHash → Option (Entry Bytes))
    (places : List (Nat × KeyHash)) : KeyHash → Option (Entry Bytes) :=
  writeAll Prod.snd (newString msg) db places

/-- The reply of a store. -/
def storedReply (cmd : RedisCmd) : Bytes := if cmd = .msetnxCmd then line ":1" else line "+OK"

section Turn

variable {env : KeyEnv} {cmd : RedisCmd} {msg : CommandMsg} {arg0 : Bytes}
  {handler : Handler Bytes} {s : CommandRun Bytes} {idx : Nat} {ctx : KeyCtx}
  {entry : Option (Entry Bytes)}

/-- A turn keeps the places of the keys. -/
theorem places_set {keys : List KeyCtx} {ctx' : KeyCtx} (found : keys[idx]? = some ctx)
    (same : ctx'.place = ctx.place) :
    (keys.set idx ctx').map KeyCtx.place = keys.map KeyCtx.place := by
  rw [List.map_set, same]
  apply List.ext_getElem?
  intro i
  rw [List.getElem?_set]
  split
  · next here =>
      subst here
      obtain ⟨inside, isCtx⟩ := List.getElem?_eq_some_iff.mp found
      simp [inside, isCtx]
  · rfl

theorem executed_congr {keys keys' : List KeyCtx}
    (same : keys'.map KeyCtx.place = keys.map KeyCtx.place) (order : List Nat) :
    executed keys' order = executed keys order := by
  rw [executed, executed, same]

theorem executed_cons {keys : List KeyCtx} (found : keys[idx]? = some ctx) (order : List Nat) :
    executed keys (idx :: order) = ctx.place :: executed keys order := by
  rw [executed, executed, List.filterMap_cons, List.getElem?_map, found, Option.map_some]

/-- A value that is not accepted ends the command. -/
theorem turn_refused (found : s.keys[idx]? = some ctx)
    (handled : handler s ctx (s.db ctx.hash) =
      (doSetValue env cmd msg (ctx.argn + 1) {} entry, none))
    (refused : accepted msg ctx.place = false) :
    ∃ keys, execKeyContinue handler .string arg0 idx s =
      (.success,
        { db := Function.update s.db ctx.hash entry
          keys := keys
          keyDone := s.keyDone + 1
          out := s.out ++ sendErrString arg0 .errBadArgs }) := by
  have noValue : msg.getArgStr (ctx.argn + 1 : Nat) = none := by
    simpa [accepted, KeyCtx.place] using refused
  rw [doSetValue_refused noValue] at handled
  rw [turn_success found handled (show ExecStatus.errBadArgs ≠ .execDepends by decide)
    (Or.inr (show ExecStatus.execBlocked.ctorIdx < ExecStatus.errBadArgs.ctorIdx by decide))]
  apply Exists.intro (s.keys.set idx (ctx.after (unfetched .errBadArgs entry) none))
  simp [unfetched, KeyRun.settle, sendStatus]

/-- A value is stored, and the last store sends the reply. -/
theorem turn_stores (works : env.Works) (found : s.keys[idx]? = some ctx)
    (handled : handler s ctx (s.db ctx.hash) =
      (doSetValue env cmd msg (ctx.argn + 1) {} entry, none))
    (within : s.keyDone < s.keys.length) (isAccepted : accepted msg ctx.place) :
    ∃ ctx' : KeyCtx, ctx'.place = ctx.place ∧ ctx'.dep = ctx.dep ∧
      execKeyContinue handler .string arg0 idx s =
        (if s.keyDone + 1 < s.keys.length then .more else .success,
          { db := Function.update s.db ctx.hash (newString msg ctx.place)
            keys := s.keys.set idx ctx'
            keyDone := s.keyDone + 1
            out := s.out ++ if s.keyDone + 1 < s.keys.length then [] else storedReply cmd }) := by
  obtain ⟨value, given⟩ : ∃ value, msg.getArgStr (ctx.argn + 1 : Nat) = some value :=
    Option.isSome_iff_exists.mp isAccepted
  obtain ⟨status, noOut, settled⟩ := @doSetValue_stores env cmd _ _ _ works given entry
  have stored : newString msg ctx.place = some ⟨.string, value, 0⟩ := by
    show (msg.getArgStr (ctx.argn + 1 : Nat)).map _ = _
    rw [given, Option.map_some]
  have goesOn : storedStatus cmd ≠ .execDepends ∧
      (storedStatus cmd).ctorIdx ≤ ExecStatus.execBlocked.ctorIdx := by
    rw [storedStatus]
    split <;> decide
  have reply : ∀ ival, sendStatus arg0 ival (storedStatus cmd) = storedReply cmd := by
    intro ival
    rw [storedStatus, storedReply]
    split <;> rfl
  apply Exists.intro (ctx.after (doSetValue env cmd msg (ctx.argn + 1) {} entry) none)
  apply And.intro rfl
  apply And.intro rfl
  by_cases left : s.keyDone + 1 < s.keys.length
  · rw [turn_more found handled (by rw [status]; exact goesOn.1) left (by rw [status]; exact goesOn.2)]
    simp only [if_pos left, noOut, settled, stored]
  · rw [turn_success found handled (by rw [status]; exact goesOn.1) (Or.inl (by omega))]
    simp only [if_neg left, noOut, settled, stored, status, reply, List.append_nil]

end Turn

section Run

variable {env : KeyEnv} {cmd : RedisCmd} {msg : CommandMsg} {handler : Handler Bytes} {dep : Nat}

/-- The keys are stored one behind the other up to the first value that is not accepted. -/
theorem runKeys_stores (works : env.Works) (arg0 : Bytes)
    (stores : ∀ (s : CommandRun Bytes) (ctx : KeyCtx), ctx.dep = dep →
      handler s ctx (s.db ctx.hash) =
        (doSetValue env cmd msg (ctx.argn + 1) {} (s.db ctx.hash), none))
    (fuel : Nat) (order : List Nat) (s : CommandRun Bytes) (some : order ≠ [])
    (within : ∀ i ∈ order, i < s.keys.length) (deps : ∀ ctx ∈ s.keys, ctx.dep = dep)
    (count : s.keyDone + order.length = s.keys.length) :
    ∃ s', runKeys handler .string arg0 (order.length + fuel) order s = Option.some s' ∧
      if ∀ place ∈ executed s.keys order, accepted msg place then
        s'.out = s.out ++ storedReply cmd ∧
          s'.db = storeAll msg s.db (executed s.keys order)
      else
        s'.out = s.out ++ sendErrString arg0 .errBadArgs ∧
          s'.db = storeAll msg s.db ((executed s.keys order).takeWhile (accepted msg)) := by
  induction order generalizing s with
  | nil => exact absurd rfl some
  | cons idx order ih =>
      have inside : idx < s.keys.length := within idx List.mem_cons_self
      obtain ⟨ctx, found⟩ : ∃ ctx, s.keys[idx]? = Option.some ctx :=
        ⟨_, List.getElem?_eq_getElem inside⟩
      have handled := stores s ctx (deps ctx (List.mem_of_getElem? found))
      rw [List.length_cons] at count
      rw [executed_cons found, List.length_cons, show order.length + 1 + fuel =
        order.length + fuel + 1 by omega, runKeys]
      by_cases isAccepted : accepted msg ctx.place
      · obtain ⟨ctx', samePlace, sameDep, turn⟩ :=
          @turn_stores env cmd msg arg0 handler s idx ctx _ works found handled (by omega) isAccepted
        have places := places_set found samePlace
        rw [turn]
        by_cases left : s.keyDone + 1 < s.keys.length
        · simp only [if_pos left, List.append_nil]
          obtain ⟨s', ran, result⟩ := ih
            { db := Function.update s.db ctx.hash (newString msg ctx.place)
              keys := s.keys.set idx ctx', keyDone := s.keyDone + 1, out := s.out }
            (by intro empty; rw [empty, List.length_nil] at count; omega)
            (by
              intro i member
              rw [List.length_set]
              exact within i (List.mem_cons_of_mem _ member))
            (by
              intro key member
              obtain old | rfl := List.mem_or_eq_of_mem_set member
              · exact deps key old
              · rw [sameDep]
                exact deps ctx (List.mem_of_getElem? found))
            (by rw [List.length_set]; show s.keyDone + 1 + order.length = s.keys.length; omega)
          apply Exists.intro s'
          apply And.intro ran
          simp only [executed_congr places] at result
          simp only [List.forall_mem_cons, isAccepted, true_and, List.takeWhile_cons_of_pos]
          exact result
        · have empty : order = [] := List.eq_nil_of_length_eq_zero (by omega)
          subst empty
          simp only [if_neg left]
          refine ⟨_, rfl, ?_⟩
          rw [if_pos (by simpa [executed] using isAccepted)]
          exact ⟨rfl, rfl⟩
      · have refused : accepted msg ctx.place = false := by simpa using isAccepted
        obtain ⟨keys, turn⟩ := @turn_refused env cmd msg arg0 handler s idx ctx _ found handled refused
        rw [turn]
        refine ⟨_, rfl, ?_⟩
        rw [if_neg (by simp [isAccepted]), List.takeWhile_cons_of_neg isAccepted]
        exact ⟨rfl, Function.update_eq_self _ _⟩

/-- The table holds the same live entries. -/
def Unchanged (env : KeyEnv) (db db' : KeyHash → Option (Entry Bytes)) : Prop :=
  ∀ h, live env (db' h) = live env (db h)

theorem Unchanged.update {db db' : KeyHash → Option (Entry Bytes)} (same : Unchanged env db db')
    {h : KeyHash} {entry : Option (Entry Bytes)} (found : live env (db h) = entry) :
    Unchanged env db (Function.update db' h entry) := by
  intro k
  by_cases here : k = h
  · rw [here, Function.update_self, ← found, live_live]
  · rw [Function.update_of_ne here]
    exact same k

/-- The first turns of the keys end with a key that is there, or all keys wait for their stores. -/
theorem runKeys_tests (works : env.Works) (msg : CommandMsg) (arg0 : Bytes)
    (db : KeyHash → Option (Entry Bytes)) (fuel : Nat) (rest waiting : List Nat)
    (s : CommandRun Bytes) (same : Unchanged env db s.db) (nodup : rest.Nodup)
    (within : ∀ i ∈ rest, i < s.keys.length)
    (deps : ∀ i ctx, s.keys[i]? = some ctx → ctx.dep = if i ∈ rest then 0 else 1)
    (start : s.keyDone = 0) (several : 1 < s.keys.length) (quiet : s.out = []) :
    if ∀ place ∈ executed s.keys rest, live env (db place.2) = none then
      ∃ s', runKeys (execMsetnx env msg) .string arg0 (rest.length + fuel) (rest ++ waiting) s =
          runKeys (execMsetnx env msg) .string arg0 fuel (waiting ++ rest) s' ∧
        Unchanged env db s'.db ∧ s'.keys.map KeyCtx.place = s.keys.map KeyCtx.place ∧
        (∀ ctx ∈ s'.keys, ctx.dep = 1) ∧ s'.keyDone = 0 ∧ s'.out = []
    else
      ∃ s', runKeys (execMsetnx env msg) .string arg0 (rest.length + fuel) (rest ++ waiting) s =
          some s' ∧
        s'.out = line "*0" ∧ Unchanged env db s'.db := by
  induction rest generalizing waiting s with
  | nil =>
      rw [if_pos (by simp [executed])]
      refine ⟨s, by simp, same, rfl, ?_, start, quiet⟩
      intro ctx member
      obtain ⟨i, found⟩ := List.mem_iff_getElem?.mp member
      simpa using deps i ctx found
  | cons idx rest ih =>
      have inside : idx < s.keys.length := within idx List.mem_cons_self
      obtain ⟨ctx, found⟩ : ∃ ctx, s.keys[idx]? = some ctx := ⟨_, List.getElem?_eq_getElem inside⟩
      have first : ctx.dep = 0 := by simpa using deps idx ctx found
      rw [executed_cons found, List.length_cons, List.cons_append, show rest.length + 1 + fuel =
        rest.length + fuel + 1 by omega, runKeys]
      simp only [List.forall_mem_cons]
      have fetched := execKeyFetch_works works true (s.db ctx.hash)
      rw [same ctx.hash] at fetched
      cases isLive : live env (db ctx.hash) with
      | some e =>
          rw [isLive] at fetched
          rw [if_neg (by simp [KeyCtx.place, isLive])]
          have turn := @turn_success _ (execMsetnx env msg) .string arg0 s ctx
            { (⟨some .keyOk, some e, false, e.type⟩ : Fetched Bytes).stop .execAbortSendZero with
                isReadOnly := true } none idx found
            (by simp [execMsetnx, first, fetched])
            (show ExecStatus.execAbortSendZero ≠ .execDepends by decide)
            (Or.inr (show ExecStatus.execBlocked.ctorIdx < ExecStatus.execAbortSendZero.ctorIdx by
              decide))
          rw [turn]
          refine ⟨_, rfl, ?_, ?_⟩
          · simp [Fetched.stop, quiet, sendStatus]
          · exact same.update isLive
      | none =>
          rw [isLive] at fetched
          have turn := @turn_depends _ (execMsetnx env msg) .string arg0 s ctx
            { (⟨some .keyNotFound, none, false, .noData⟩ : Fetched Bytes).stop .execDepends with
                isReadOnly := true } none idx found
            (by simp [execMsetnx, first, fetched, start, several]) rfl rfl
          rw [turn]
          have samePlace : ∀ run : KeyRun Bytes,
              ({ ctx.after run none with dep := ctx.dep + 1 } : KeyCtx).place = ctx.place ∧
              ({ ctx.after run none with dep := ctx.dep + 1 } : KeyCtx).dep = 1 :=
            fun run => ⟨rfl, by rw [first]⟩
          specialize samePlace ({ (⟨some .keyNotFound, none, false, .noData⟩ : Fetched Bytes).stop
            .execDepends with isReadOnly := true } : KeyRun Bytes)
          revert samePlace
          generalize ({ ctx.after ({ (⟨some .keyNotFound, none, false, .noData⟩ : Fetched Bytes).stop
            .execDepends with isReadOnly := true } : KeyRun Bytes) none with
              dep := ctx.dep + 1 } : KeyCtx) = ctx'
          rintro ⟨samePlace, waits⟩
          have places := places_set found samePlace
          have next := ih (waiting ++ [idx])
            { s with
                db := Function.update s.db ctx.hash none
                keys := s.keys.set idx ctx'
                out := s.out ++ [] }
            (same.update isLive) nodup.of_cons
            (by
              intro i member
              rw [List.length_set]
              exact within i (List.mem_cons_of_mem _ member))
            (by
              intro i key isKey
              rw [List.getElem?_set] at isKey
              by_cases here : idx = i
              · rw [if_pos here, if_pos (here ▸ inside), Option.some.injEq] at isKey
                rw [← isKey, waits, if_neg (here ▸ (List.nodup_cons.mp nodup).1)]
              · rw [if_neg here] at isKey
                rw [deps i key isKey]
                simp [Ne.symm here])
            start (by rw [List.length_set]; exact several) (by rw [quiet]; rfl)
          simp only [executed_congr places, ← List.append_assoc] at next
          simp only [KeyCtx.place, isLive, true_and]
          split at next
          · next dead =>
              obtain ⟨s', ran, same', places', rest'⟩ := next
              rw [if_pos dead]
              refine ⟨s', ?_, same', places'.trans places, rest'⟩
              simpa [Fetched.stop] using ran
          · next present =>
              rw [if_neg present]
              simpa [Fetched.stop] using next

/-- All keys have their turns. -/
theorem mem_executed {keys : List KeyCtx} {order : List Nat}
    (all : order.Perm (List.range keys.length)) (place : Nat × KeyHash) :
    place ∈ executed keys order ↔ ∃ ctx ∈ keys, ctx.place = place := by
  simp only [executed, List.mem_filterMap, List.getElem?_map, Option.map_eq_some_iff, all.mem_iff,
    List.mem_range]
  apply Iff.intro
  · rintro ⟨i, _, ctx, found, isPlace⟩
    exact ⟨ctx, List.mem_of_getElem? found, isPlace⟩
  · rintro ⟨ctx, member, isPlace⟩
    obtain ⟨i, found⟩ := List.mem_iff_getElem?.mp member
    exact ⟨i, (List.getElem?_eq_some_iff.mp found).1, ctx, found, isPlace⟩

/-- What the stores of a command leave. -/
def StoresUpTo (cmd : RedisCmd) (msg : CommandMsg) (arg0 : Bytes)
    (db : KeyHash → Option (Entry Bytes)) (places : List (Nat × KeyHash))
    (s : CommandRun Bytes) : Prop :=
  ((∀ place ∈ places, accepted msg place) →
      s.out = storedReply cmd ∧ s.db = storeAll msg db places) ∧
    ((¬∀ place ∈ places, accepted msg place) →
      s.out = sendErrString arg0 .errBadArgs ∧
        s.db = storeAll msg db (places.takeWhile (accepted msg)))

/-- A single key is tested and stored in one turn. -/
theorem execMsetnx_single (works : env.Works) (msg : CommandMsg) (arg0 : Bytes)
    (db : KeyHash → Option (Entry Bytes)) {ctx : KeyCtx} (first : ctx.dep = 0) (fuel : Nat) :
    if live env (db ctx.hash) = none then
      ∃ s', runKeys (execMsetnx env msg) .string arg0 (fuel + 1) [0] { db := db, keys := [ctx] } =
          some s' ∧
        StoresUpTo .msetnxCmd msg arg0 (Function.update db ctx.hash none) [ctx.place] s'
    else
      ∃ s', runKeys (execMsetnx env msg) .string arg0 (fuel + 1) [0] { db := db, keys := [ctx] } =
          some s' ∧
        s'.out = line "*0" ∧ Unchanged env db s'.db := by
  have fetched := execKeyFetch_works works true (db ctx.hash)
  rw [runKeys]
  cases isLive : live env (db ctx.hash) with
  | some e =>
      rw [isLive] at fetched
      rw [if_neg (by simp)]
      have turn := @turn_success _ (execMsetnx env msg) .string arg0
        { db := db, keys := [ctx] } ctx
        { (⟨some .keyOk, some e, false, e.type⟩ : Fetched Bytes).stop .execAbortSendZero with
            isReadOnly := true } none 0 rfl
        (by simp [execMsetnx, first, fetched])
        (show ExecStatus.execAbortSendZero ≠ .execDepends by decide)
        (Or.inr (show ExecStatus.execBlocked.ctorIdx < ExecStatus.execAbortSendZero.ctorIdx by
          decide))
      rw [turn]
      refine ⟨_, rfl, rfl, ?_⟩
      exact Unchanged.update (fun _ => rfl) isLive
  | none =>
      rw [isLive] at fetched
      rw [if_pos rfl]
      have handled : execMsetnx env msg { db := db, keys := [ctx] } ctx (db ctx.hash) =
          (doSetValue env .msetnxCmd msg (ctx.argn + 1) {} none, none) := by
        simp [execMsetnx, first, fetched]
      by_cases isAccepted : accepted msg ctx.place
      · obtain ⟨ctx', -, -, turn⟩ := @turn_stores env .msetnxCmd msg arg0 (execMsetnx env msg)
          { db := db, keys := [ctx] } 0 ctx none works rfl handled Nat.zero_lt_one isAccepted
        rw [turn]
        refine ⟨_, rfl, fun _ => ⟨rfl, ?_⟩, fun refused => absurd ?_ refused⟩
        · exact (Function.update_idem _ _ _).symm
        · simpa using isAccepted
      · have refused : accepted msg ctx.place = false := by simpa using isAccepted
        obtain ⟨keys, turn⟩ := @turn_refused env .msetnxCmd msg arg0 (execMsetnx env msg)
          { db := db, keys := [ctx] } 0 ctx none rfl handled refused
        rw [turn]
        refine ⟨_, rfl, fun all => absurd (all _ List.mem_cons_self) isAccepted, fun _ => ⟨rfl, ?_⟩⟩
        rw [List.takeWhile_cons_of_neg isAccepted]
        rfl

/-- A key that is there ends the command, and otherwise all keys are stored. -/
theorem execMsetnx_run (works : env.Works) (msg : CommandMsg) (arg0 : Bytes)
    (db : KeyHash → Option (Entry Bytes)) {keys : List KeyCtx} (some : keys ≠ [])
    (first : ∀ ctx ∈ keys, ctx.dep = 0) {order : List Nat}
    (all : order.Perm (List.range keys.length)) :
    ∃ s', runKeys (execMsetnx env msg) .string arg0 (2 * keys.length) order
        { db := db, keys := keys } = Option.some s' ∧
      ((∀ ctx ∈ keys, live env (db ctx.hash) = none) →
        ∃ db', Unchanged env db db' ∧
          StoresUpTo .msetnxCmd msg arg0 db' (executed keys order) s') ∧
      ((¬∀ ctx ∈ keys, live env (db ctx.hash) = none) →
        s'.out = line "*0" ∧ Unchanged env db s'.db) := by
  have length : order.length = keys.length := by rw [all.length_eq, List.length_range]
  have dead : (∀ place ∈ executed keys order, live env (db place.2) = none) ↔
      ∀ ctx ∈ keys, live env (db ctx.hash) = none := by
    simp only [mem_executed all]
    simp [KeyCtx.place]
  rw [← dead]
  match keys, some, first, all, length, dead with
  | [ctx], _, first, all, _, _ =>
      obtain rfl : order = [0] := List.perm_singleton.mp all
      have single := execMsetnx_single works msg arg0 db (first ctx List.mem_cons_self) 1
      split at single
      · next isDead =>
          obtain ⟨s', ran, stores⟩ := single
          refine ⟨s', ran, fun _ => ⟨_, ?_, stores⟩, fun present => absurd ?_ present⟩
          · exact Unchanged.update (fun _ => rfl) isDead
          · simpa [executed, KeyCtx.place] using isDead
      · next present =>
          obtain ⟨s', ran, result⟩ := single
          refine ⟨s', ran, fun isDead => absurd ?_ present, fun _ => result⟩
          simpa [executed, KeyCtx.place] using isDead
  | ctx :: other :: rest, _, first, all, length, _ =>
      obtain ⟨keys, isKeys⟩ : ∃ keys, keys = ctx :: other :: rest := ⟨_, rfl⟩
      have several : 1 < keys.length := by simp [isKeys]
      rw [← isKeys] at first all length ⊢
      have tests := runKeys_tests works msg arg0 db keys.length order []
        { db := db, keys := keys } (fun _ => rfl) (all.nodup_iff.mpr List.nodup_range)
        (fun i member => List.mem_range.mp (all.mem_iff.mp member))
        (by
          intro i key isKey
          rw [first key (List.mem_of_getElem? isKey), if_pos]
          rw [all.mem_iff, List.mem_range]
          exact (List.getElem?_eq_some_iff.mp isKey).1)
        rfl several rfl
      rw [List.append_nil, List.nil_append, length, ← two_mul] at tests
      split at tests
      · next isDead =>
          obtain ⟨s, ran, same, places, deps, start, quiet⟩ := tests
          have sameLength : s.keys.length = keys.length := by
            rw [← List.length_map, places, List.length_map]
          obtain ⟨s', stored, result⟩ := @runKeys_stores env .msetnxCmd msg (execMsetnx env msg) 1
            works arg0 (by intro s ctx second; simp [execMsetnx, second]) 0 order s
            (by rintro rfl; rw [List.length_nil] at length; omega)
            (fun i member => by
              rw [sameLength]
              exact List.mem_range.mp (all.mem_iff.mp member))
            deps (by omega)
          rw [executed_congr places, quiet, List.nil_append, List.nil_append] at result
          rw [Nat.add_zero, length] at stored
          refine ⟨s', ran.trans stored, fun _ => ⟨s.db, same, ?_⟩, fun present =>
            absurd isDead present⟩
          split at result
          · next isAccepted => exact ⟨fun _ => result, fun refused => absurd isAccepted refused⟩
          · next refused => exact ⟨fun isAccepted => absurd isAccepted refused, fun _ => result⟩
      · next present =>
          obtain ⟨s', ran, result⟩ := tests
          exact ⟨s', ran, fun isDead => absurd isDead present, fun _ => result⟩

end Run

end Raids.Key
