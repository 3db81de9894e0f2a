import Raids.Construction.Memcached.Exec
import Raids.Construction.Memcached.Continue

namespace Raids.Memcached

/-- The table finds its keys and has memory, and so has the output. -/
structure KvEnv.Works (env : KvEnv) : Prop where
  fetched : env.fetched = true
  valued : env.valued = true
  resized : env.resized = true
  validated : env.validated = true
  saved : env.saved = true
  room : env.room = true

section Fetch

variable {env : KvEnv}

/-- Nothing is lost that is sent. -/
theorem KvEnv.Works.send (works : env.Works) (bytes : Bytes) : env.send bytes = bytes := by
  rw [KvEnv.send, works.room, if_pos rfl]

/-- A write of a missing key meets a new one. -/
theorem getKeyWrite_none (works : env.Works) :
    getKeyWrite execKeyFetch env none = ⟨some .keyIsNew, none⟩ := by
  rw [getKeyWrite, execKeyFetch, works.fetched]
  rfl

/-- A write of a string meets it. -/
theorem getKeyWrite_string (works : env.Works) {e : McEntry} (type : e.type = .string) :
    getKeyWrite execKeyFetch env (some e) = ⟨some .keyOk, some e⟩ := by
  rw [getKeyWrite, execKeyFetch, works.fetched, if_pos rfl]
  simp [checkType, type]

/-- A write of a key of another type meets no value. -/
theorem getKeyWrite_other (works : env.Works) {e : McEntry} (type : e.type = .other) :
    getKeyWrite execKeyFetch env (some e) = ⟨some .keyNoValue, some e⟩ := by
  rw [getKeyWrite, execKeyFetch, works.fetched, if_pos rfl]
  simp [checkType, type]

/-- A write of a key without a type counts as new. -/
theorem getKeyWrite_noData (works : env.Works) {e : McEntry} (type : e.type = .noData) :
    getKeyWrite execKeyFetch env (some e) = ⟨some .keyIsNew, some e⟩ := by
  rw [getKeyWrite, execKeyFetch, works.fetched, if_pos rfl]
  simp [checkType, type]

/-- A read of a missing key misses. -/
theorem getKeyRead_none (works : env.Works) :
    getKeyRead execKeyFetch env none = ⟨some .keyNotFound, none⟩ := by
  rw [getKeyRead, execKeyFetch, works.fetched]
  rfl

/-- A read of a string meets it. -/
theorem getKeyRead_string (works : env.Works) {e : McEntry} (type : e.type = .string) :
    getKeyRead execKeyFetch env (some e) = ⟨some .keyOk, some e⟩ := by
  rw [getKeyRead, execKeyFetch, works.fetched, if_pos rfl]
  simp [checkType, type]

/-- A read of a key of another type meets no value. -/
theorem getKeyRead_other (works : env.Works) {e : McEntry} (type : e.type = .other) :
    getKeyRead execKeyFetch env (some e) = ⟨some .keyNoValue, some e⟩ := by
  rw [getKeyRead, execKeyFetch, works.fetched, if_pos rfl]
  simp [checkType, type]

/-- A read of a key without a type misses. -/
theorem getKeyRead_noData (works : env.Works) {e : McEntry} (type : e.type = .noData) :
    getKeyRead execKeyFetch env (some e) = ⟨some .keyNotFound, some e⟩ := by
  rw [getKeyRead, execKeyFetch, works.fetched, if_pos rfl]
  simp [checkType, type]

end Fetch

/-- The end line. -/
def endLine : Bytes := sendString (text "END")

namespace MemcachedExec

section Turn

variable {s : MemcachedExec} {env : KvEnv} {status : MemcachedStatus}

/-- A success in front of the last key goes on. -/
theorem skipKey_more (left : s.keyDone + 1 < s.keyCnt) (success : memcachedStatusSuccess status) :
    s.skipKey env status = (.continue, { s with keyDone := s.keyDone + 1 }) := by
  simp only [skipKey, keyCnt] at left ⊢
  rw [if_pos left, if_pos success]

/-- A failure in front of the last key is reported and takes the turns of the others. -/
theorem skipKey_fails (left : s.keyDone + 1 < s.keyCnt)
    (fails : memcachedStatusSuccess status = false) :
    s.skipKey env status =
      (.continue,
        { s with
          keyDone := s.keyDone + 1
          keys := s.keys.map fun ctx => { ctx with status }
          out := s.out ++ env.send (sendErr s.msg status env.failure) }) := by
  simp only [skipKey, keyCnt] at left ⊢
  rw [if_pos left, if_neg (by rw [fails]; decide)]

/-- The last of several keys sends the saved values when it is a success, and nothing otherwise. -/
theorem skipKey_last (last : s.keyDone + 1 = s.keyCnt) (several : 1 < s.keyCnt) :
    s.skipKey env status =
      (.success,
        { s with
          keyDone := s.keyDone + 1
          out := s.out ++
            if memcachedStatusSuccess status then env.send s.multiGetSend else [] }) := by
  simp only [skipKey, keyCnt] at last several ⊢
  rw [if_neg (by omega), if_pos several]
  cases memcachedStatusSuccess status with
  | false => simp
  | true => rfl

/-- The only key reports its status. -/
theorem skipKey_only (first : s.keyDone = 0) (only : s.keyCnt = 1) :
    s.skipKey env status =
      (.success,
        { s with
          keyDone := 1
          out := s.out ++ env.send (sendErr s.msg status env.failure) }) := by
  simp only [skipKey, keyCnt] at only ⊢
  rw [first, if_neg (by omega), if_neg (by omega)]

variable {fetch : KeyFetch} {before behind : List KeyCtx} {ctx : KeyCtx}

/-- The handler of a key that waits runs. -/
theorem execKeyContinue_waits (keys : s.keys = before ++ ctx :: behind) (waits : ctx.waits) :
    s.execKeyContinue fetch env before.length =
      let run : KeyRun := { fetch, env, msg := s.msg, key := ctx.key, keyCnt := s.keyCnt }
      let result := run.execKey (s.table ctx.key)
      skipKey
        { s with
          table := Function.update s.table ctx.key result.entry
          keys := before ++
            { ctx with
              status := result.status
              part := result.part.orElse fun _ => ctx.part } :: behind
          out := s.out ++ result.out }
        env result.status := by
  have here : s.keys[before.length]? = some ctx := by simp [keys]
  rw [execKeyContinue, here]
  dsimp only
  rw [if_pos waits, keys, List.set_append_right _ _ (Nat.le_refl _), Nat.sub_self,
    List.set_cons_zero]

variable {envs : Nat → KvEnv} {fuel i j : Nat}

/-- Keys that do not wait have no turn. -/
theorem runKeys_idle (idle : ∀ ctx ∈ s.keys, ctx.waits = false) (inside : i < s.keyCnt)
    (below : j < s.keyCnt) (enough : s.keyCnt ≤ j + fuel) :
    runKeys fetch envs fuel i j s = some s := by
  induction fuel generalizing i j with
  | zero => omega
  | succ fuel ih =>
      have rests : s.keys[i]?.any KeyCtx.waits = false := by
        rw [List.getElem?_eq_getElem inside]
        exact idle _ (List.getElem_mem inside)
      rw [runKeys, rests, if_neg (by decide)]
      rcases Nat.lt_or_ge (j + 1) s.keyCnt with more | last
      · rw [if_neg (by omega)]
        apply ih
        · split <;> omega
        · exact more
        · omega
      · rw [if_pos (by omega)]

/-- A turn that goes on is followed by the next key. -/
theorem runKeys_turn {s' : MemcachedExec} (keys : s.keys = before ++ ctx :: behind)
    (waits : ctx.waits) (more : behind ≠ [])
    (turn : s.execKeyContinue fetch (envs before.length) before.length = (.continue, s')) :
    runKeys fetch envs (fuel + 1) before.length j s =
      runKeys fetch envs fuel (before.length + 1) 0 s' := by
  have here : s.keys[before.length]? = some ctx := by simp [keys]
  have count : before.length + 1 ≠ s.keyCnt := by
    have positive := List.length_pos_of_ne_nil more
    rw [keyCnt, keys, List.length_append, List.length_cons]
    omega
  rw [runKeys, here, Option.any_some, if_pos waits, turn]
  dsimp only
  rw [if_neg count]

/-- A turn that ends the request is the last one. -/
theorem runKeys_success {s' : MemcachedExec} (keys : s.keys = before ++ ctx :: behind)
    (waits : ctx.waits)
    (turn : s.execKeyContinue fetch (envs before.length) before.length = (.success, s')) :
    runKeys fetch envs (fuel + 1) before.length j s = some s' := by
  have here : s.keys[before.length]? = some ctx := by simp [keys]
  rw [runKeys, here, Option.any_some, if_pos waits, turn]

end Turn

/-- A request with one key does what the handler of its key does. -/
theorem run_only {fetch : KeyFetch} {envs : Nat → KvEnv} {m : MemcachedMsg} {arg : MemcachedArgs}
    (keys : m.keys = [arg]) (table : McTable) {result : KeyResult}
    (handled : KeyRun.execKey { fetch, env := envs 0, msg := m, key := arg.str }
      (table arg.str) = result) :
    ((setup m table).execRunToCompletion fetch envs).map (fun s => (s.out, s.table)) =
      some (result.out ++ (envs 0).send (sendErr m result.status (envs 0).failure),
        Function.update table arg.str result.entry) := by
  have start : (setup m table).keys = [] ++ { key := arg.str } :: [] := by
    rw [setup, keys]
    rfl
  have only : (setup m table).keyCnt = 1 := by
    rw [keyCnt, start]
    rfl
  have waits : (setup m table).keys[0]?.any KeyCtx.waits = true := by
    rw [start]
    rfl
  have turn := @execKeyContinue_waits (setup m table) (envs 0) fetch [] [] _ start rfl
  rw [only] at turn
  dsimp only at turn
  rw [show (setup m table).msg = m from rfl, show (setup m table).table = table from rfl, handled,
    skipKey_only rfl rfl, List.length_nil] at turn
  rw [execRunToCompletion, if_pos only, runKey, waits, if_pos rfl, turn]
  rfl

end MemcachedExec

end Raids.Memcached
