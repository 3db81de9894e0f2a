import Raids.Construction.Memcached.Exec

namespace Raids.Memcached

section Expiry

variable (isExpired : Nat → McEntry → Bool)

/-- The command with the fetch of one of the executors. -/
def KeyRun.withFetch (run : KeyRun) (fetch : KeyFetch) : KeyRun := { run with fetch := fetch }

/-- The fetch finds the key. -/
def Finds (fetch : KeyFetch) (env : KvEnv) (readOnly : Bool) (entry : Option McEntry) : Prop :=
  (fetch env readOnly entry).kstatus = some .keyOk

/-- The two executors agree on the presence of a key, a command does the same with either fetch,
and it takes a key that expired for a missing one. -/
structure ExpiryAgrees (run : KeyRun) (entry : Option McEntry) : Prop where
  presence : ∀ readOnly, Finds execKeyFetch run.env readOnly entry ↔
    Finds (redisKeyFetch isExpired) run.env readOnly entry
  same : (run.withFetch execKeyFetch).execKey entry =
    (run.withFetch (redisKeyFetch isExpired)).execKey entry
  expired : ∀ e, entry = some e → isExpired run.env.currentStamp e = true →
    run.env.fetched = true →
      (run.withFetch execKeyFetch).execKey entry = (run.withFetch execKeyFetch).execKey none

variable {isExpired} {env : KvEnv} {entry : Option McEntry}

/-- A key that has not expired is fetched alike. -/
theorem redisKeyFetch_live (live : ∀ e, entry = some e → isExpired env.currentStamp e = false)
    (readOnly : Bool) :
    redisKeyFetch isExpired env readOnly entry = execKeyFetch env readOnly entry := by
  have notAny : entry.any (isExpired env.currentStamp) = false := by
    cases entry with
    | none => rfl
    | some e => exact live e rfl
  simp [redisKeyFetch, execKeyFetch, notAny]

/-- Where the table fails, the expiry does not matter. -/
theorem redisKeyFetch_unfetched (unfetched : env.fetched = false) (readOnly : Bool) :
    redisKeyFetch isExpired env readOnly entry = execKeyFetch env readOnly entry := by
  simp [redisKeyFetch, execKeyFetch, unfetched]

section Congr

variable {first second : KeyFetch} {run : KeyRun}

/-- A command depends on the fetches of its key only. -/
theorem execKey_congr
    (same : ∀ readOnly, first run.env readOnly entry = second run.env readOnly entry)
    (keeps : ∀ readOnly, (first run.env readOnly entry).entry = entry) :
    (run.withFetch first).execKey entry = (run.withFetch second).execKey entry := by
  have read : getKeyRead first run.env entry = getKeyRead second run.env entry := by
    rw [getKeyRead, getKeyRead, same]
  have write : getKeyWrite first run.env entry = getKeyWrite second run.env entry := by
    rw [getKeyWrite, getKeyWrite, same]
  have del : (run.withFetch first).delEntry entry = (run.withFetch second).delEntry entry := by
    have kept := keeps true
    rw [same true] at kept
    simp only [KeyRun.delEntry, KeyRun.withFetch, same true]
    cases found : second run.env true entry with
    | mk kstatus other =>
        rw [found] at kept
        have equal : other = entry := kept
        rw [equal]
        cases kstatus with
        | none => rfl
        | some k =>
            cases k with
            | keyOk => simp only [same false]
            | _ => rfl
  have command : (run.withFetch first).execCommand entry =
      (run.withFetch second).execCommand entry := by
    simp only [KeyRun.withFetch] at del
    unfold KeyRun.execCommand
    simp only [KeyRun.withFetch]
    cases run.msg.command
    all_goals
      simp only [KeyRun.execRetr, KeyRun.execBinRetr, KeyRun.execRetrTouch, KeyRun.execBinRetrTouch,
        KeyRun.execTouch, KeyRun.execBinTouch, KeyRun.execIncr, KeyRun.execBinIncr, KeyRun.store,
        KeyRun.execStore, KeyRun.execBinStore, KeyRun.execDel, KeyRun.execBinDel, read, write, del]
    all_goals rfl
  rw [KeyRun.execKey, KeyRun.execKey, command]
  rfl

/-- The fetch of this executor leaves the entry. -/
theorem execKeyFetch_entry (env : KvEnv) (readOnly : Bool) (entry : Option McEntry) :
    (execKeyFetch env readOnly entry).entry = entry := by
  unfold execKeyFetch
  split <;> rfl

theorem finds_execKeyFetch (env : KvEnv) (readOnly : Bool) (entry : Option McEntry) :
    Finds execKeyFetch env readOnly entry ↔ env.fetched = true ∧ entry.isSome = true := by
  unfold Finds execKeyFetch
  cases env.fetched <;> cases entry <;> cases readOnly <;> simp

/-- An expired key is not found. -/
theorem not_finds_expired {e : McEntry} (passed : isExpired env.currentStamp e = true)
    (readOnly : Bool) : ¬Finds (redisKeyFetch isExpired) env readOnly (some e) := by
  unfold Finds redisKeyFetch
  cases env.fetched <;> cases readOnly <;> simp [passed]

end Congr

end Expiry

/-- The two executors agree on the expiry of a key exactly when it has not passed. -/
theorem memcachedExpiry (isExpired : Nat → McEntry → Bool) (run : KeyRun) (entry : Option McEntry) :
    ExpiryAgrees isExpired run entry ↔
      (run.env.fetched = true → ∀ e, entry = some e →
        isExpired run.env.currentStamp e = false) := by
  constructor
  · intro agrees fetched e present
    by_contra passed
    rw [Bool.not_eq_false] at passed
    have found : Finds execKeyFetch run.env true entry :=
      (finds_execKeyFetch run.env true entry).mpr ⟨fetched, by rw [present]; rfl⟩
    rw [agrees.presence true, present] at found
    exact not_finds_expired passed true found
  · intro condition
    have alike : ∀ readOnly, execKeyFetch run.env readOnly entry =
        redisKeyFetch isExpired run.env readOnly entry := by
      intro readOnly
      cases fetched : run.env.fetched with
      | false => exact (redisKeyFetch_unfetched fetched readOnly).symm
      | true => exact (redisKeyFetch_live (condition fetched) readOnly).symm
    apply ExpiryAgrees.mk
    · intro readOnly
      rw [Finds, Finds, alike readOnly]
    · exact execKey_congr alike fun readOnly => execKeyFetch_entry run.env readOnly entry
    · intro e present passed fetched
      rw [condition fetched e present] at passed
      cases passed

/-- A key whose stamp is behind the clock has expired. -/
def stampPassed (currentStamp : Nat) (e : McEntry) : Bool := e.exp ≠ 0 ∧ e.exp < currentStamp

/-- A `GET` returns the value of a key that expired. -/
theorem not_memcachedExpiry_get : ¬∀ run entry, ExpiryAgrees stampPassed run entry := by
  intro agrees
  have get := agrees
    { fetch := execKeyFetch, env := { currentStamp := 10 }, key := text "k"
      msg := { MemcachedMsg.fresh with command := .get, keycnt := 1 } }
    (some { type := .string, data := text "v", exp := 5 })
  have same := get.expired _ rfl (by decide) rfl
  exact absurd same (by decide)

end Raids.Memcached
