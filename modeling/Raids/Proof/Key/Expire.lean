import Raids.Construction.Key.Expire
import Raids.Proof.Key.Add
import Raids.Proof.Key.Set

namespace Raids.Key

/-- A stamp before the clock is over, one behind it is not, and zero never is. -/
structure KeyEnv.Clock (env : KeyEnv) : Prop where
  bounded : env.currentStamp < 2 ^ 64
  never : env.isExpired 0 = false
  past : ∀ exp, exp ≠ 0 → exp < env.currentStamp → env.isExpired exp = true
  future : ∀ exp, env.currentStamp < exp → env.isExpired exp = false

section Report

variable {D : Type} {env : KeyEnv} {entry : Option (Entry D)} {e : Entry D} {units d : Nat}

/-- The number that a key tells of its time to live. -/
def ttlValue (env : KeyEnv) (units : Nat) (entry : Option (Entry D)) : Int :=
  (live env entry).elim (-2) fun e =>
    if e.exp ≠ 0 then (toInt64 ((e.exp : Int) - env.currentStamp)).tdiv units else -1

theorem doPttl_reply (works : env.Works) (units : Nat) (entry : Option (Entry D)) (arg0 : Bytes) :
    (doPttl env units entry).reply arg0 = sendInt (ttlValue env units entry) := by
  rw [doPttl, ttlValue, execKeyFetch_works works]
  cases live env entry with
  | none => rfl
  | some e => rfl

/-- A key tells its time to live in seconds and in milliseconds. -/
def Reports (env : KeyEnv) (arg0 : Bytes) (entry : Option (Entry D)) (d : Nat) : Prop :=
  (execTtl env entry).reply arg0 = sendInt (d / secondNs : Nat) ∧
    (execPttl env entry).reply arg0 = sendInt (d / millisecondNs : Nat)

theorem reports_iff (works : env.Works) (arg0 : Bytes) :
    Reports env arg0 entry d ↔
      ttlValue env secondNs entry = (d / secondNs : Nat) ∧
        ttlValue env millisecondNs entry = (d / millisecondNs : Nat) := by
  rw [Reports, execTtl, execPttl, doPttl_reply works, doPttl_reply works]
  exact and_congr ⟨sendInt_injective, congrArg sendInt⟩ ⟨sendInt_injective, congrArg sendInt⟩

/-- A stamp behind the clock by less than half of the range is told. -/
theorem ttlValue_later (clock : env.Clock) (later : env.currentStamp < e.exp)
    (near : e.exp - env.currentStamp < 2 ^ 63) :
    ttlValue env units (some e) = ((e.exp - env.currentStamp) / units : Nat) := by
  have isLive : live env (some e) = some e :=
    Option.filter_some_pos (by rw [clock.future e.exp later]; rfl)
  have difference : (e.exp : Int) - env.currentStamp = (e.exp - env.currentStamp : Nat) := by omega
  rw [ttlValue, isLive, Option.elim_some, if_pos (by omega), difference,
    toInt64_of_inInt64 ⟨by omega, by omega⟩, Int.ofNat_tdiv]

/-- The upper half of the range is negative. -/
theorem toInt64_upper {v : Int} (lower : 2 ^ 63 ≤ v) (upper : v < 2 ^ 64) :
    toInt64 v = v - 2 ^ 64 := by
  simp only [toInt64, Int.bmod]
  split <;> omega

/-- No other stamp is told as a positive number. -/
theorem ttlValue_nonpos (clock : env.Clock) (bounded : e.exp < 2 ^ 64)
    (other : ¬(env.currentStamp < e.exp ∧ e.exp - env.currentStamp < 2 ^ 63)) :
    ttlValue env units (some e) ≤ 0 := by
  rw [ttlValue]
  rcases Bool.eq_false_or_eq_true (env.isExpired e.exp) with expired | unexpired
  · rw [live, Option.filter_some_neg (by simp [expired])]
    exact Int.negSucc_le_zero 1
  · have isLive : live env (some e) = some e :=
      Option.filter_some_pos (by rw [unexpired]; rfl)
    rw [isLive, Option.elim_some]
    split
    · rename_i stamp
      have notPast : ¬e.exp < env.currentStamp := fun past =>
        absurd (clock.past e.exp stamp past) (by rw [unexpired]; exact Bool.noConfusion)
      have negative : toInt64 ((e.exp : Int) - env.currentStamp) ≤ 0 := by
        rcases Nat.eq_or_lt_of_le (Nat.le_of_not_lt notPast) with same | later
        · rw [same, sub_self]
          decide
        · rw [toInt64_upper (by omega) (by omega)]
          omega
      have positive := Int.tdiv_nonneg (Int.neg_nonneg_of_nonpos negative) (Int.natCast_nonneg units)
      rw [Int.neg_tdiv] at positive
      omega
    · exact Int.negSucc_le_zero 0

/-- A stamp behind the clock tells its distance when that is less than half of the range. -/
theorem reports_distance_iff (works : env.Works) (clock : env.Clock) (arg0 : Bytes)
    (bounded : e.exp < 2 ^ 64) (later : env.currentStamp < e.exp) :
    Reports env arg0 (some e) (e.exp - env.currentStamp) ↔ e.exp - env.currentStamp < 2 ^ 63 := by
  rw [reports_iff works]
  constructor
  · intro ⟨_, told⟩
    by_contra far
    have long : 0 < (e.exp - env.currentStamp) / millisecondNs :=
      Nat.div_pos (by rw [millisecondNs]; omega) (by decide)
    have nonpos : ttlValue env millisecondNs (some e) ≤ 0 :=
      ttlValue_nonpos clock bounded fun both => far both.2
    omega
  · intro near
    exact ⟨ttlValue_later clock later near, ttlValue_later clock later near⟩

/-- A stamp tells a time of some milliseconds when it lies so far behind the clock. -/
theorem reports_stored_iff (works : env.Works) (clock : env.Clock) (arg0 : Bytes)
    (bounded : e.exp < 2 ^ 64) {m : Nat} (positive : 0 < m) :
    Reports env arg0 (some e) (m * millisecondNs) ↔
      env.currentStamp + m * millisecondNs ≤ e.exp ∧
        e.exp < env.currentStamp + (m + 1) * millisecondNs ∧
        e.exp - env.currentStamp < 2 ^ 63 := by
  rw [reports_iff works]
  rcases Decidable.em (env.currentStamp < e.exp ∧ e.exp - env.currentStamp < 2 ^ 63) with
    near | far
  · rw [ttlValue_later clock near.1 near.2, ttlValue_later clock near.1 near.2, secondNs,
      millisecondNs]
    omega
  · have nonpos : ttlValue env millisecondNs (some e) ≤ 0 := ttlValue_nonpos clock bounded far
    rw [millisecondNs] at nonpos ⊢
    omega

end Report

section Meets

variable {D : Type} {env : KeyEnv} {units : Nat} {n : Int} {e : Entry D} {run : KeyRun D}
  {catg : MdType}

/-- A positive time is told at the same clock, or is an error when its nanoseconds do not fit; any
other time leaves no key, or is an error. -/
def RelativeMeets (env : KeyEnv) (run : KeyRun D) (catg : MdType) (arg0 : Bytes) (units : Nat)
    (n : Int) : Prop :=
  (0 < n → if n.toNat * units < 2 ^ 64 then Reports env arg0 (run.settle catg) (n.toNat * units)
    else run.status.isError = true) ∧
  (n ≤ 0 → run.status.isError = true ∨ live env (run.settle catg) = none)

/-- A time behind the clock is told from now, or is an error when its nanoseconds do not fit; a
time that is over leaves no key, or is an error. -/
def AbsoluteMeets (env : KeyEnv) (run : KeyRun D) (catg : MdType) (arg0 : Bytes) (units : Nat)
    (t : Int) : Prop :=
  ((env.currentStamp : Int) < t * units →
    if t.toNat * units < 2 ^ 64 then
      Reports env arg0 (run.settle catg) (t.toNat * units - env.currentStamp)
    else run.status.isError = true) ∧
  (t * units ≤ env.currentStamp → run.status.isError = true ∨ live env (run.settle catg) = none)

theorem live_eq_none_iff : live env (some e) = none ↔ env.isExpired e.exp = true := by
  rw [live, Option.filter_eq_none_iff]
  simp

/-- A relative time is met by the stamp that is stored. -/
theorem relativeMeets_iff (works : env.Works) (clock : env.Clock) (arg0 : Bytes)
    (unit : units = secondNs ∨ units = millisecondNs) (ok : run.status.isError = false)
    (stored : run.settle catg = some e) (bounded : e.exp < 2 ^ 64) :
    RelativeMeets env run catg arg0 units n ↔
      (0 < n → env.currentStamp + n.toNat * units ≤ e.exp ∧
        e.exp < env.currentStamp + n.toNat * units + millisecondNs ∧
        e.exp - env.currentStamp < 2 ^ 63) ∧
      (n ≤ 0 → env.isExpired e.exp = true) := by
  obtain ⟨m, scale⟩ : ∃ m, ∀ k : Nat, k * units = k * m * millisecondNs ∧ 0 < m := by
    rcases unit with rfl | rfl
    · exact ⟨1000, fun k => ⟨by rw [secondNs, millisecondNs]; omega, by decide⟩⟩
    · exact ⟨1, fun k => ⟨by rw [Nat.mul_one], by decide⟩⟩
  rw [RelativeMeets, stored, ok, live_eq_none_iff]
  refine and_congr (forall_congr' fun positive => ?_) (forall_congr' fun _ => by simp)
  have some' : 0 < n.toNat * m := Nat.mul_pos (by omega) (scale 0).2
  rw [(scale n.toNat).1, reports_stored_iff works clock arg0 bounded some', Nat.add_mul,
    Nat.one_mul, ← Nat.add_assoc]
  split
  · exact Iff.rfl
  · simp only [Bool.false_eq_true, false_iff]
    omega

theorem natCast_toNat_mul {t : Int} (positive : 0 < t * units) :
    ((t.toNat * units : Nat) : Int) = t * units := by
  have time : 0 ≤ t := by
    by_contra negative
    have product := Int.mul_nonpos_of_nonpos_of_nonneg (by omega : t ≤ 0) (Int.natCast_nonneg units)
    omega
  rw [Nat.cast_mul, Int.toNat_of_nonneg time]

/-- An absolute time is met by the stamp that is stored. -/
theorem absoluteMeets_iff (works : env.Works) (clock : env.Clock) (arg0 : Bytes) {t : Int}
    (ok : run.status.isError = false) (stored : run.settle catg = some e)
    (bounded : e.exp < 2 ^ 64)
    (stamp : (env.currentStamp : Int) < t * units → t.toNat * units < 2 ^ 64 →
      e.exp = t.toNat * units) :
    AbsoluteMeets env run catg arg0 units t ↔
      ((env.currentStamp : Int) < t * units → t.toNat * units < 2 ^ 64 ∧
        t.toNat * units - env.currentStamp < 2 ^ 63) ∧
      (t * units ≤ env.currentStamp → env.isExpired e.exp = true) := by
  rw [AbsoluteMeets, stored, ok, live_eq_none_iff]
  refine and_congr (forall_congr' fun later => ?_) (forall_congr' fun _ => by simp)
  split
  · rename_i fits
    have exact' := stamp later fits
    have product : ((t.toNat * units : Nat) : Int) = t * units :=
      natCast_toNat_mul (lt_of_le_of_lt (Int.natCast_nonneg _) later)
    have later' : env.currentStamp < e.exp := by omega
    rw [← exact', reports_distance_iff works clock arg0 bounded later']
    omega
  · simp only [Bool.false_eq_true, false_iff]
    omega

end Meets

section Commands

/-- The stamp of a live key is not over. -/
theorem isExpired_of_live {D : Type} {env : KeyEnv} {entry : Option (Entry D)} {e : Entry D}
    (found : live env entry = some e) : env.isExpired e.exp = false := by
  have unexpired := (Option.filter_eq_some_iff.mp found).2
  simpa using unexpired

variable {D : Type} {env : KeyEnv} {msg : CommandMsg} {units : Nat} {n : Int}

/-- A stamp that is not zero replaces the one of the key. -/
theorem exp_updateStamps (exp : Nat) (e : Entry D) :
    (updateStamps exp e).exp = if exp = 0 then e.exp else exp := by
  rw [updateStamps]
  split <;> rfl

/-- The stamp of a key that is found is updated. -/
theorem setStamp_found (works : env.Works) {entry : Option (Entry D)} {e : Entry D}
    (found : live env entry = some e) (exp : Nat) (catg : MdType) :
    (setStamp env exp entry).status = .execSendInt ∧
      (setStamp env exp entry).settle catg = some (updateStamps exp e) := by
  rw [setStamp, execKeyFetch_works works, found]
  exact ⟨rfl, KeyRun.settle_of_not_isNew rfl _⟩

/-- An update is over when its stamp is before the clock, or at a clock that takes itself for
over. -/
theorem isExpired_updated (clock : env.Clock) {old exp : Nat}
    (unexpired : env.isExpired old = false) :
    env.isExpired (if exp = 0 then old else exp) = true ↔
      exp ≠ 0 ∧ (exp < env.currentStamp ∨
        exp = env.currentStamp ∧ env.isExpired env.currentStamp = true) := by
  split
  · rename_i zero
    simp [unexpired, zero]
  · rename_i stamp
    rcases Nat.lt_trichotomy exp env.currentStamp with past | same | future
    · simp [clock.past exp stamp past, past, stamp]
    · simp [same, same ▸ stamp]
    · simp only [clock.future exp future, Bool.false_eq_true, false_iff]
      omega

/-- The times that `EXPIRE` and `PEXPIRE` meet. -/
def ExpireFits (env : KeyEnv) (units : Nat) (n : Int) : Prop :=
  (0 < n → n.toNat * units < 2 ^ 63 ∧
    (env.currentStamp = 0 ∨ n.toNat * units < env.currentStamp) ∧
    n.toNat * units + env.currentStamp < 2 ^ 64) ∧
  (n ≤ 0 →
    0 < env.currentStamp ∧ env.isExpired env.currentStamp = true ∧
      (toNs n units = 0 ∨ toNs n units = env.currentStamp) ∨
    toNs n units < env.currentStamp ∧ 2 ^ 64 < toNs n units + env.currentStamp)

theorem toNs_lt (n : Int) (units : Nat) : toNs n units < 2 ^ 64 := by
  rw [toNs, toSize]
  omega

/-- The product of a positive time does not wrap around when it fits. -/
theorem toNs_of_pos (positive : 0 < n) (units : Nat) :
    toNs n units = n.toNat * units % 2 ^ 64 := by
  have product : n * units = (n.toNat * units : Nat) := by
    rw [Nat.cast_mul, Int.toNat_of_nonneg (le_of_lt positive)]
  rw [toNs, toSize, product]
  omega

theorem expireMeets_iff (works : env.Works) (clock : env.Clock) (arg0 : Bytes) (cmd : ExpireCmd)
    {entry : Option (Entry D)} {e : Entry D} (found : live env entry = some e)
    (bounded : e.exp < 2 ^ 64) (count : msg.getArgInt 2 = some n) (catg : MdType) :
    RelativeMeets env (cmd.run env msg entry) catg arg0 cmd.units n ↔
      ExpireFits env cmd.units n := by
  have unit : cmd.units = secondNs ∨ cmd.units = millisecondNs := by
    cases cmd
    · exact .inl rfl
    · exact .inr rfl
  have positive : 0 < cmd.units := by
    rcases unit with same | same <;> rw [same] <;> decide
  have run : cmd.run env msg entry = setStamp env
      (if toNs n cmd.units < env.currentStamp then
        (toNs n cmd.units + env.currentStamp) % 2 ^ 64 else toNs n cmd.units) entry := by
    rw [ExpireCmd.run, doPexpire, count]
  have wrapped := toNs_lt n cmd.units
  obtain ⟨ok, stored⟩ := setStamp_found works found
    (if toNs n cmd.units < env.currentStamp then
      (toNs n cmd.units + env.currentStamp) % 2 ^ 64 else toNs n cmd.units) catg
  have unexpired := isExpired_of_live found
  have now := clock.bounded
  have exp := exp_updateStamps (if toNs n cmd.units < env.currentStamp then
    (toNs n cmd.units + env.currentStamp) % 2 ^ 64 else toNs n cmd.units) e
  rw [run, relativeMeets_iff works clock arg0 unit (by rw [ok]; rfl) stored
    (by rw [exp]; split <;> split <;> omega), ExpireFits, exp]
  refine and_congr (forall_congr' fun some' => ?_) (forall_congr' fun _ => ?_)
  · have long : 0 < n.toNat * cmd.units := Nat.mul_pos (by omega) positive
    rw [toNs_of_pos some', millisecondNs]
    generalize n.toNat * cmd.units = d at long
    split <;> split <;> omega
  · rw [isExpired_updated clock unexpired]
    generalize toNs n cmd.units = w at wrapped
    cases env.isExpired env.currentStamp <;>
      simp only [Bool.false_eq_true, false_and, and_false, or_false, false_or, true_and, and_true] <;>
      split <;> omega

/-- The arguments of a store with an expiry: the time and the value. -/
def SetexCmd.Args (cmd : SetexCmd) (msg : CommandMsg) (n : Int) (value : Bytes) : Prop :=
  match cmd with
  | .setex | .psetex => msg.getArgInt 2 = some n ∧ msg.getArgStr (3 : Nat) = some value
  | .setEx | .setPx =>
      msg.argc = 5 ∧ msg.getArgStr (2 : Nat) = some value ∧ msg.getArgInt 4 = some n ∧
        ∃ op x, msg.getArgStr (3 : Nat) = some [op, x] ∧ toUpper x = 88 ∧
          toUpper op = if cmd = .setEx then 69 else 80

/-- An option with a time is the only one. -/
theorem execSet_expire {op x : UInt8} {entry : Option (Entry Bytes)}
    (count : msg.argc = 5) (time : msg.getArgInt 4 = some n)
    (option : msg.getArgStr (3 : Nat) = some [op, x]) (isX : toUpper x = 88)
    (kind : toUpper op = 69 ∧ units = secondNs ∨ toUpper op = 80 ∧ units = millisecondNs) :
    execSet env msg entry =
      doSetValueExpire env msg 2 (toNs n units) { hasExpireNs := true } entry := by
  have parsed : setOptions msg msg.argc 3 {} 0 = some ({ hasExpireNs := true }, toNs n units) := by
    rw [count, setOptions, count, if_pos (by decide), option]
    simp only [isX]
    rcases kind with ⟨isE, rfl⟩ | ⟨isP, rfl⟩
    · simp [isE, time, setOptions, count, secondNs]
    · simp [isP, time, setOptions, count, millisecondNs]
  rw [execSet, parsed]
  rfl

/-- A store with an expiry by its value and its nanoseconds. -/
theorem SetexCmd.run_eq (cmd : SetexCmd) {value : Bytes} {entry : Option (Entry Bytes)}
    (args : cmd.Args msg n value) :
    ∃ i : Nat, msg.getArgStr i = some value ∧ cmd.run env msg entry =
      doSetValueExpire env msg i (toNs n cmd.units) { hasExpireNs := true } entry := by
  cases cmd with
  | setex | psetex =>
      obtain ⟨time, accepted⟩ := args
      refine ⟨3, accepted, ?_⟩
      simp only [SetexCmd.run, execSetex, execPsetex, setWithTime, time]
      rfl
  | setEx =>
      obtain ⟨count, accepted, time, op, x, option, isX, isE⟩ := args
      exact ⟨2, accepted, execSet_expire count time option isX (.inl ⟨isE, rfl⟩)⟩
  | setPx =>
      obtain ⟨count, accepted, time, op, x, option, isX, isP⟩ := args
      exact ⟨2, accepted, execSet_expire count time option isX (.inr ⟨isP, rfl⟩)⟩

/-- The stamp of a live key, and zero for a missing one. -/
def oldStamp (env : KeyEnv) (entry : Option (Entry Bytes)) : Nat :=
  (live env entry).elim 0 Entry.exp

/-- Small times count from now. -/
def setexStamp (env : KeyEnv) (ns : Nat) : Nat :=
  if ns ≠ 0 ∧ ns < tenYearsNs then (ns + env.currentStamp) % 2 ^ 64 else ns

theorem exp_updateExpire (ns : Nat) (e : Entry Bytes) :
    (updateExpire env ns e).exp =
      if setexStamp env ns = 0 then e.exp else setexStamp env ns := by
  have same : updateExpire env ns e =
      if setexStamp env ns = 0 then e else { e with exp := setexStamp env ns } := rfl
  rw [same]
  split <;> rfl

/-- The type that is set behind a handler does not change the stamp. -/
theorem exists_settle (run : KeyRun D) {e : Entry D} (left : run.entry = some e)
    (catg : MdType) : ∃ settled, run.settle catg = some settled ∧ settled.exp = e.exp := by
  rw [KeyRun.settle, left]
  split
  · exact ⟨_, rfl, rfl⟩
  · exact ⟨_, rfl, rfl⟩

/-- A store leaves the new stamp, or the old one when that is zero. -/
theorem doSetValueExpire_stores (works : env.Works) {i : Nat} {value : Bytes}
    (accepted : msg.getArgStr i = some value) (ns : Nat) (entry : Option (Entry Bytes)) :
    let run := doSetValueExpire env msg i ns { hasExpireNs := true } entry
    run.status = .execSendOk ∧ ∃ e, run.settle .string = some e ∧
      e.exp = if setexStamp env ns = 0 then oldStamp env entry else setexStamp env ns := by
  have never : ∀ isNew, SetFlags.refuses { hasExpireNs := true } isNew = false := by
    intro isNew
    cases isNew <;> rfl
  have stores (run : KeyRun Bytes) (old : Option (Entry Bytes))
      (left : run.entry = some (updateExpire env ns (Entry.write old value)))
      (stamp : (Entry.write old value).exp = oldStamp env entry) :
      ∃ e, run.settle .string = some e ∧
        e.exp = if setexStamp env ns = 0 then oldStamp env entry else setexStamp env ns := by
    obtain ⟨e, settled, same⟩ := exists_settle run left .string
    exact ⟨e, settled, by rw [same, exp_updateExpire, stamp]⟩
  simp only [doSetValueExpire, accepted, getKeyOverwrite_works works, never]
  cases found : live env entry with
  | none =>
      simp only [works.resized]
      exact ⟨rfl, stores _ none rfl (by rw [oldStamp, found]; rfl)⟩
  | some e =>
      have stamp : (Entry.write (some e) value).exp = oldStamp env entry := by
        rw [oldStamp, found]
        rfl
      rcases Decidable.em (e.type = .string) with same | other
      · simp only [if_pos same, works.resized]
        exact ⟨rfl, stores _ (some e) rfl stamp⟩
      · rcases Decidable.em (e.type = .noData) with untyped | typed
        · simp only [if_neg other, if_pos untyped, works.resized]
          exact ⟨rfl, stores _ (some e) rfl stamp⟩
        · simp only [if_neg other, if_neg typed, works.resized]
          exact ⟨rfl, stores _ (some e) rfl stamp⟩

/-- The times that the stores meet. -/
def SetexFits (env : KeyEnv) (units : Nat) (n : Int) : Prop :=
  (0 < n → n.toNat * units < 2 ^ 63 ∧
    (env.currentStamp = 0 ∨ n.toNat * units < tenYearsNs) ∧
    n.toNat * units + env.currentStamp < 2 ^ 64) ∧
  (n ≤ 0 →
    toNs n units ≠ 0 ∧ toNs n units < tenYearsNs ∧ 2 ^ 64 < toNs n units + env.currentStamp ∨
    tenYearsNs ≤ toNs n units ∧ (toNs n units < env.currentStamp ∨
      toNs n units = env.currentStamp ∧ env.isExpired env.currentStamp = true))

/-- A store with an expiry is met by the times that fit. -/
theorem setexMeets_iff (works : env.Works) (clock : env.Clock) (arg0 : Bytes) (cmd : SetexCmd)
    {entry : Option (Entry Bytes)} (bounded : oldStamp env entry < 2 ^ 64) {value : Bytes}
    (args : cmd.Args msg n value) :
    RelativeMeets env (cmd.run env msg entry) .string arg0 cmd.units n ↔
      SetexFits env cmd.units n := by
  have unit : cmd.units = secondNs ∨ cmd.units = millisecondNs := by
    cases cmd
    · exact .inl rfl
    · exact .inr rfl
    · exact .inl rfl
    · exact .inr rfl
  have positive : 0 < cmd.units := by
    rcases unit with same | same <;> rw [same] <;> decide
  obtain ⟨i, accepted, run⟩ := @SetexCmd.run_eq env msg n cmd value entry args
  obtain ⟨ok, e, stored, exp⟩ := doSetValueExpire_stores works accepted (toNs n cmd.units) entry
  have wrapped := toNs_lt n cmd.units
  have now := clock.bounded
  have unexpired : env.isExpired (oldStamp env entry) = false := by
    rw [oldStamp]
    cases found : live env entry with
    | none => exact clock.never
    | some e => exact isExpired_of_live found
  have ten : 0 < tenYearsNs ∧ tenYearsNs < 2 ^ 63 := by decide
  rw [run, relativeMeets_iff works clock arg0 unit (by rw [ok]; rfl) stored
    (by rw [exp, setexStamp]; split <;> split <;> omega), SetexFits, exp]
  refine and_congr (forall_congr' fun some' => ?_) (forall_congr' fun _ => ?_)
  · have long : 0 < n.toNat * cmd.units := Nat.mul_pos (by omega) positive
    rw [toNs_of_pos some', millisecondNs, setexStamp]
    generalize n.toNat * cmd.units = d at long
    split <;> split <;> omega
  · rw [isExpired_updated clock unexpired, setexStamp]
    generalize toNs n cmd.units = w at wrapped
    cases env.isExpired env.currentStamp <;>
      simp only [Bool.false_eq_true, and_false, or_false, and_true] <;>
      split <;> omega

/-- The times that `EXPIREAT` and `PEXPIREAT` meet. -/
def ExpireatFits (env : KeyEnv) (units : Nat) (t : Int) : Prop :=
  ((env.currentStamp : Int) < t * units →
    t.toNat * units < 2 ^ 64 ∧ t.toNat * units - env.currentStamp < 2 ^ 63) ∧
  (t * units ≤ env.currentStamp →
    toNs t units ≠ 0 ∧ (toNs t units < env.currentStamp ∨
      toNs t units = env.currentStamp ∧ env.isExpired env.currentStamp = true))

/-- An absolute time is met when it fits. -/
theorem expireatMeets_iff (works : env.Works) (clock : env.Clock) (arg0 : Bytes)
    (cmd : ExpireatCmd) {entry : Option (Entry D)} {e : Entry D} (found : live env entry = some e)
    (bounded : e.exp < 2 ^ 64) {t : Int} (time : msg.getArgInt 2 = some t) (catg : MdType) :
    AbsoluteMeets env (cmd.run env msg entry) catg arg0 cmd.units t ↔
      ExpireatFits env cmd.units t := by
  have run : cmd.run env msg entry = setStamp env (toNs t cmd.units) entry := by
    rw [ExpireatCmd.run, doPexpireat, time]
  have wrapped := toNs_lt t cmd.units
  obtain ⟨ok, stored⟩ := setStamp_found works found (toNs t cmd.units) catg
  have exp := exp_updateStamps (toNs t cmd.units) e
  rw [run, absoluteMeets_iff works clock arg0 (by rw [ok]; rfl) stored
    (by rw [exp]; split <;> omega), ExpireatFits, exp,
    isExpired_updated clock (isExpired_of_live found)]
  intro later fits
  have future : 0 < t * cmd.units := lt_of_le_of_lt (Int.natCast_nonneg _) later
  have product := natCast_toNat_mul future
  have stamp : toNs t cmd.units = t.toNat * cmd.units := by
    rw [toNs, toSize, ← product]
    omega
  rw [exp, stamp, if_neg (by omega)]

/-- A key that persists tells that it has no time to live. -/
theorem persist_reports (works : env.Works) (clock : env.Clock) (arg0 : Bytes)
    {entry : Option (Entry D)} {e : Entry D} (found : live env entry = some e) (catg : MdType) :
    (execTtl env ((execPersist env entry).settle catg)).reply arg0 = sendInt (-1) ∧
      (execPttl env ((execPersist env entry).settle catg)).reply arg0 = sendInt (-1) := by
  have stored : (execPersist env entry).settle catg = some { e with exp := 0 } := by
    rw [execPersist, execKeyFetch_works works, found]
    exact KeyRun.settle_of_not_isNew rfl _
  have isLive : live env (some { e with exp := 0 }) = some { e with exp := 0 } :=
    Option.filter_some_pos (by rw [clock.never]; rfl)
  rw [stored, execTtl, execPttl, doPttl_reply works, doPttl_reply works, ttlValue, ttlValue, isLive]
  exact ⟨rfl, rfl⟩

end Commands

section Forms

variable {D : Type}

/-- The commands with a relative time. -/
inductive ExpiryForm where
  | expire (cmd : ExpireCmd)
  | setex (cmd : SetexCmd)

def ExpiryForm.units : ExpiryForm → Nat
  | .expire cmd => cmd.units
  | .setex cmd => cmd.units

def ExpiryForm.Args (form : ExpiryForm) (msg : CommandMsg) (n : Int) : Prop :=
  match form with
  | .expire _ => msg.getArgInt 2 = some n
  | .setex cmd => ∃ value, cmd.Args msg n value

def ExpiryForm.Fits (form : ExpiryForm) (env : KeyEnv) (n : Int) : Prop :=
  match form with
  | .expire cmd => ExpireFits env cmd.units n
  | .setex cmd => SetexFits env cmd.units n

/-- The table and its clock, the name of the command, the key of an expiry and the one of a store. -/
structure ExpiryCase (D : Type) where
  env : KeyEnv
  arg0 : Bytes
  key : Option (Entry D)
  string : Option (Entry Bytes)

def ExpiryForm.Meets (form : ExpiryForm) (given : ExpiryCase D) (msg : CommandMsg) (n : Int) :
    Prop :=
  match form with
  | .expire cmd =>
      RelativeMeets given.env (cmd.run given.env msg given.key) .noData given.arg0 cmd.units n
  | .setex cmd =>
      RelativeMeets given.env (cmd.run given.env msg given.string) .string given.arg0 cmd.units n

/-- The replies of `TTL` and `PTTL` behind a command. -/
def ExpiryForm.told (form : ExpiryForm) (given : ExpiryCase D) (msg : CommandMsg) :
    Bytes × Bytes :=
  match form with
  | .expire cmd =>
      let entry := (cmd.run given.env msg given.key).settle .noData
      ((execTtl given.env entry).reply given.arg0, (execPttl given.env entry).reply given.arg0)
  | .setex cmd =>
      let entry := (cmd.run given.env msg given.string).settle .string
      ((execTtl given.env entry).reply given.arg0, (execPttl given.env entry).reply given.arg0)

/-- The table answers, the key is there, and the stamps have 64 bits. -/
structure ExpiryCase.Sound (given : ExpiryCase D) : Prop where
  works : given.env.Works
  clock : given.env.Clock
  key : ∃ e, live given.env given.key = some e ∧ e.exp < 2 ^ 64
  string : oldStamp given.env given.string < 2 ^ 64

variable {given : ExpiryCase D} {msg : CommandMsg} {n : Int}

theorem ExpiryForm.meets_iff (form : ExpiryForm) (sound : given.Sound)
    (args : form.Args msg n) : form.Meets given msg n ↔ form.Fits given.env n := by
  cases form with
  | expire cmd =>
      obtain ⟨e, found, bounded⟩ := sound.key
      exact expireMeets_iff sound.works sound.clock given.arg0 cmd found bounded args .noData
  | setex cmd =>
      obtain ⟨value, args⟩ := args
      exact setexMeets_iff sound.works sound.clock given.arg0 cmd sound.string args

/-- A positive time that is met is told in seconds and in milliseconds. -/
theorem ExpiryForm.told_eq (form : ExpiryForm) (positive : 0 < n)
    (fits : n.toNat * form.units < 2 ^ 64) (meets : form.Meets given msg n) :
    form.told given msg = (sendInt (n.toNat * form.units / secondNs : Nat),
      sendInt (n.toNat * form.units / millisecondNs : Nat)) := by
  cases form with
  | expire cmd | setex cmd =>
      have told := meets.1 positive
      rw [if_pos (show n.toNat * cmd.units < 2 ^ 64 from fits)] at told
      exact Prod.ext told.1 told.2

theorem ExpiryForm.Fits.lt {form : ExpiryForm} {env : KeyEnv} (fits : form.Fits env n)
    (positive : 0 < n) : n.toNat * form.units < 2 ^ 64 := by
  have half : n.toNat * form.units < 2 ^ 63 := by
    cases form with
    | expire cmd => exact (fits.1 positive).1
    | setex cmd => exact (fits.1 positive).1
  omega

/-- An expiry is told at the same clock exactly when its time fits, whatever its form; forms of one
duration that fit agree, and a key that persists has no time to live. -/
theorem expiry_exact (sound : given.Sound) :
    (∀ form : ExpiryForm, ∀ msg n, form.Args msg n →
      (form.Meets given msg n ↔ form.Fits given.env n)) ∧
    (∀ cmd : ExpireatCmd, ∀ msg t, msg.getArgInt 2 = some t →
      (AbsoluteMeets given.env (cmd.run given.env msg given.key) .noData given.arg0 cmd.units t ↔
        ExpireatFits given.env cmd.units t)) ∧
    (∀ first second : ExpiryForm, ∀ msg other n m, first.Args msg n → second.Args other m →
      0 < n → 0 < m → n.toNat * first.units = m.toNat * second.units →
      first.Fits given.env n → second.Fits given.env m →
      first.told given msg = second.told given other) ∧
    (execTtl given.env ((execPersist given.env given.key).settle .noData)).reply given.arg0 =
      sendInt (-1) ∧
    (execPttl given.env ((execPersist given.env given.key).settle .noData)).reply given.arg0 =
      sendInt (-1) := by
  obtain ⟨e, found, bounded⟩ := sound.key
  refine ⟨fun form msg n args => form.meets_iff sound args, fun cmd msg t time =>
    expireatMeets_iff sound.works sound.clock given.arg0 cmd found bounded time .noData, ?_,
    persist_reports sound.works sound.clock given.arg0 found .noData⟩
  intro first second msg other n m args args' positive positive' same fits fits'
  rw [first.told_eq positive (fits.lt positive) ((first.meets_iff sound args).mpr fits),
    second.told_eq positive' (fits'.lt positive') ((second.meets_iff sound args').mpr fits'), same]

end Forms

/-- A table whose clock stands at a thousand seconds. -/
def thousandEnv : KeyEnv := { currentStamp := 1000 * secondNs }

/-- A string without an expiry, at that clock. -/
def thousandCase : ExpiryCase Bytes :=
  { env := thousandEnv, arg0 := [], key := some ⟨.string, [1], 0⟩, string := none }

theorem thousandCase_sound : thousandCase.Sound where
  works := ⟨rfl, rfl, rfl, rfl, by simp [thousandCase, thousandEnv]⟩
  clock := by
    refine ⟨by decide, rfl, fun exp stamp past => ?_, fun exp later => ?_⟩
    · simp only [thousandCase, thousandEnv] at past ⊢
      simp [stamp, past.le]
    · simp only [thousandCase, thousandEnv] at later ⊢
      simp [Nat.not_le_of_lt later]
  key := ⟨⟨.string, [1], 0⟩, rfl, by decide⟩
  string := by decide

/-- The words of an expiry. -/
def expireWords (count : String) : CommandMsg :=
  ⟨commandWords ["expire", "k", count], by simp [commandWords]⟩

/-- Five seconds are told. -/
theorem expiry_exact_five :
    ExpiryForm.Meets (.expire .expire) thousandCase (expireWords "5") 5 :=
  ((expiry_exact thousandCase_sound).1 (.expire .expire) (expireWords "5") 5
    (show (expireWords "5").getArgInt 2 = some 5 by decide)).mpr
    ⟨fun _ => ⟨by decide, .inr (by decide), by decide⟩, fun negative => absurd negative (by decide)⟩

/-- A time in the past leaves a key that lives on. -/
theorem not_expiry_exact :
    ¬ExpiryForm.Meets (.expire .expire) thousandCase (expireWords "-1") (-1) := by
  intro meets
  have fits := (expireMeets_iff thousandCase_sound.works thousandCase_sound.clock [] .expire
    (show live thousandEnv (some ⟨.string, [1], 0⟩) = some (⟨.string, [1], 0⟩ : Entry Bytes) from rfl)
    (by decide) (show (expireWords "-1").getArgInt 2 = some (-1) by decide) .noData).mp meets
  exact absurd (fits.2 (by decide)) (by decide)

end Raids.Key
