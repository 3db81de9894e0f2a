import Raids.Proof.Key.Register

namespace Raids.Key
open LittleEndian

section Stored

variable {isOver : Nat → Nat → Bool} {now : Nat} {env : KeyEnv} {entry : Option (Entry Bytes)}
  {reg : Option Register}

/-- A key stands for a register at a clock. An end is positive and in the signed range. -/
structure Stored (isOver : Nat → Nat → Bool) (now : Nat) (entry : Option (Entry Bytes))
    (reg : Option Register) : Prop where
  live : live (KeyEnv.clocked {} isOver now) entry = reg.map Register.entry
  ends : ∀ r, reg = some r → ∀ d ∈ r.deadline, 0 < d ∧ d < 2 ^ 63

theorem KeyEnv.Works.clocked (works : env.Works) (isOver : Nat → Nat → Bool) (now : Nat) :
    (env.clocked isOver now).Works :=
  ⟨works.fetched, works.valued, works.resized, works.validated, works.grows⟩

theorem Stored.found (stored : Stored isOver now entry reg) (env : KeyEnv) :
    Key.live (env.clocked isOver now) entry = reg.map Register.entry := stored.live

theorem stored_none : Stored isOver now none none := ⟨rfl, fun _ none => by cases none⟩

/-- A string whose end is not over is stored. -/
theorem stored_some {value : Bytes} (deadline : Option Nat)
    (alive : isOver now (deadline.getD 0) = false)
    (bounded : ∀ d ∈ deadline, 0 < d ∧ d < 2 ^ 63) :
    Stored isOver now (some ⟨.string, value, deadline.getD 0⟩) (some ⟨value, deadline⟩) := by
  constructor
  · exact Option.filter_some_pos (by simp [KeyEnv.clocked, alive])
  · rintro r same
    obtain rfl := Option.some.inj same
    exact bounded

/-- The end of a string that is stored is not over. -/
theorem Stored.alive {r : Register} (stored : Stored isOver now entry (some r)) :
    isOver now (r.deadline.getD 0) = false :=
  isExpired_of_live stored.live

/-- A read leaves what is live. -/
theorem Stored.kept (stored : Stored isOver now entry reg) {run : KeyRun Bytes}
    (kept : run.isReadOnly = true) (same : run.entry = reg.map Register.entry) (catg : MdType) :
    Stored isOver now (run.settle catg) reg := by
  rw [KeyRun.settle, if_neg fun settles => settles.1 kept, same]
  refine ⟨?_, stored.ends⟩
  rw [← stored.live, live_live]

/-- The entry of a string stands for it. -/
theorem Stored.keeps {r : Register} (stored : Stored isOver now entry (some r)) :
    Stored isOver now (some r.entry) (some r) :=
  stored_some r.deadline stored.alive (stored.ends r rfl)

/-- A fetch of the key finds the string. -/
theorem Stored.fetch (stored : Stored isOver now entry reg) (works : env.Works) (readOnly : Bool) :
    execKeyFetch (env.clocked isOver now) readOnly entry =
      match reg with
      | none =>
          if readOnly then ⟨some .keyNotFound, none, false, .noData⟩
          else ⟨some .keyIsNew, none, true, .noData⟩
      | some r => ⟨some .keyOk, some r.entry, false, .string⟩ := by
  rw [execKeyFetch_works (works.clocked isOver now), stored.found env]
  cases reg <;> rfl

theorem Stored.read (stored : Stored isOver now entry reg) (works : env.Works) :
    getKeyRead (env.clocked isOver now) .string entry =
      match reg with
      | none => ⟨some .keyNotFound, none, false, .noData⟩
      | some r => ⟨some .keyOk, some r.entry, false, .string⟩ := by
  rw [getKeyRead_works (works.clocked isOver now), stored.found env]
  cases reg <;> rfl

theorem Stored.write (stored : Stored isOver now entry reg) (works : env.Works) :
    getKeyWrite (env.clocked isOver now) .string entry =
      match reg with
      | none => ⟨some .keyIsNew, none, true, .noData⟩
      | some r => ⟨some .keyOk, some r.entry, false, .string⟩ := by
  rw [getKeyWrite_works (works.clocked isOver now), stored.found env]
  cases reg <;> rfl

theorem Stored.overwrite (stored : Stored isOver now entry reg) (works : env.Works) :
    getKeyOverwrite (env.clocked isOver now) entry =
      match reg with
      | none => ⟨some .keyIsNew, none, true, .noData⟩
      | some r => ⟨some .keyOk, some r.entry, false, .string⟩ := by
  rw [getKeyOverwrite_works (works.clocked isOver now), stored.found env]
  cases reg <;> rfl

/-- The commands read the bytes of the string. -/
theorem Stored.string (stored : Stored isOver now entry reg) (env : KeyEnv) :
    (stringValue (env.clocked isOver now) entry).string? = some (bytesOf reg) := by
  rw [stringValue, stored.found env]
  cases reg <;> rfl

/-- A new value keeps the end of the old one. -/
theorem Stored.rewrites (laws : EndLaws isOver) (stored : Stored isOver now entry reg)
    {new : Bytes} {settled : Option (Entry Bytes)}
    (same : settled = some ⟨.string, new,
      ((Key.live (env.clocked isOver now) entry).map Entry.exp).getD 0⟩) :
    Stored isOver now settled (rewrite reg new) := by
  rw [same, stored.found env]
  cases reg with
  | none => exact stored_some none (laws.never now) fun d none => by cases none
  | some r => exact stored_some r.deadline stored.alive (stored.ends r rfl)

/-- An end that lies ahead is not over. -/
theorem Ahead.alive {d : Nat} (ahead : Ahead now d) (laws : EndLaws isOver) :
    isOver now (now + d) = false := laws.future now _ (Nat.lt_add_of_pos_right ahead.positive)

end Stored

section Steps

variable {isOver : Nat → Nat → Bool} {now : Nat} {env : KeyEnv} {entry : Option (Entry Bytes)}
  {reg : Option Register} {msg : CommandMsg} {arg0 : Bytes}

/-- A handler sends an answer and leaves a register. -/
def Meets (isOver : Nat → Nat → Bool) (now : Nat) (run : KeyRun Bytes × MdType) (arg0 : Bytes)
    (answer : Bytes) (next : Option Register) : Prop :=
  run.1.reply arg0 = answer ∧ Stored isOver now (run.1.settle run.2) next

theorem meets_get (stored : Stored isOver now entry reg) (works : env.Works) :
    Meets isOver now (execGet (env.clocked isOver now) entry, .string) arg0
      ((reg.map Register.value).elim (line "$-1") sendConcatString) reg := by
  have clocked := works.clocked isOver now
  rw [Meets, execGet]
  simp only [stored.read works]
  cases reg with
  | none => exact ⟨rfl, stored.kept rfl rfl _⟩
  | some r =>
      simp only [clocked.valued, clocked.validated, and_self, if_true]
      exact ⟨List.append_nil _, stored.kept rfl rfl _⟩

/-- The reads of the bytes leave the string. -/
theorem meets_strlen (stored : Stored isOver now entry reg) (works : env.Works) :
    Meets isOver now (execStrlen (env.clocked isOver now) entry, .string) arg0
      (sendInt (bytesOf reg).length) reg := by
  have clocked := works.clocked isOver now
  refine ⟨execStrlen_reply clocked (stored.string env) arg0, ?_⟩
  rw [execStrlen]
  simp only [stored.read works]
  cases reg with
  | none => exact stored.kept rfl rfl _
  | some r =>
      simp only [clocked.valued, if_true]
      exact stored.kept rfl rfl _

theorem meets_getrange (stored : Stored isOver now entry reg) (works : env.Works)
    {start stop : Int} (first : optionalInt msg 2 0 = some start)
    (last : optionalInt msg 3 (-1) = some stop) :
    Meets isOver now (execGetrange (env.clocked isOver now) msg entry, .string) arg0
      (sendConcatString (clampedRange (bytesOf reg) start stop)) reg := by
  have clocked := works.clocked isOver now
  refine ⟨execGetrange_reply clocked (stored.string env) first last arg0, ?_⟩
  rw [execGetrange]
  simp only [first, last, stored.read works]
  cases reg with
  | none => exact stored.kept rfl rfl _
  | some r =>
      simp only [clocked.valued, clocked.validated, and_self, if_true]
      split
      · exact stored.kept rfl rfl _
      · split <;> exact stored.kept rfl rfl _

theorem meets_getbit (stored : Stored isOver now entry reg) (works : env.Works) {off : Nat}
    (isOff : msg.getArgInt 2 = some (off : Int)) :
    Meets isOver now (execGetbit (env.clocked isOver now) msg entry, .string) arg0
      (sendInt (if bitAt (bytesOf reg) off then 1 else 0)) reg := by
  have clocked := works.clocked isOver now
  refine ⟨execGetbit_reply clocked (stored.string env) isOff arg0, ?_⟩
  rw [execGetbit, isOff]
  simp only [stored.read works, if_neg (show ¬((off : Nat) : Int) < 0 by omega)]
  cases reg with
  | none => exact stored.kept rfl rfl _
  | some r =>
      simp only [clocked.valued, clocked.validated, and_self, if_true]
      exact stored.kept rfl rfl _

/-- An end that is not over does not lie behind the clock. -/
theorem timeLeft_stored {r : Register} (laws : EndLaws isOver)
    (stored : Stored isOver now entry (some r)) (units : Nat) :
    (if r.entry.exp ≠ 0 then (toInt64 ((r.entry.exp : Int) - now)).tdiv units else -1) =
      timeLeft units now (some r) := by
  have alive := stored.alive
  have ends := stored.ends r rfl
  obtain ⟨value, deadline⟩ := r
  cases deadline with
  | none => rfl
  | some d =>
      obtain ⟨positive, signed⟩ := ends d rfl
      have ahead : ¬d < now := fun past => by
        have ended := laws.past now d (by omega) past
        rw [show isOver now d = false from alive] at ended
        cases ended
      have left : (d : Int) - now = (d - now : Nat) := by omega
      show (if d ≠ 0 then (toInt64 ((d : Int) - now)).tdiv units else -1) =
        (((d - now) / units : Nat) : Int)
      rw [if_pos (by omega), left, toInt64_of_inInt64 ⟨by omega, by omega⟩, Int.ofNat_tdiv]

/-- The time that is left is told. -/
theorem meets_ttl (laws : EndLaws isOver) (stored : Stored isOver now entry reg)
    (works : env.Works) (units : Nat) :
    Meets isOver now (doPttl (env.clocked isOver now) units entry, .noData) arg0
      (sendInt (timeLeft units now reg)) reg := by
  have clocked := works.clocked isOver now
  constructor
  · rw [doPttl_reply clocked, ttlValue, stored.found env]
    cases reg with
    | none => rfl
    | some r => exact congrArg sendInt (timeLeft_stored laws stored units)
  · rw [doPttl]
    simp only [stored.fetch works]
    cases reg with
    | none => exact stored.kept rfl rfl _
    | some r => exact stored.kept rfl rfl _

theorem meets_exist (stored : Stored isOver now entry reg) (works : env.Works) :
    Meets isOver now (execExists (env.clocked isOver now) entry, .noData) arg0
      (sendInt (if reg.isSome then 1 else 0)) reg := by
  rw [Meets, execExists]
  simp only [stored.fetch works]
  cases reg with
  | none => exact ⟨rfl, stored.kept rfl rfl _⟩
  | some r => exact ⟨rfl, stored.kept rfl rfl _⟩

/-- A command that rewrites the string replies its number. -/
theorem Stored.meets (laws : EndLaws isOver) (stored : Stored isOver now entry reg)
    {run : KeyRun Bytes} {new : Bytes} {ival : Int}
    (stores : StoresString (env.clocked isOver now) entry arg0 run new ival) :
    Meets isOver now (run, .string) arg0 (sendInt ival) (rewrite reg new) :=
  ⟨stores.1, stored.rewrites laws stores.2⟩

/-- An addition stores the text of its sum. -/
theorem meets_add (laws : EndLaws isOver) (stored : Stored isOver now entry reg)
    (works : env.Works) {cmd : AddCmd} {n : Int} (operand : cmd.operand msg = some n) :
    Meets isOver now (cmd.run (env.clocked isOver now) msg entry, .string) arg0
      (sendInt (addition reg cmd n)) (rewrite reg (int64ToString (addition reg cmd n))) := by
  have outcome := doAdd_value (works.clocked isOver now) (cmd.addend n) entry arg0
  have sum : (stringValue (env.clocked isOver now) entry).stored (cmd.addend n) =
      some (addition reg cmd n) := by
    rw [stringValue, stored.found env]
    cases reg with
    | none =>
        rw [addition, show currentInt (bytesOf none) = 0 from rfl, zero_add]
        rfl
    | some r => rfl
  rw [sum] at outcome
  rw [cmd.run_eq, operand]
  exact ⟨outcome.1.1, stored.rewrites laws outcome.1.2⟩

/-- A value that is stored with or without an end. -/
theorem meets_stored {run : KeyRun Bytes} {catg : MdType} {value answer : Bytes}
    {deadline : Option Nat} (reply : run.reply arg0 = answer)
    (settled : run.settle catg = some ⟨.string, value, deadline.getD 0⟩)
    (alive : isOver now (deadline.getD 0) = false)
    (bounded : ∀ d ∈ deadline, 0 < d ∧ d < 2 ^ 63) :
    Meets isOver now (run, catg) arg0 answer (some ⟨value, deadline⟩) :=
  ⟨reply, settled ▸ stored_some deadline alive bounded⟩

theorem meets_getset (laws : EndLaws isOver) (stored : Stored isOver now entry reg)
    (works : env.Works) {value : Bytes} (isArg : msg.getArgStr 2 = some value) :
    Meets isOver now (execGetset (env.clocked isOver now) msg entry, .string) arg0
      ((reg.map Register.value).elim (line "$-1") sendConcatString) (some ⟨value, none⟩) := by
  have clocked := works.clocked isOver now
  have forever : isOver now ((none : Option Nat).getD 0) = false := laws.never now
  rw [execGetset]
  simp only [isArg, stored.write works]
  cases reg with
  | none =>
      simp only [storeOld, clocked.resized, if_true]
      exact meets_stored rfl rfl forever fun d none => by cases none
  | some r =>
      simp only [storeOld, clocked.valued, clocked.resized, if_true, Bool.false_eq_true, if_false]
      refine meets_stored (List.append_nil _) ?_ forever fun d none => by cases none
      exact KeyRun.settle_of_not_isNew rfl _

/-- The condition of a store by its flags. -/
theorem refuses_admits {flags : SetFlags} {options : List SetOption}
    (fresh : flags.mustNotExist = decide (.nx ∈ options))
    (there : flags.mustExist = decide (.xx ∈ options)) (reg : Option Register) :
    flags.refuses reg.isNone = true ↔ ¬Admits options reg := by
  rw [SetFlags.refuses, fresh, there, Admits]
  cases reg <;> simp

/-- A store without an end, by its condition. -/
theorem meets_setValue (arg0 : Bytes) (laws : EndLaws isOver) (stored : Stored isOver now entry reg)
    (works : env.Works) {cmd : RedisCmd} (notMsetnx : cmd ≠ .msetnxCmd) {n : Nat} {value : Bytes}
    (isArg : msg.getArgStr n = some value) (flags : SetFlags) :
    Meets isOver now (doSetValue (env.clocked isOver now) cmd msg n flags entry, .string) arg0
      (if flags.refuses reg.isNone then line "$-1" else line "+OK")
      (if flags.refuses reg.isNone then reg else some ⟨value, none⟩) := by
  have clocked := works.clocked isOver now
  have forever : isOver now ((none : Option Nat).getD 0) = false := laws.never now
  have bounded : ∀ d ∈ (none : Option Nat), 0 < d ∧ d < 2 ^ 63 := fun d none => by cases none
  rw [doSetValue]
  simp only [isArg, stored.overwrite works, notMsetnx, if_false]
  cases reg with
  | none =>
      simp only [Option.isNone_none]
      by_cases refused : flags.refuses true
      · simp only [if_pos refused]
        exact ⟨rfl, stored_none⟩
      · simp only [if_neg refused, clocked.resized, if_true]
        exact meets_stored rfl rfl forever bounded
  | some r =>
      simp only [Option.isNone_some]
      by_cases refused : flags.refuses false
      · simp only [if_pos refused]
        exact ⟨rfl, stored.keeps⟩
      · simp only [if_neg refused, clocked.resized, if_true]
        exact meets_stored rfl (KeyRun.settle_of_not_isNew rfl _) forever bounded

/-- A store with an end that lies ahead, by its condition. -/
theorem meets_setValueExpire (arg0 : Bytes) (laws : EndLaws isOver) (stored : Stored isOver now entry reg)
    (works : env.Works) {n : Nat} {value : Bytes} (isArg : msg.getArgStr n = some value)
    (flags : SetFlags) {d : Nat} (ahead : Ahead now d) :
    Meets isOver now (doSetValueExpire (env.clocked isOver now) msg n d flags entry, .string) arg0
      (if flags.refuses reg.isNone then line "$-1" else line "+OK")
      (if flags.refuses reg.isNone then reg else some ⟨value, some (now + d)⟩) := by
  have clocked := works.clocked isOver now
  have positive := ahead.positive
  have fits := ahead.fits
  have stamp : ∀ e : Entry Bytes,
      updateExpire (env.clocked isOver now) d e = { e with exp := now + d } := by
    intro e
    have sum : (d + now) % 2 ^ 64 = now + d := by omega
    simp only [updateExpire, KeyEnv.clocked, ne_eq, show ¬d = 0 by omega, not_false_eq_true,
      ahead.short, and_self, if_true, sum, show ¬now + d = 0 by omega, if_false]
  have alive : isOver now ((some (now + d)).getD 0) = false := ahead.alive laws
  have bounded : ∀ end_ ∈ some (now + d), 0 < end_ ∧ end_ < 2 ^ 63 := by
    rintro end_ ⟨⟩
    omega
  rw [doSetValueExpire]
  simp only [isArg, stored.overwrite works, stamp]
  cases reg with
  | none =>
      simp only [Option.isNone_none]
      by_cases refused : flags.refuses true
      · simp only [if_pos refused]
        exact ⟨rfl, stored_none⟩
      · simp only [if_neg refused, clocked.resized, if_true]
        exact meets_stored rfl rfl alive bounded
  | some r =>
      simp only [Option.isNone_some]
      by_cases refused : flags.refuses false
      · simp only [if_pos refused]
        exact ⟨rfl, stored.keeps⟩
      · simp only [if_neg refused, clocked.resized, if_true]
        exact meets_stored rfl (KeyRun.settle_of_not_isNew rfl _) alive bounded

/-- SET stores its value under all its conditions, with the last of its ends. -/
theorem meets_set (laws : EndLaws isOver) (stored : Stored isOver now entry reg)
    (works : env.Works) {value : Bytes} {options : List SetOption}
    (isArg : msg.getArgStr (2 : Nat) = some value) (spells : SpellsOptions msg 3 options)
    (timely : ∀ option ∈ options, ∀ d ∈ option.duration, Ahead now d) :
    Meets isOver now (execSet (env.clocked isOver now) msg entry, .string) arg0
      (if Admits options reg then line "+OK" else line "$-1")
      (if Admits options reg then some ⟨value, (lastDuration options).map (now + ·)⟩ else reg) := by
  have enough : options.length ≤ msg.argc := by
    have := spells.argc
    omega
  have fits : ∀ option ∈ options, ∀ d ∈ option.duration, d < 2 ^ 64 := by
    intro option member d isDuration
    have := (timely option member d isDuration).fits
    omega
  have read := setOptions_spells spells enough {} 0
  obtain ⟨fresh, there⟩ := foldl_read_flags options {} 0
  obtain ⟨expires, time⟩ := foldl_read_duration options fits {} 0
  revert read fresh there expires time
  generalize options.foldl (fun flags option => option.read flags) ({}, 0) = flags
  intro read fresh there expires time
  have refuses := refuses_admits (by simpa using fresh) (by simpa using there) reg
  rw [execSet, read]
  cases last : lastDuration options with
  | none =>
      have plain : flags.1.hasExpireNs = false := by simpa [last] using expires
      have meets := meets_setValue arg0 laws stored works
        (show RedisCmd.setCmd ≠ .msetnxCmd by decide) isArg flags.1
      simp only [refuses, ite_not] at meets
      simp only [plain, Bool.false_eq_true, if_false]
      exact meets
  | some d =>
      have member := List.mem_of_getLast? last
      obtain ⟨option, isOption, isDuration⟩ := List.mem_filterMap.mp member
      have ends : flags.1.hasExpireNs = true := by simpa [last] using expires
      have ns : flags.2 = d := by simpa [last] using time
      have meets := meets_setValueExpire arg0 laws stored works isArg flags.1
        (timely option isOption d isDuration)
      simp only [refuses, ite_not] at meets
      simp only [ends, if_true, ns]
      exact meets

/-- SETEX and PSETEX store their value with an end. -/
theorem meets_setWithTime (laws : EndLaws isOver) (stored : Stored isOver now entry reg)
    (works : env.Works) {units n : Nat} {value : Bytes} (time : msg.getArgInt 2 = some (n : Int))
    (isArg : msg.getArgStr (3 : Nat) = some value) (ahead : Ahead now (n * units)) :
    Meets isOver now (setWithTime units (env.clocked isOver now) msg entry, .string) arg0
      (line "+OK") (some ⟨value, some (now + n * units)⟩) := by
  have product : toNs n units = n * units := toNs_natCast (by have := ahead.fits; omega)
  have meets := meets_setValueExpire arg0 laws stored works isArg { hasExpireNs := true }
    ahead
  have never : SetFlags.refuses { hasExpireNs := true } reg.isNone = false := by
    cases reg <;> rfl
  rw [setWithTime, time]
  simp only [product]
  simpa only [never, Bool.false_eq_true, if_false] using meets

/-- A stamp is set on a string that is there. A stamp that is over deletes it. -/
theorem meets_setStamp (arg0 : Bytes) (stored : Stored isOver now entry reg) (works : env.Works)
    {exp : Nat} (positive : 0 < exp) (signed : exp < 2 ^ 63) :
    Meets isOver now (setStamp (env.clocked isOver now) exp entry, .noData) arg0
      (sendInt (if reg.isSome then 1 else 0))
      (if isOver now exp then none else reg.map fun r => { r with deadline := some exp }) := by
  rw [Meets, setStamp]
  simp only [stored.fetch works]
  cases reg with
  | none =>
      refine ⟨rfl, ?_⟩
      rw [Option.map_none, ite_self]
      exact stored_none
  | some r =>
      refine ⟨rfl, ?_⟩
      have settled : (updateStamps exp r.entry) = ⟨.string, r.value, exp⟩ := if_neg positive.ne'
      simp only
      rw [KeyRun.settle_of_not_isNew rfl, settled]
      by_cases ended : isOver now exp
      · rw [if_pos ended]
        exact ⟨live_eq_none_iff.mpr ended, fun r none => by cases none⟩
      · rw [if_neg ended]
        refine stored_some (some exp) (Bool.not_eq_true _ ▸ ended) ?_
        rintro d ⟨⟩
        exact ⟨positive, signed⟩

theorem meets_persist (laws : EndLaws isOver) (stored : Stored isOver now entry reg)
    (works : env.Works) :
    Meets isOver now (execPersist (env.clocked isOver now) entry, .noData) arg0
      (sendInt (if reg.isSome then 1 else 0)) (reg.map fun r => { r with deadline := none }) := by
  rw [Meets, execPersist]
  simp only [stored.fetch works]
  cases reg with
  | none => exact ⟨rfl, stored_none⟩
  | some r =>
      refine ⟨rfl, ?_⟩
      rw [KeyRun.settle_of_not_isNew rfl]
      exact stored_some none (laws.never now) fun d none => by cases none

theorem meets_del (stored : Stored isOver now entry reg) (works : env.Works) :
    Meets isOver now (execDel (env.clocked isOver now) true entry, .noData) arg0
      (sendInt (if reg.isSome then 1 else 0)) none := by
  rw [Meets, execDel]
  simp only [stored.fetch works]
  cases reg with
  | none => exact ⟨rfl, stored_none⟩
  | some r => exact ⟨rfl, stored_none⟩

theorem meets_touch (stored : Stored isOver now entry reg) (works : env.Works) :
    Meets isOver now (execTouch (env.clocked isOver now) entry, .noData) arg0
      (sendInt (if reg.isSome then 1 else 0)) reg := by
  rw [Meets, execTouch]
  simp only [stored.fetch works]
  cases reg with
  | none => exact ⟨rfl, stored_none⟩
  | some r => exact ⟨rfl, stored.keeps⟩

end Steps

section Runs

variable {isOver : Nat → Nat → Bool} {now : Nat} {env : KeyEnv} {entry : Option (Entry Bytes)}
  {reg : Option Register} {msg : CommandMsg} {arg0 : Bytes}

/-- A time of EXPIRE counts from the clock. -/
theorem meets_expire (laws : EndLaws isOver) (stored : Stored isOver now entry reg)
    (works : env.Works) (cmd : ExpireCmd) {n : Nat} (time : msg.getArgInt 2 = some (n : Int))
    (ahead : Ahead now (n * cmd.units)) (relative : n * cmd.units < now) :
    Meets isOver now (cmd.run (env.clocked isOver now) msg entry, .noData) arg0
      (sendInt (if reg.isSome then 1 else 0))
      (reg.map fun r => { r with deadline := some (now + n * cmd.units) }) := by
  have positive := ahead.positive
  have fits := ahead.fits
  have product : toNs n cmd.units = n * cmd.units := toNs_natCast (by omega)
  have sum : (n * cmd.units + now) % 2 ^ 64 = now + n * cmd.units := by omega
  have later : 0 < now + n * cmd.units := by omega
  have meets := meets_setStamp arg0 stored works later fits
  rw [ahead.alive laws, if_neg Bool.false_ne_true] at meets
  rw [ExpireCmd.run, doPexpire, time]
  simp only [product]
  rwa [if_pos (show n * cmd.units < (env.clocked isOver now).currentStamp from relative),
    show (env.clocked isOver now).currentStamp = now from rfl, sum]

theorem meets_expireat (stored : Stored isOver now entry reg) (works : env.Works)
    (cmd : ExpireatCmd) {t : Nat} (time : msg.getArgInt 2 = some (t : Int)) (positive : 0 < t)
    (fits : t * cmd.units < 2 ^ 63) :
    Meets isOver now (cmd.run (env.clocked isOver now) msg entry, .noData) arg0
      (sendInt (if reg.isSome then 1 else 0))
      (if isOver now (t * cmd.units) then none
        else reg.map fun r => { r with deadline := some (t * cmd.units) }) := by
  have unit : 0 < cmd.units := by
    cases cmd <;> decide
  have product : toNs t cmd.units = t * cmd.units := toNs_natCast (by omega)
  rw [ExpireatCmd.run, doPexpireat, time]
  simp only [product]
  exact meets_setStamp arg0 stored works (Nat.mul_pos positive unit) fits

/-- Every command answers like the register, and leaves the next one. -/
theorem stringOp_spec (arg0 : Bytes) (laws : EndLaws isOver) (stored : Stored isOver now entry reg)
    (works : env.Works) {op : StringOp} (spelled : op.Spelled msg) (timely : op.Timely now) :
    Meets isOver now (op.run (env.clocked isOver now) true msg entry) arg0
      (op.answer isOver now reg) (op.next isOver now reg) := by
  have clocked := works.clocked isOver now
  have string := stored.string env
  cases op with
  | get => exact meets_get stored works
  | getset value => exact meets_getset laws stored works spelled
  | set value options => exact meets_set laws stored works spelled.1 spelled.2 timely
  | setnx value =>
      have meets := meets_setValue arg0 laws stored works
        (show RedisCmd.setnxCmd ≠ .msetnxCmd by decide) spelled { mustNotExist := true }
      cases reg with
      | none => exact meets
      | some r => exact meets
  | setex n value => exact meets_setWithTime laws stored works spelled.1 spelled.2 timely
  | psetex n value => exact meets_setWithTime laws stored works spelled.1 spelled.2 timely
  | append value => exact stored.meets laws (execAppend_stores clocked string spelled arg0)
  | strlen => exact meets_strlen stored works
  | getrange start stop => exact meets_getrange stored works spelled.1 spelled.2
  | setrange off value =>
      exact stored.meets laws (execSetrange_stores clocked string spelled.1 spelled.2 arg0)
  | setbit off bit =>
      have binary : (if bit then (1 : Int) else 0) = 0 ∨ (if bit then (1 : Int) else 0) = 1 := by
        cases bit <;> simp
      exact stored.meets laws (execSetbit_stores clocked string spelled.1 spelled.2 binary arg0)
  | getbit off => exact meets_getbit stored works spelled
  | add cmd n => exact meets_add laws stored works spelled
  | expire cmd n => exact meets_expire laws stored works cmd spelled timely.1 timely.2
  | expireat cmd t => exact meets_expireat stored works cmd spelled timely.1 timely.2
  | persist => exact meets_persist laws stored works
  | ttl => exact meets_ttl laws stored works secondNs
  | pttl => exact meets_ttl laws stored works millisecondNs
  | del => exact meets_del stored works
  | unlink => exact meets_del stored works
  | exist => exact meets_exist stored works
  | touch => exact meets_touch stored works

/-- What is stored at a later clock. -/
theorem Stored.later (laws : EndLaws isOver) (stored : Stored isOver now entry reg) {later : Nat}
    (order : now ≤ later) :
    Stored isOver later entry (reg.filter fun r => !r.deadline.elim false (isOver later)) := by
  have same : ∀ r : Register, isOver later r.entry.exp = r.deadline.elim false (isOver later) := by
    rintro ⟨value, deadline⟩
    cases deadline with
    | none => exact laws.never later
    | some d => rfl
  constructor
  · rw [live_later laws {} {} order, stored.live]
    cases reg with
    | none => rfl
    | some r =>
        rw [Option.map_some, Option.filter, same r, Option.filter]
        cases r.deadline.elim false (isOver later) <;> rfl
  · intro r left
    exact stored.ends r (Option.filter_eq_some_iff.mp left).1

/-- Strings that are deleted when they are fetched behind their end answer every run like a register
that is emptied as soon as its end is over: over any sequence of commands and of moves of the clock,
all replies are equal, and at the end the live string is the one of the register. -/
theorem strings_refine_register (laws : EndLaws isOver) (start : Nat) {events : List StringEvent}
    (valid : Machine.Along (registerStep isOver) (fun s event => event.Valid s.1) (start, none)
      events) :
    let table := Machine.run (stringStep isOver) (start, none) events
    let register := Machine.run (registerStep isOver) (start, none) events
    table.1 = register.1 ∧ table.2.1 = register.2.1 ∧
      live (KeyEnv.clocked {} isOver table.2.1) table.2.2 =
        register.2.2.map Register.entry := by
  intro table register
  have step : ∀ (s : Nat × Option (Entry Bytes)) (t : Nat × Option Register) (event : StringEvent),
      event.Valid t.1 → s.1 = t.1 ∧ Stored isOver t.1 s.2 t.2 →
        (stringStep isOver s event).1 = (registerStep isOver t event).1 ∧
          (stringStep isOver s event).2.1 = (registerStep isOver t event).2.1 ∧
          Stored isOver (registerStep isOver t event).2.1 (stringStep isOver s event).2.2
            (registerStep isOver t event).2.2 := by
    rintro ⟨_, entry⟩ ⟨now, reg⟩ event good ⟨rfl, stored⟩
    cases event with
    | tick later => exact ⟨rfl, rfl, stored.later laws good.1⟩
    | call c =>
        obtain ⟨works, tombstoned, spelled, timely⟩ := good
        obtain ⟨answer, next⟩ := stringOp_spec c.arg0 laws stored works spelled timely
        rw [← show c.tombstoned = true from tombstoned] at answer next
        exact ⟨answer, rfl, next⟩
  obtain ⟨replies, clock, stored⟩ := Machine.outputs_eq_of_along
    (R := fun (s : Nat × Option (Entry Bytes)) (t : Nat × Option Register) =>
      s.1 = t.1 ∧ Stored isOver t.1 s.2 t.2)
    (s := (start, none)) (t := (start, none)) step valid ⟨rfl, stored_none⟩
  refine ⟨replies, clock, ?_⟩
  rw [show table.2.1 = register.2.1 from clock]
  exact stored.live

/-- A stamp is over from its time on. -/
def endsAt (now exp : Nat) : Bool := exp != 0 && exp ≤ now

theorem endsAt_laws : EndLaws endsAt where
  never now := rfl
  past now exp stamp past := by simp [endsAt, stamp, past.le]
  future now exp ahead := by simp [endsAt, Nat.not_le_of_lt ahead]

/-- The words of a SETEX. -/
def setexWords : CommandMsg := ⟨commandWords ["setex", "k", "5", "a"], by simp [commandWords]⟩

/-- The words of a GET. -/
def getWords : CommandMsg := ⟨commandWords ["get", "k"], by simp [commandWords]⟩

/-- A string is there for five seconds. -/
def stringEvents : List StringEvent :=
  [.call ⟨.setex 5 (text "a"), {}, true, setexWords, []⟩, .tick (4 * secondNs),
    .call ⟨.get, {}, true, getWords, []⟩, .tick (5 * secondNs),
    .call ⟨.get, {}, true, getWords, []⟩]

theorem strings_refine_register_five :
    (Machine.run (stringStep endsAt) (0, none) stringEvents).1 =
      [line "+OK", [], sendConcatString (text "a"), [], line "$-1"] := by
  have works : ({} : KeyEnv).Works := quietEnv_works
  have time : setexWords.getArgInt 2 = some 5 := by decide
  have value : setexWords.getArgStr (3 : Nat) = some (text "a") := by decide
  have valid : Machine.Along (registerStep endsAt) (fun s event => event.Valid s.1) (0, none)
      stringEvents :=
    ⟨⟨works, rfl, ⟨time, value⟩, by decide, by decide, by decide⟩, ⟨by decide, by decide⟩,
      ⟨works, rfl, trivial, trivial⟩, ⟨by decide, by decide⟩, ⟨works, rfl, trivial, trivial⟩,
      trivial⟩
  obtain ⟨replies, -⟩ := strings_refine_register endsAt_laws 0 valid
  exact replies.trans (by decide)

end Runs

end Raids.Key
