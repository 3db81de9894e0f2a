import Raids.Construction.Key.Expire
import Raids.Library.Machine
import Raids.Proof.Key.Continue
import Raids.Proof.Key.Expire
import Raids.Proof.Key.ListEdit
import Raids.Proof.Key.StringStore

namespace Raids.Key
open LittleEndian

section Registers

/-- A string with the time of its end, if it has one. -/
structure Register where
  value : Bytes
  deadline : Option Nat
  deriving DecidableEq, Repr

/-- The entry of a register. A stamp of zero stands for no end. -/
def Register.entry (reg : Register) : Entry Bytes := ⟨.string, reg.value, reg.deadline.getD 0⟩

/-- A stamp is over behind its time and not before it, and zero never is. -/
structure EndLaws (isOver : Nat → Nat → Bool) : Prop where
  never : ∀ now, isOver now 0 = false
  past : ∀ now exp, exp ≠ 0 → exp < now → isOver now exp = true
  future : ∀ now exp, now < exp → isOver now exp = false

/-- A time to live that ends in the range of the signed stamps. -/
structure Ahead (now d : Nat) : Prop where
  positive : 0 < d
  short : d < tenYearsNs
  fits : now + d < 2 ^ 63

/-- The table at a clock. -/
def KeyEnv.clocked (env : KeyEnv) (isOver : Nat → Nat → Bool) (now : Nat) : KeyEnv :=
  { env with currentStamp := now, isExpired := isOver now }

variable {isOver : Nat → Nat → Bool}

theorem EndLaws.mono (laws : EndLaws isOver) {now later exp : Nat} (order : now ≤ later)
    (over_ : isOver now exp = true) : isOver later exp = true := by
  rcases Nat.eq_or_lt_of_le order with rfl | earlier
  · exact over_
  · have stamp : exp ≠ 0 := by
      rintro rfl
      rw [laws.never] at over_
      cases over_
    have ended : ¬now < exp := by
      intro ahead
      rw [laws.future now exp ahead] at over_
      cases over_
    exact laws.past later exp stamp (by omega)

/-- What is live at a later clock was live before. -/
theorem live_later (laws : EndLaws isOver) (env env' : KeyEnv) {now later : Nat}
    (order : now ≤ later) (entry : Option (Entry Bytes)) :
    live (env'.clocked isOver later) entry =
      (live (env.clocked isOver now) entry).filter fun e => !isOver later e.exp := by
  cases entry with
  | none => rfl
  | some e =>
      cases ended : isOver now e.exp with
      | true =>
          have later_ := laws.mono order ended
          simp [live, KeyEnv.clocked, Option.filter, ended, later_]
      | false => simp [live, KeyEnv.clocked, Option.filter, ended]

end Registers

section Options

/-- The options of SET: a time to live in seconds or milliseconds, and the two conditions. -/
inductive SetOption where
  | ex (seconds : Nat)
  | px (milliseconds : Nat)
  | nx
  | xx
  deriving DecidableEq, Repr

/-- The first letter of an option. The second one is an `X`. -/
def SetOption.letter : SetOption → UInt8
  | .ex _ => 69
  | .px _ => 80
  | .nx => 78
  | .xx => 88

/-- The time to live in nanoseconds. -/
def SetOption.duration : SetOption → Option Nat
  | .ex n => some (n * secondNs)
  | .px n => some (n * millisecondNs)
  | .nx | .xx => none

/-- The last time to live counts. -/
def lastDuration (options : List SetOption) : Option Nat :=
  (options.filterMap SetOption.duration).getLast?

/-- The words of a message from an index on are options. -/
def SpellsOptions (msg : CommandMsg) : Nat → List SetOption → Prop
  | i, [] => msg.argc = i
  | i, option :: options =>
      (∃ op x, msg.getArgStr (i : Nat) = some [op, x] ∧ toUpper x = 88 ∧
        toUpper op = option.letter) ∧
      match option with
      | .ex n | .px n => msg.getArgInt (i + 1) = some (n : Int) ∧ SpellsOptions msg (i + 2) options
      | .nx | .xx => SpellsOptions msg (i + 1) options

/-- What an option does to the flags and the time that are read so far. -/
def SetOption.read (option : SetOption) (flags : SetFlags × Nat) : SetFlags × Nat :=
  match option with
  | .ex n => ({ flags.1 with hasExpireNs := true }, toNs n secondNs)
  | .px n => ({ flags.1 with hasExpireNs := true }, toNs n millisecondNs)
  | .nx => ({ flags.1 with mustNotExist := true }, flags.2)
  | .xx => ({ flags.1 with mustExist := true }, flags.2)

variable {msg : CommandMsg} {options : List SetOption}

theorem SpellsOptions.argc {i : Nat} (spells : SpellsOptions msg i options) :
    i + options.length ≤ msg.argc := by
  induction options generalizing i with
  | nil => exact (show msg.argc = i from spells).ge
  | cons option options ih =>
      obtain ⟨-, rest⟩ := spells
      rw [List.length_cons]
      cases option with
      | ex n | px n =>
          have := ih rest.2
          omega
      | nx | xx =>
          have := ih rest
          omega

/-- The options are read one by one. -/
theorem setOptions_spells {i fuel : Nat} (spells : SpellsOptions msg i options)
    (enough : options.length ≤ fuel) (flags : SetFlags) (ns : Nat) :
    setOptions msg fuel i flags ns =
      some (options.foldl (fun flags option => option.read flags) (flags, ns)) := by
  induction options generalizing i fuel flags ns with
  | nil =>
      cases fuel with
      | zero => rfl
      | succ fuel =>
          have last : ¬i < msg.argc := (show msg.argc = i from spells).not_gt
          rw [setOptions, if_neg last]
          rfl
  | cons option options ih =>
      have more := spells.argc
      rw [List.length_cons] at more enough
      obtain ⟨fuel, rfl⟩ : ∃ n, fuel = n + 1 := ⟨fuel - 1, by omega⟩
      obtain ⟨⟨op, x, word, isX, isOp⟩, rest⟩ := spells
      rw [setOptions, if_pos (by omega), word]
      simp only [isX, isOp, ne_eq, not_true_eq_false, if_false]
      cases option with
      | ex n | px n =>
          simp only [SetOption.letter, rest.1]
          rw [ih rest.2 (by omega)]
          rfl
      | nx | xx =>
          simp only [SetOption.letter]
          rw [ih rest (by omega)]
          rfl

end Options

section Folds

variable {options : List SetOption}

/-- The conditions of all options hold together. -/
theorem foldl_read_flags (options : List SetOption) (flags : SetFlags) (ns : Nat) :
    let read := options.foldl (fun flags option => option.read flags) (flags, ns)
    read.1.mustNotExist = (flags.mustNotExist || decide (.nx ∈ options)) ∧
      read.1.mustExist = (flags.mustExist || decide (.xx ∈ options)) := by
  induction options generalizing flags ns with
  | nil => simp
  | cons option options ih =>
      obtain ⟨first, second⟩ := ih (option.read (flags, ns)).1 (option.read (flags, ns)).2
      rw [List.foldl_cons]
      cases option <;> simp_all [SetOption.read]

theorem lastDuration_cons (option : SetOption) (options : List SetOption) :
    lastDuration (option :: options) = (lastDuration options).or option.duration := by
  rw [lastDuration, lastDuration, List.filterMap_cons]
  cases option.duration with
  | none => simp
  | some d =>
      rw [List.getLast?_cons]
      cases (options.filterMap SetOption.duration).getLast? <;> rfl

/-- A product that fits does not wrap around. -/
theorem toNs_natCast {n units : Nat} (fits : n * units < 2 ^ 64) : toNs n units = n * units := by
  rw [toNs, toSize, ← Nat.cast_mul]
  omega

/-- The last time to live is read, when no product wraps around. -/
theorem foldl_read_duration (options : List SetOption)
    (fits : ∀ option ∈ options, ∀ d ∈ option.duration, d < 2 ^ 64) (flags : SetFlags) (ns : Nat) :
    let read := options.foldl (fun flags option => option.read flags) (flags, ns)
    read.1.hasExpireNs = (flags.hasExpireNs || (lastDuration options).isSome) ∧
      read.2 = (lastDuration options).getD ns := by
  induction options generalizing flags ns with
  | nil => simp [lastDuration]
  | cons option options ih =>
      have first := fits option List.mem_cons_self
      obtain ⟨expires, time⟩ := ih (fun option member => fits option (List.mem_cons_of_mem _ member))
        (option.read (flags, ns)).1 (option.read (flags, ns)).2
      rw [List.foldl_cons, lastDuration_cons]
      refine ⟨expires.trans ?_, time.trans ?_⟩
      · cases option <;> cases lastDuration options <;> simp [SetOption.read, SetOption.duration]
      · cases option with
        | ex n | px n =>
            have product := toNs_natCast (first _ rfl)
            cases lastDuration options <;> simp [SetOption.read, SetOption.duration, product]
        | nx | xx => cases lastDuration options <;> rfl

end Folds

section Calls

/-- The commands on one string. -/
inductive StringOp where
  | get
  | getset (value : Bytes)
  | set (value : Bytes) (options : List SetOption)
  | setnx (value : Bytes)
  | setex (seconds : Nat) (value : Bytes)
  | psetex (milliseconds : Nat) (value : Bytes)
  | append (value : Bytes)
  | strlen
  | getrange (start stop : Int)
  | setrange (off : Nat) (value : Bytes)
  | setbit (off : Nat) (bit : Bool)
  | getbit (off : Nat)
  | add (cmd : AddCmd) (n : Int)
  | expire (cmd : ExpireCmd) (n : Nat)
  | expireat (cmd : ExpireatCmd) (t : Nat)
  | persist
  | ttl
  | pttl
  | del
  | unlink
  | exist
  | touch
  deriving DecidableEq, Repr

/-- The message has the words of the command. -/
def StringOp.Spelled (op : StringOp) (msg : CommandMsg) : Prop :=
  match op with
  | .getset value | .append value => msg.getArgStr 2 = some value
  | .set value options => msg.getArgStr (2 : Nat) = some value ∧ SpellsOptions msg 3 options
  | .setnx value => msg.getArgStr (2 : Nat) = some value
  | .setex n value | .psetex n value =>
      msg.getArgInt 2 = some (n : Int) ∧ msg.getArgStr (3 : Nat) = some value
  | .getrange start stop => optionalInt msg 2 0 = some start ∧ optionalInt msg 3 (-1) = some stop
  | .setrange off value => msg.getArgInt 2 = some (off : Int) ∧ msg.getArgStr 3 = some value
  | .setbit off bit =>
      msg.getArgInt 2 = some (off : Int) ∧ msg.getArgInt 3 = some (if bit then 1 else 0)
  | .getbit off => msg.getArgInt 2 = some (off : Int)
  | .add cmd n => cmd.operand msg = some n
  | .expire _ n | .expireat _ n => msg.getArgInt 2 = some (n : Int)
  | _ => True

/-- The times of a command are meant from the clock on, or behind zero. EXPIRE takes a time that is
not before the clock for a stamp. -/
def StringOp.Timely (op : StringOp) (now : Nat) : Prop :=
  match op with
  | .set _ options => ∀ option ∈ options, ∀ d ∈ option.duration, Ahead now d
  | .setex n _ => Ahead now (n * secondNs)
  | .psetex n _ => Ahead now (n * millisecondNs)
  | .expire cmd n => Ahead now (n * cmd.units) ∧ n * cmd.units < now
  | .expireat cmd t => 0 < t ∧ t * cmd.units < 2 ^ 63
  | _ => True

/-- The handler of a command, and the type that its category gives to a new key. -/
def StringOp.run (op : StringOp) (env : KeyEnv) (tombstoned : Bool) (msg : CommandMsg)
    (entry : Option (Entry Bytes)) : KeyRun Bytes × MdType :=
  match op with
  | .get => (execGet env entry, .string)
  | .getset _ => (execGetset env msg entry, .string)
  | .set .. => (execSet env msg entry, .string)
  | .setnx _ => (execSetnx env msg entry, .string)
  | .setex .. => (execSetex env msg entry, .string)
  | .psetex .. => (execPsetex env msg entry, .string)
  | .append _ => (execAppend env msg entry, .string)
  | .strlen => (execStrlen env entry, .string)
  | .getrange .. => (execGetrange env msg entry, .string)
  | .setrange .. => (execSetrange env msg entry, .string)
  | .setbit .. => (execSetbit env msg entry, .string)
  | .getbit _ => (execGetbit env msg entry, .string)
  | .add cmd _ => (cmd.run env msg entry, .string)
  | .expire cmd _ => (cmd.run env msg entry, .noData)
  | .expireat cmd _ => (cmd.run env msg entry, .noData)
  | .persist => (execPersist env entry, .noData)
  | .ttl => (execTtl env entry, .noData)
  | .pttl => (execPttl env entry, .noData)
  | .del => (execDel env tombstoned entry, .noData)
  | .unlink => (execUnlink env tombstoned entry, .noData)
  | .exist => (execExists env entry, .noData)
  | .touch => (execTouch env entry, .noData)

/-- The bytes of a string. A missing one is empty. -/
def bytesOf (reg : Option Register) : Bytes := (reg.map Register.value).getD []

/-- A new value that keeps the end of the old one. -/
def rewrite (reg : Option Register) (value : Bytes) : Option Register :=
  some ⟨value, reg.bind Register.deadline⟩

/-- The conditions of a store. -/
def Admits (options : List SetOption) (reg : Option Register) : Prop :=
  (.nx ∈ options → reg = none) ∧ (.xx ∈ options → reg ≠ none)

instance (options : List SetOption) (reg : Option Register) : Decidable (Admits options reg) :=
  inferInstanceAs (Decidable (_ ∧ _))

/-- The sum of an addition. A string that is no number counts as zero, and the sum wraps around. -/
def addition (reg : Option Register) (cmd : AddCmd) (n : Int) : Int :=
  toInt64 (currentInt (bytesOf reg) + cmd.addend n)

/-- What a command does to the string at a clock. -/
def StringOp.next (op : StringOp) (isOver : Nat → Nat → Bool) (now : Nat)
    (reg : Option Register) : Option Register :=
  match op with
  | .getset value => some ⟨value, none⟩
  | .set value options =>
      if Admits options reg then some ⟨value, (lastDuration options).map (now + ·)⟩ else reg
  | .setnx value => if reg = none then some ⟨value, none⟩ else reg
  | .setex n value => some ⟨value, some (now + n * secondNs)⟩
  | .psetex n value => some ⟨value, some (now + n * millisecondNs)⟩
  | .append value => rewrite reg (bytesOf reg ++ value)
  | .setrange off value => rewrite reg (Key.setrange (bytesOf reg) off value)
  | .setbit off bit => rewrite reg (Key.setbit (bytesOf reg) off (if bit then 1 else 0))
  | .add cmd n => rewrite reg (int64ToString (addition reg cmd n))
  | .expire cmd n => reg.map fun r => { r with deadline := some (now + n * cmd.units) }
  | .expireat cmd t =>
      if isOver now (t * cmd.units) then none
      else reg.map fun r => { r with deadline := some (t * cmd.units) }
  | .persist => reg.map fun r => { r with deadline := none }
  | .del | .unlink => none
  | _ => reg

/-- The time that is left, in a unit: none for a missing string, or without an end. -/
def timeLeft (units now : Nat) (reg : Option Register) : Int :=
  match reg with
  | none => -2
  | some r => r.deadline.elim (-1) fun d => ((d - now) / units : Nat)

/-- What a command replies at a clock. -/
def StringOp.answer (op : StringOp) (isOver : Nat → Nat → Bool) (now : Nat)
    (reg : Option Register) : Bytes :=
  match op with
  | .get | .getset _ => (reg.map Register.value).elim (line "$-1") sendConcatString
  | .set _ options => if Admits options reg then line "+OK" else line "$-1"
  | .setnx _ => if reg = none then line "+OK" else line "$-1"
  | .setex .. | .psetex .. => line "+OK"
  | .append _ | .setrange .. => sendInt (bytesOf (op.next isOver now reg)).length
  | .strlen => sendInt (bytesOf reg).length
  | .getrange start stop => sendConcatString (clampedRange (bytesOf reg) start stop)
  | .setbit off _ | .getbit off => sendInt (if bitAt (bytesOf reg) off then 1 else 0)
  | .add cmd n => sendInt (addition reg cmd n)
  | .ttl => sendInt (timeLeft secondNs now reg)
  | .pttl => sendInt (timeLeft millisecondNs now reg)
  | .expire .. | .expireat .. | .persist | .del | .unlink | .exist | .touch =>
      sendInt (if reg.isSome then 1 else 0)

/-- A command with its message and the table that it meets. -/
structure StringCall where
  op : StringOp
  env : KeyEnv := {}
  tombstoned : Bool := true
  msg : CommandMsg
  arg0 : Bytes := []

/-- The clock moves on, or a command is executed. -/
inductive StringEvent where
  | tick (now : Nat)
  | call (call : StringCall)

/-- The table deletes a string when it is fetched behind its end. -/
def stringStep (isOver : Nat → Nat → Bool) (s : Nat × Option (Entry Bytes)) (event : StringEvent) :
    Bytes × Nat × Option (Entry Bytes) :=
  match event with
  | .tick now => ([], now, s.2)
  | .call c =>
      let (run, catg) := c.op.run (c.env.clocked isOver s.1) c.tombstoned c.msg s.2
      (run.reply c.arg0, s.1, run.settle catg)

/-- The register is empty as soon as its end is over. -/
def registerStep (isOver : Nat → Nat → Bool) (s : Nat × Option Register) (event : StringEvent) :
    Bytes × Nat × Option Register :=
  match event with
  | .tick now => ([], now, s.2.filter fun r => !r.deadline.elim false (isOver now))
  | .call c => (c.op.answer isOver s.1 s.2, s.1, c.op.next isOver s.1 s.2)

/-- The clock does not go back and keeps half of its range, the tables work, and the messages spell
the commands. -/
def StringEvent.Valid (event : StringEvent) (now : Nat) : Prop :=
  match event with
  | .tick later => now ≤ later ∧ later < 2 ^ 63
  | .call c => c.env.Works ∧ c.tombstoned ∧ c.op.Spelled c.msg ∧ c.op.Timely now

end Calls

end Raids.Key
