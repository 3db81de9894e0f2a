import Raids.Construction.Key.Add
import Raids.Proof.Key.Entry
import Raids.Proof.Msg.Numeral

namespace Raids.Key

/-- What a command finds at its key or field. -/
inductive Value where
  | absent
  | bytes (str : Bytes)
  | other
  deriving DecidableEq, Repr

/-- The number of a value. An absent value counts as zero. -/
def Value.Holds : Value → Int → Prop
  | .absent, v => v = 0
  | .bytes str, v => IsIntText str v ∧ InInt64 v
  | .other, _ => False

/-- The sum is stored when there is one and it fits, and otherwise the command is refused. -/
def ExactOrNoEffect (value : Value) (incr : Option Int) (stores : Int → Prop) (refused : Prop) :
    Prop :=
  (∀ n v, incr = some n → value.Holds v → InInt64 (v + n) → stores (v + n)) ∧
    ((¬∃ n v, incr = some n ∧ value.Holds v ∧ InInt64 (v + n)) → refused)

/-- A command that stores one number is exact when that number is the sum. -/
theorem exactOrNoEffect_of_stores {value : Value} {incr : Option Int} {stores : Int → Prop}
    {refused : Prop} {m : Int} (one : ∀ k, stores k ↔ k = m) (accepted : ¬refused) :
    ExactOrNoEffect value incr stores refused ↔
      ∃ n v, incr = some n ∧ value.Holds v ∧ InInt64 (v + n) ∧ v + n = m := by
  apply Iff.intro
  · rintro ⟨exact, refuses⟩
    by_contra noSum
    apply accepted
    apply refuses
    rintro ⟨n, v, isIncr, holds, fits⟩
    exact noSum ⟨n, v, isIncr, holds, fits, (one _).mp (exact n v isIncr holds fits)⟩
  · rintro ⟨n, v, isIncr, holds, fits, sum⟩
    apply And.intro
    · intro n' v' isIncr' holds' _
      obtain rfl : n = n' := Option.some.inj (isIncr.symm.trans isIncr')
      have same : v = v' := by
        cases value with
        | absent => exact Eq.trans holds (Eq.symm holds')
        | bytes str => exact holds.1.unique holds'.1
        | other => exact absurd holds id
      rw [one, ← same]
      exact sum
    · intro noSum
      exact absurd ⟨n, v, isIncr, holds, fits⟩ noSum

/-- A command that refuses is exact when there is no sum. -/
theorem exactOrNoEffect_of_refused {value : Value} {incr : Option Int} {stores : Int → Prop}
    {refused : Prop} (noSum : ¬∃ n v, incr = some n ∧ value.Holds v) (refuses : refused) :
    ExactOrNoEffect value incr stores refused :=
  ⟨fun n v isIncr holds _ => absurd ⟨n, v, isIncr, holds⟩ noSum, fun _ => refuses⟩

theorem toInt64_of_inInt64 {v : Int} (fits : InInt64 v) : toInt64 v = v := by
  rw [InInt64] at fits
  rw [toInt64, Int.bmod_eq_of_le] <;> omega

theorem inInt64_toInt64 (v : Int) : InInt64 (toInt64 v) := by
  have lower := Int.le_bmod (x := v) (m := 2 ^ 64) (by decide)
  have upper := Int.bmod_lt (x := v) (m := 2 ^ 64) (by decide)
  rw [InInt64, toInt64]
  norm_num at lower upper ⊢
  omega

theorem isIntText_int64ToString (v : Int) : IsIntText (int64ToString v) v := by
  apply Exists.intro (decide (v < 0))
  apply Exists.intro (Decimal.decimal v.natAbs)
  apply And.intro (int64ToString_eq v)
  apply And.intro (Decimal.decimal_ne_nil _)
  apply And.intro (Decimal.isDigit_of_mem_decimal _)
  rw [Decimal.value_decimal, signed]
  by_cases negative : v < 0 <;> simp only [negative, decide_true, decide_false, if_true,
    Bool.false_eq_true, if_false] <;> omega

theorem int64ToString_injective {v w : Int} (same : int64ToString v = int64ToString w) : v = w :=
  (isIntText_int64ToString v).unique (same ▸ isIntText_int64ToString w)

theorem int64ToString_natCast (k : Nat) : int64ToString k = uint64ToString k := by
  rw [int64ToString, if_neg (by omega), Int.natAbs_natCast]

/-- The line of a number ends at its return. -/
theorem numberLine_injective {k k' : Nat} {rest rest' : Bytes}
    (same : uint64ToString k ++ crlf ++ rest = uint64ToString k' ++ crlf ++ rest') :
    k = k' ∧ rest = rest' := by
  have digits : ∀ (k : Nat) (rest : Bytes),
      (uint64ToString k ++ crlf ++ rest).takeWhile (· ≠ cr) = uint64ToString k := by
    intro k rest
    have noReturn : ∀ c ∈ uint64ToString k, c ≠ cr := by
      intro c found isReturn
      rw [← int64ToString_natCast] at found
      exact not_mem_int64ToString (isReturn ▸ by decide) found
    rw [List.append_assoc, List.takeWhile_append_of_pos (by simpa using noReturn)]
    simp [crlf]
  have sameDigits := (digits k rest).symm.trans ((congrArg _ same).trans (digits k' rest'))
  rw [sameDigits, List.append_assoc, List.append_assoc] at same
  rw [← int64ToString_natCast, ← int64ToString_natCast] at sameDigits
  exact ⟨Int.ofNat.inj (int64ToString_injective sameDigits),
    List.append_cancel_left (List.append_cancel_left same)⟩

theorem sendInt_injective {v w : Int} (same : sendInt v = sendInt w) : v = w := by
  have lines : integerChar :: int64ToString v = integerChar :: int64ToString w :=
    List.append_cancel_right same
  exact int64ToString_injective (List.cons.inj lines).2

theorem sendInt_zero : line ":0" = sendInt 0 := by decide

/-- An error starts with a dash. -/
theorem head_sendErrString (arg0 : Bytes) (status : ExecStatus) :
    (sendErrString arg0 status).head? = some 45 := by
  have dash : (text (errString status)).head? = some 45 := by
    cases status <;> rfl
  obtain ⟨rest, isText⟩ := List.head?_eq_some_iff.mp dash
  rw [sendErrString, isText]
  rfl

/-- An error is no number. -/
theorem sendErrString_ne_sendInt (arg0 : Bytes) (status : ExecStatus) (v : Int) :
    sendErrString arg0 status ≠ sendInt v := by
  intro same
  have heads := head_sendErrString arg0 status
  rw [same] at heads
  simp [sendInt, integerChar] at heads

theorem sendStatus_of_isError {status : ExecStatus} (error : status.isError) (arg0 : Bytes)
    (ival : Int) : sendStatus arg0 ival status = sendErrString arg0 status := by
  cases status <;> first | rfl | exact absurd error (by decide)

/-- The recogniser reads a number, or the value counts as zero. -/
theorem currentInt_eq (str : Bytes) :
    currentInt str = match stringToInt str with | .ok v => v | .error _ => 0 := by
  rw [currentInt]
  cases str with
  | nil => rfl
  | cons c str =>
      cases read : stringToInt (c :: str) <;> simp [read]

/-- The recogniser reads a number and the sum fits, or the value is a zero of any length. -/
def Value.AddsRight : Value → Int → Prop
  | .absent, _ => True
  | .bytes str, n => (∃ v, stringToInt str = .ok v ∧ InInt64 (v + n)) ∨ IsIntText str 0
  | .other, _ => True

/-- The number that the code stores, if it stores one. -/
def Value.stored : Value → Int → Option Int
  | .absent, n => some (toInt64 n)
  | .bytes str, n => some (toInt64 (currentInt str + n))
  | .other, _ => none

/-- The code stores the sum under the condition only. -/
theorem stored_exact {value : Value} {n m : Int} (fits : InInt64 n)
    (stored : value.stored n = some m) :
    (∃ v, value.Holds v ∧ InInt64 (v + n) ∧ v + n = m) ↔ value.AddsRight n := by
  cases value with
  | absent =>
      obtain rfl := Option.some.inj stored
      apply iff_of_true _ trivial
      exact ⟨0, rfl, by rwa [zero_add], by rw [zero_add, toInt64_of_inInt64 fits]⟩
  | other => cases stored
  | bytes str =>
      obtain rfl := Option.some.inj stored
      rw [currentInt_eq]
      cases read : stringToInt str with
      | ok w =>
          have number := isIntText_of_stringToInt read
          apply Iff.intro
          · rintro ⟨v, holds, sumFits, _⟩
            rw [holds.1.unique number.1] at sumFits
            exact Or.inl ⟨w, read, sumFits⟩
          · intro right
            have sumFits : InInt64 (w + n) := by
              rcases right with ⟨v, again, sumFits⟩ | zero
              · rwa [Except.ok.inj (read.symm.trans again)]
              · rwa [number.1.unique zero, zero_add]
            exact ⟨w, number, sumFits, (toInt64_of_inInt64 sumFits).symm⟩
      | error status =>
          simp only [zero_add, toInt64_of_inInt64 fits]
          apply Iff.intro
          · rintro ⟨v, holds, _, sum⟩
            obtain rfl : v = 0 := by omega
            exact Or.inr holds.1
          · rintro (⟨v, again, _⟩ | zero)
            · rw [read] at again
              cases again
            · exact ⟨0, ⟨zero, by decide⟩, by rwa [zero_add], zero_add n⟩

theorem Value.stored_eq_none {value : Value} {n : Int} (none : value.stored n = none) :
    value = .other := by
  cases value with
  | other => rfl
  | absent | bytes str => cases none

/-- A command that stores the number of the code, or refuses another type, is exact under the
condition only. -/
theorem exactOrNoEffect_iff {value : Value} {incr : Option Int} {a : Int} {stores : Int → Prop}
    {refused : Prop} (fits : InInt64 a) (same : ∀ k, incr = some k → a = k)
    (outcome : match value.stored a with
      | some m => (∀ k, stores k ↔ k = m) ∧ ¬refused
      | none => refused) :
    ExactOrNoEffect value incr stores refused ↔
      value = .other ∨ ∃ k, incr = some k ∧ value.AddsRight k := by
  cases stored : value.stored a with
  | none =>
      rw [stored] at outcome
      have other := Value.stored_eq_none stored
      apply iff_of_true
      · apply exactOrNoEffect_of_refused _ outcome
        rintro ⟨_, _, _, holds⟩
        rw [other] at holds
        exact holds
      · exact Or.inl other
  | some m =>
      rw [stored] at outcome
      rw [exactOrNoEffect_of_stores outcome.1 outcome.2]
      apply Iff.intro
      · rintro ⟨k, v, isIncr, holds, sumFits, sum⟩
        have addend := same k isIncr
        subst addend
        exact Or.inr ⟨a, isIncr, (stored_exact fits stored).mp ⟨v, holds, sumFits, sum⟩⟩
      · rintro (other | ⟨k, isIncr, right⟩)
        · rw [other] at stored
          cases stored
        · have addend := same k isIncr
          subst addend
          obtain ⟨v, holds, sumFits, sum⟩ := (stored_exact fits stored).mpr right
          exact ⟨a, v, isIncr, holds, sumFits, sum⟩

/-- An integer argument is an int64 when the integers of the message are. -/
theorem inInt64_getArgInt {msg : CommandMsg}
    (ints : ∀ ival, .integer ival ∈ msg.args → InInt64 ival) {i : Nat} {n : Int}
    (read : msg.getArgInt i = some n) : InInt64 n := by
  have text : ∀ (len : Int) (strval : Bytes),
      (if 0 < len then (stringToInt (strval.take len.toNat)).toOption else none) = some n →
        InInt64 n := by
    intro len strval read
    by_cases positive : 0 < len
    · rw [if_pos positive] at read
      cases number : stringToInt (strval.take len.toNat) with
      | error status => rw [number] at read; cases read
      | ok v =>
          rw [number] at read
          obtain rfl := Option.some.inj read
          exact (isIntText_of_stringToInt number).2
    · rw [if_neg positive] at read
      cases read
  rw [CommandMsg.getArgInt] at read
  cases arg : msg.args[i]? with
  | none => rw [arg] at read; cases read
  | some m =>
      rw [arg] at read
      cases m with
      | string type len strval =>
          cases type with
          | errorString => cases read
          | bulkString | simpleString => exact text len strval read
      | integer ival =>
          obtain rfl := Option.some.inj read
          exact ints _ (List.mem_of_getElem? arg)
      | array len elems => cases read

section Strings

variable {env : KeyEnv}

/-- The value of a string key. -/
def stringValue (env : KeyEnv) (entry : Option (Entry Bytes)) : Value :=
  match live env entry with
  | none => .absent
  | some e =>
      if e.type = .noData then .absent
      else if e.type = .string then .bytes e.data
      else .other

/-- The bytes that a command reads of a key. A missing string is empty. -/
def Value.string? : Value → Option Bytes
  | .absent => some []
  | .bytes str => some str
  | .other => none

/-- The read of a string key finds its value. -/
theorem getKeyRead_string (works : env.Works) (entry : Option (Entry Bytes)) :
    match stringValue env entry with
    | .absent => (getKeyRead env .string entry).kstatus = some .keyNotFound
    | .bytes data => ∃ e, (getKeyRead env .string entry).kstatus = some .keyOk ∧
        (getKeyRead env .string entry).entry = some e ∧ e.data = data
    | .other => (getKeyRead env .string entry).kstatus = some .keyNoValue := by
  rw [getKeyRead_works works, stringValue]
  cases live env entry with
  | none => rfl
  | some e =>
      by_cases string : e.type = .string
      · simp [string]
      · by_cases untyped : e.type = .noData
        · simp [untyped]
        · simp [string, untyped]

/-- The number is sent and stored as text, and the expiry stays. -/
def StoresText (env : KeyEnv) (entry : Option (Entry Bytes)) (arg0 : Bytes) (run : KeyRun Bytes)
    (k : Int) : Prop :=
  run.reply arg0 = sendInt k ∧
    run.settle .string =
      some ⟨.string, int64ToString k, ((live env entry).map Entry.exp).getD 0⟩

/-- The command replies with an error and the entry is the one that was there. -/
def Refused {D : Type} (entry : Option (Entry D)) (run : KeyRun D) (catg : MdType) : Prop :=
  run.status.isError ∧ run.settle catg = entry

theorem live_eq_some {D : Type} {entry : Option (Entry D)} {e : Entry D}
    (found : live env entry = some e) : entry = some e := by
  rw [live, Option.filter_eq_some_iff] at found
  exact found.1

/-- The addition stores the number of the code, or it refuses a key of another type. -/
theorem doAdd_value (works : env.Works) (n : Int) (entry : Option (Entry Bytes)) (arg0 : Bytes) :
    match (stringValue env entry).stored n with
    | some m =>
        StoresText env entry arg0 (doAdd env n entry) m ∧ (doAdd env n entry).status = .execOk
    | none => Refused entry (doAdd env n entry) .string := by
  rw [doAdd, getKeyWrite_works works, stringValue]
  cases found : live env entry with
  | none =>
      simp [Value.stored, addValue, works.resized, StoresText, KeyRun.reply, KeyRun.settle,
        Fetched.stop, Entry.write, sendStatus, found, ExecStatus.isSuccess]
      decide
  | some e =>
      have same := live_eq_some found
      by_cases string : e.type = .string
      · simp [Value.stored, addValue, works.resized, works.valued, StoresText, KeyRun.reply,
          KeyRun.settle, Fetched.stop, Entry.write, sendStatus, found, string]
      · by_cases untyped : e.type = .noData
        · simp [Value.stored, addValue, works.resized, StoresText, KeyRun.reply, KeyRun.settle,
            Fetched.stop, Entry.write, sendStatus, found, untyped, ExecStatus.isSuccess]
          decide
        · simp [Value.stored, Refused, KeyRun.settle, Fetched.stop, string, untyped, same]
          decide

/-- The commands that add to a string key. -/
inductive AddCmd where
  | incr | decr | incrby | decrby
  deriving DecidableEq, Repr

def AddCmd.run (cmd : AddCmd) (env : KeyEnv) (msg : CommandMsg) (entry : Option (Entry Bytes)) :
    KeyRun Bytes :=
  match cmd with
  | .incr => execIncr env entry
  | .decr => execDecr env entry
  | .incrby => execIncrby env msg entry
  | .decrby => execDecrby env msg entry

/-- The number that the client gives. -/
def AddCmd.operand (cmd : AddCmd) (msg : CommandMsg) : Option Int :=
  match cmd with
  | .incr | .decr => some 1
  | .incrby | .decrby => msg.getArgInt 2

/-- The number that the code adds. -/
def AddCmd.addend (cmd : AddCmd) (n : Int) : Int :=
  match cmd with
  | .incr | .incrby => n
  | .decr | .decrby => toInt64 (-n)

/-- The increment of a command, if it is an int64. -/
def AddCmd.increment (cmd : AddCmd) (msg : CommandMsg) : Option Int :=
  (cmd.operand msg).bind fun n =>
    match cmd with
    | .incr | .incrby => some n
    | .decr | .decrby => if InInt64 (-n) then some (-n) else none

theorem AddCmd.run_eq (cmd : AddCmd) (env : KeyEnv) (msg : CommandMsg)
    (entry : Option (Entry Bytes)) :
    cmd.run env msg entry =
      match cmd.operand msg with
      | none => unfetched .errBadArgs entry
      | some n => doAdd env (cmd.addend n) entry := by
  cases cmd with
  | incr => rfl
  | decr => rfl
  | incrby => rfl
  | decrby => rfl

theorem AddCmd.inInt64_addend (cmd : AddCmd) {n : Int} (fits : InInt64 n) :
    InInt64 (cmd.addend n) := by
  cases cmd with
  | incr | incrby => exact fits
  | decr | decrby => exact inInt64_toInt64 _

/-- An increment is the number that the code adds. -/
theorem AddCmd.addend_of_increment {cmd : AddCmd} {msg : CommandMsg} {n k : Int}
    (operand : cmd.operand msg = some n) (increment : cmd.increment msg = some k) :
    cmd.addend n = k := by
  rw [AddCmd.increment, operand, Option.bind_some] at increment
  cases cmd with
  | incr | incrby => exact Option.some.inj increment
  | decr | decrby =>
      by_cases fits : InInt64 (-n)
      · simp only [if_pos fits, Option.some.injEq] at increment
        rw [AddCmd.addend, toInt64_of_inInt64 fits, increment]
      · simp only [if_neg fits, reduceCtorEq] at increment

/-- The condition of the sum, or a command that is refused. -/
def AddCmd.Meets (cmd : AddCmd) (msg : CommandMsg) (value : Value) : Prop :=
  cmd.operand msg = none ∨ value = .other ∨
    ∃ n, cmd.increment msg = some n ∧ value.AddsRight n

/-- A command on a string key is exact under its condition only. -/
theorem AddCmd.exact_iff (works : env.Works) (cmd : AddCmd) (msg : CommandMsg) (arg0 : Bytes)
    (ints : ∀ ival, .integer ival ∈ msg.args → InInt64 ival) (entry : Option (Entry Bytes)) :
    ExactOrNoEffect (stringValue env entry) (cmd.increment msg)
        (StoresText env entry arg0 (cmd.run env msg entry))
        (Refused entry (cmd.run env msg entry) .string) ↔
      cmd.Meets msg (stringValue env entry) := by
  rw [AddCmd.run_eq, AddCmd.Meets]
  cases operand : cmd.operand msg with
  | none =>
      have noIncrement : cmd.increment msg = none := by rw [AddCmd.increment, operand]; rfl
      apply iff_of_true _ (Or.inl rfl)
      apply exactOrNoEffect_of_refused
      · rintro ⟨n, v, increment, _⟩
        rw [noIncrement] at increment
        cases increment
      · exact ⟨rfl, rfl⟩
  | some n =>
      have fits : InInt64 n := by
        cases cmd with
        | incr | decr => obtain rfl := Option.some.inj operand; decide
        | incrby | decrby => exact inInt64_getArgInt ints operand
      simp only [reduceCtorEq, false_or]
      apply exactOrNoEffect_iff (cmd.inInt64_addend fits)
      · intro k increment
        exact AddCmd.addend_of_increment operand increment
      have outcome := doAdd_value works (cmd.addend n) entry arg0
      cases stored : (stringValue env entry).stored (cmd.addend n) with
      | none =>
          rw [stored] at outcome
          exact outcome
      | some m =>
          rw [stored] at outcome
          obtain ⟨stores, ok⟩ := outcome
          apply And.intro
          · intro k
            apply Iff.intro
            · intro again
              have same := again.2.symm.trans stores.2
              simp only [Option.some.injEq, Entry.mk.injEq, true_and, and_true] at same
              exact int64ToString_injective same
            · rintro rfl
              exact stores
          · intro refused
            have error := refused.1
            simp only [ok] at error
            exact absurd error (by decide)

end Strings

section Hashes

variable {env : KeyEnv}

@[simp] theorem hget_hupdate (hash : HashData) (field text : Bytes) :
    (hash.hupdate field text).hget field = some text := by
  induction hash with
  | nil => simp [HashData.hupdate, HashData.hget]
  | cons pair hash ih =>
      rw [HashData.hupdate]
      by_cases same : field == pair.1
      · rw [if_pos same]
        simp [HashData.hget]
      · rw [if_neg same, HashData.hget, List.lookup_cons, Bool.eq_false_of_not_eq_true same]
        exact ih

theorem hget_hupdate_of_ne (hash : HashData) {field other : Bytes} (ne : other ≠ field)
    (text : Bytes) : (hash.hupdate field text).hget other = hash.hget other := by
  induction hash with
  | nil => simp [HashData.hupdate, HashData.hget, List.lookup_cons, beq_false_of_ne ne]
  | cons pair hash ih =>
      rw [HashData.hupdate]
      by_cases same : field == pair.1
      · rw [if_pos same, HashData.hget, HashData.hget, List.lookup_cons, List.lookup_cons,
          ← eq_of_beq same, beq_false_of_ne ne]
      · rw [if_neg same, HashData.hget, HashData.hget, List.lookup_cons, List.lookup_cons]
        rw [HashData.hget, HashData.hget] at ih
        rw [ih]

/-- The parts of a value give the number of the value, also when the buffer cuts them off. -/
theorem currentInt_joinParts (cut : Nat) (value : Bytes) :
    currentInt (joinParts cut value) = currentInt value := by
  have long : ∀ {str : Bytes}, 21 < str.length → currentInt str = 0 := by
    intro str size
    rw [currentInt_eq]
    cases read : stringToInt str with
    | error status => rfl
    | ok v => exact absurd (length_of_stringToInt read) (by omega)
  rw [joinParts]
  by_cases first : (value.drop cut).isEmpty
  · rw [if_pos first, List.take_of_length_le]
    rwa [List.isEmpty_iff, List.drop_eq_nil_iff] at first
  · rw [if_neg first]
    by_cases second : (value.take cut).isEmpty
    · rw [if_pos second]
      have whole := List.take_append_drop cut value
      rw [List.isEmpty_iff.mp second, List.nil_append] at whole
      rw [whole]
    · rw [if_neg second]
      by_cases short : value.length ≤ 64
      · rw [List.take_of_length_le short]
      · rw [long (by rw [List.length_take]; omega), long (by omega)]

/-- The value of a field of a hash key. -/
def fieldValue (env : KeyEnv) (field : Bytes) (entry : Option (Entry HashData)) : Value :=
  match live env entry with
  | none => .absent
  | some e =>
      if e.type = .noData then .absent
      else if e.type = .hash then (e.data.hget field).elim .absent .bytes
      else .other

/-- The fields of a hash key. -/
def hashFields (env : KeyEnv) (entry : Option (Entry HashData)) : HashData :=
  match live env entry with
  | none => []
  | some e => if e.type = .hash then e.data else []

/-- The number is sent and stored in the field as text, and the other fields stay. -/
def StoresField (env : KeyEnv) (field : Bytes) (entry : Option (Entry HashData)) (arg0 : Bytes)
    (run : KeyRun HashData) (k : Int) : Prop :=
  run.reply arg0 = sendInt k ∧
    ∃ e, run.settle .hash = some e ∧ e.type = .hash ∧
      e.exp = ((live env entry).map Entry.exp).getD 0 ∧
      e.data.hget field = some (int64ToString k) ∧
      ∀ other, other ≠ field → e.data.hget other = (hashFields env entry).hget other

theorem hincrLoop_works (cut : Nat) (field : Bytes) (incr : Int) (run : KeyRun HashData)
    (e : Entry HashData) {grow : List Bool} (grows : ∀ grown ∈ grow, grown = true) :
    hincrLoop cut field incr run e grow = hincrLoop cut field incr run e [] := by
  induction grow with
  | nil => rfl
  | cons grown grow ih =>
      obtain rfl := grows grown (by simp)
      rw [hincrLoop]
      exact ih fun more member => grows more (by simp [member])

theorem fieldSum_eq (cut : Nat) (hash : HashData) (field : Bytes) {incr : Int}
    (fits : InInt64 incr) :
    some (fieldSum cut hash field incr) =
      ((hash.hget field).elim Value.absent Value.bytes).stored incr := by
  rw [fieldSum]
  cases hash.hget field with
  | none => simp [Value.stored, toInt64_of_inInt64 fits]
  | some value =>
      have parts := currentInt_joinParts cut value
      rw [currentInt_eq] at parts
      simp only [Option.elim, Value.stored, ← parts]
      cases stringToInt (joinParts cut value) with
      | ok jval => simp only [add_comm]
      | error status => simp only [zero_add, toInt64_of_inInt64 fits]

theorem storesField_of_settle {field : Bytes} {entry : Option (Entry HashData)}
    {run : KeyRun HashData} {m : Int} (ok : run.status = .execOk) (sent : run.out = sendInt m)
    (settled : run.settle .hash =
      some ⟨.hash, (hashFields env entry).hupdate field (int64ToString m),
        ((live env entry).map Entry.exp).getD 0⟩) (arg0 : Bytes) :
    StoresField env field entry arg0 run m ∧ run.status = .execOk := by
  apply And.intro _ ok
  apply And.intro
  · rw [KeyRun.reply, ok, sent, sendStatus, List.append_nil]
  · exact ⟨_, settled, rfl, rfl, hget_hupdate _ _ _,
      fun other ne => hget_hupdate_of_ne _ ne _⟩

/-- The addition stores the number of the code in the field, or it refuses a key of another
type. -/
theorem execHincrby_value (works : env.Works) (cut : Nat) {msg : CommandMsg} {field : Bytes}
    {n : Int} (isField : msg.getArgStr 2 = some field) (isIncr : msg.getArgInt 3 = some n)
    (fits : InInt64 n) (entry : Option (Entry HashData)) (arg0 : Bytes) :
    match (fieldValue env field entry).stored n with
    | some m =>
        StoresField env field entry arg0 (execHincrby env cut msg entry) m ∧
          (execHincrby env cut msg entry).status = .execOk
    | none => Refused entry (execHincrby env cut msg entry) .hash := by
  simp only [execHincrby, isField, isIncr]
  rw [getKeyWrite_works works, fieldValue]
  have empty : Value.absent.stored n = some (fieldSum cut [] field n) :=
    (fieldSum_eq cut [] field fits).symm
  cases found : live env entry with
  | none =>
      simp only [works.resized, if_true, hincrLoop_works _ _ _ _ _ works.grows]
      rw [hincrLoop, empty]
      apply storesField_of_settle rfl rfl
      simp [KeyRun.settle, ExecStatus.isSuccess, Entry.write, hashFields, found, Fetched.stop]
      decide
  | some e =>
      have same := live_eq_some found
      by_cases hash : e.type = .hash
      · simp only [hash, works.valued, if_true, reduceCtorEq, if_false,
          hincrLoop_works _ _ _ _ _ works.grows]
        rw [hincrLoop, ← fieldSum_eq cut e.data field fits]
        apply storesField_of_settle rfl rfl
        simp [KeyRun.settle, hashFields, found, hash, Fetched.stop]
      · by_cases untyped : e.type = .noData
        · simp only [untyped, works.resized, if_true, reduceCtorEq, if_false,
            hincrLoop_works _ _ _ _ _ works.grows]
          rw [hincrLoop, empty]
          apply storesField_of_settle rfl rfl
          simp [KeyRun.settle, ExecStatus.isSuccess, Entry.write, hashFields, found, untyped,
            Fetched.stop]
          decide
        · simp [Value.stored, Refused, KeyRun.settle, Fetched.stop, hash, untyped, same]
          decide

/-- An increment of a field is exact under its condition only. -/
theorem execHincrby_exact_iff (works : env.Works) (cut : Nat) {msg : CommandMsg}
    (ints : ∀ ival, .integer ival ∈ msg.args → InInt64 ival) {field : Bytes}
    (isField : msg.getArgStr 2 = some field) (entry : Option (Entry HashData)) (arg0 : Bytes) :
    ExactOrNoEffect (fieldValue env field entry) (msg.getArgInt 3)
        (StoresField env field entry arg0 (execHincrby env cut msg entry))
        (Refused entry (execHincrby env cut msg entry) .hash) ↔
      msg.getArgInt 3 = none ∨ fieldValue env field entry = .other ∨
        ∃ n, msg.getArgInt 3 = some n ∧ (fieldValue env field entry).AddsRight n := by
  cases operand : msg.getArgInt 3 with
  | none =>
      apply iff_of_true _ (Or.inl rfl)
      apply exactOrNoEffect_of_refused
      · rintro ⟨n, v, increment, _⟩
        cases increment
      · simp only [execHincrby, isField, operand]
        exact ⟨rfl, rfl⟩
  | some n =>
      have fits := inInt64_getArgInt ints operand
      simp only [reduceCtorEq, false_or]
      apply exactOrNoEffect_iff fits
      · intro k increment
        exact Option.some.inj increment
      have outcome := execHincrby_value works cut isField operand fits entry arg0
      cases stored : (fieldValue env field entry).stored n with
      | none =>
          rw [stored] at outcome
          exact outcome
      | some m =>
          rw [stored] at outcome
          obtain ⟨stores, ok⟩ := outcome
          apply And.intro
          · intro k
            apply Iff.intro
            · rintro ⟨_, e, settled, _, _, text, _⟩
              obtain ⟨_, e', settled', _, _, text', _⟩ := stores
              obtain rfl := Option.some.inj (settled.symm.trans settled')
              exact int64ToString_injective (Option.some.inj (text.symm.trans text'))
            · rintro rfl
              exact stores
          · intro refused
            have error := refused.1
            simp only [ok] at error
            exact absurd error (by decide)

end Hashes

/-- The additions to a string key or to a field of a hash are exact or have no effect under the
conditions only, and a decrement is the increment by the negated number when there is one. -/
theorem additions_exact {env : KeyEnv} (works : env.Works) {msg : CommandMsg}
    (ints : ∀ ival, .integer ival ∈ msg.args → InInt64 ival) (arg0 : Bytes) :
    (∀ (cmd : AddCmd) (entry : Option (Entry Bytes)),
      ExactOrNoEffect (stringValue env entry) (cmd.increment msg)
          (StoresText env entry arg0 (cmd.run env msg entry))
          (Refused entry (cmd.run env msg entry) .string) ↔
        cmd.Meets msg (stringValue env entry)) ∧
    (∀ (cut : Nat) (entry : Option (Entry HashData)) (field : Bytes),
      msg.getArgStr 2 = some field →
        (ExactOrNoEffect (fieldValue env field entry) (msg.getArgInt 3)
            (StoresField env field entry arg0 (execHincrby env cut msg entry))
            (Refused entry (execHincrby env cut msg entry) .hash) ↔
          msg.getArgInt 3 = none ∨ fieldValue env field entry = .other ∨
            ∃ n, msg.getArgInt 3 = some n ∧ (fieldValue env field entry).AddsRight n)) ∧
    (∀ (cut : Nat) (entry : Option (Entry HashData)), msg.getArgStr 2 = none →
      Refused entry (execHincrby env cut msg entry) .hash) ∧
    ∀ (other : CommandMsg) (n : Int) (entry : Option (Entry Bytes)), msg.getArgInt 2 = some n →
      InInt64 (-n) → other.getArgInt 2 = some (-n) →
        execDecrby env msg entry = execIncrby env other entry := by
  apply And.intro (fun cmd entry => AddCmd.exact_iff works cmd msg arg0 ints entry)
  apply And.intro (fun cut entry field isField =>
    execHincrby_exact_iff works cut ints isField entry arg0)
  apply And.intro
  · intro cut entry noField
    rw [execHincrby, noField]
    exact ⟨rfl, rfl⟩
  · intro other n entry isDecr fits isIncr
    rw [execDecrby, execIncrby, isDecr, isIncr]
    simp only [toInt64_of_inInt64 fits]

/-- A table without failures. -/
def quietEnv : KeyEnv := {}

theorem quietEnv_works : quietEnv.Works := ⟨rfl, rfl, rfl, rfl, by simp [quietEnv]⟩

/-- The words of a command with an integer argument. -/
def incrbyMsg : CommandMsg := ⟨commandWords ["incrby", "k", "5"], by decide⟩

/-- A key with the string of seven. -/
def sevenEntry : Option (Entry Bytes) := some ⟨.string, text "7", 0⟩

/-- Five more than seven is stored. -/
theorem additions_exact_incrby :
    ExactOrNoEffect (stringValue quietEnv sevenEntry) (AddCmd.incrby.increment incrbyMsg)
      (StoresText quietEnv sevenEntry [] (AddCmd.incrby.run quietEnv incrbyMsg sevenEntry))
      (Refused sevenEntry (AddCmd.incrby.run quietEnv incrbyMsg sevenEntry) .string) := by
  have ints : ∀ ival, .integer ival ∈ incrbyMsg.args → InInt64 ival := by
    intro ival member
    simp [incrbyMsg, commandWords, mkStr] at member
  apply ((additions_exact quietEnv_works ints []).1 .incrby sevenEntry).mpr
  have facts : AddCmd.incrby.increment incrbyMsg = some 5 ∧
      stringValue quietEnv sevenEntry = .bytes (text "7") ∧ stringToInt (text "7") = .ok 7 := by
    decide
  rw [AddCmd.Meets, facts.1, facts.2.1]
  exact Or.inr (Or.inr ⟨5, rfl, Or.inl ⟨7, facts.2.2, by decide⟩⟩)

/-- A string that is not a number counts as zero and is replaced. -/
theorem not_additions_exact :
    ¬ExactOrNoEffect (stringValue quietEnv (some ⟨.string, text "abc", 0⟩)) (some 1)
      (StoresText quietEnv (some ⟨.string, text "abc", 0⟩) []
        (execIncr quietEnv (some ⟨.string, text "abc", 0⟩)))
      (Refused (some ⟨.string, text "abc", 0⟩)
        (execIncr quietEnv (some ⟨.string, text "abc", 0⟩)) .string) := by
  intro exact
  have refused := exact.2 (by
    rintro ⟨n, v, _, ⟨⟨neg, digits, same, _, all, _⟩, _⟩, _⟩
    have letter : ¬Decimal.IsDigit 97 := by decide
    cases neg
    · apply letter
      apply all
      rw [signBytes, if_neg (by decide), List.nil_append] at same
      rw [← same]
      decide
    · exact absurd (congrArg List.head? same) (by simp [signBytes]; decide))
  exact absurd refused.1 (by decide)

end Raids.Key
