import Raids.Construction.Key.StringStore
import Raids.Proof.Key.Bitpos

namespace Raids.Key
open LittleEndian

section Bytes

variable (data value : Bytes) (off : Nat)

theorem length_setrange : (setrange data off value).length = max data.length (off + value.length) := by
  simp only [setrange, List.length_append, List.length_take, List.length_drop,
    List.length_replicate]
  omega

/-- The range that was written has the value. -/
theorem setrange_inside : ((setrange data off value).drop off).take value.length = value := by
  have front : ((data ++ List.replicate (off - data.length) 0).take off).length = off := by
    rw [List.length_take, List.length_append, List.length_replicate]
    omega
  rw [setrange, List.append_assoc, List.drop_left' front, List.take_left]

/-- The bytes of the string outside of the range are unchanged. -/
theorem setrange_outside {i : Nat} (below : i < data.length)
    (outside : i < off ∨ off + value.length ≤ i) : (setrange data off value)[i]? = data[i]? := by
  have front : ((data ++ List.replicate (off - data.length) 0).take off).length = off := by
    rw [List.length_take, List.length_append, List.length_replicate]
    omega
  rw [setrange]
  rcases outside with before | behind
  · rw [List.append_assoc, List.getElem?_append_left (by omega), List.getElem?_take_of_lt before,
      List.getElem?_append_left below]
  · rw [List.getElem?_append_right (by rw [List.length_append]; omega), List.getElem?_drop,
      List.length_append, front, show off + value.length + (i - (off + value.length)) = i by omega,
      List.getElem?_append_left below]

/-- The bytes between the string and the range are zero. -/
theorem setrange_gap {i : Nat} (behind : data.length ≤ i) (before : i < off) :
    (setrange data off value)[i]? = some 0 := by
  have front : ((data ++ List.replicate (off - data.length) 0).take off).length = off := by
    rw [List.length_take, List.length_append, List.length_replicate]
    omega
  rw [setrange, List.append_assoc, List.getElem?_append_left (by omega),
    List.getElem?_take_of_lt before, List.getElem?_append_right behind,
    List.getElem?_replicate, if_pos (by omega)]

/-- The string grows to the byte of the bit at most. -/
theorem length_setbit (bitval : Int) :
    (setbit data off bitval).length = max data.length (off / 8 + 1) := by
  simp only [setbit, List.length_set, List.length_append, List.length_replicate]
  omega

/-- The bytes of a range whose ends are limited to the string. -/
def clampedRange (data : Bytes) (start stop : Int) : Bytes :=
  let first := max 0 (fromEnd data.length start)
  let last := min ((data.length : Int) - 1) (fromEnd data.length stop)
  (data.drop first.toNat).take (last + 1 - first).toNat

/-- The code moves the ends into the string unless the range is outside. -/
theorem getrange_eq {data : Bytes} (nonempty : data ≠ []) (start stop : Int) :
    (if outsideRange data.length start stop then [] else clipRange data start stop) =
      clampedRange data start stop := by
  have positive := List.length_pos_of_ne_nil nonempty
  rw [outsideRange, clipRange, clampedRange]
  generalize fromEnd data.length start = first
  generalize fromEnd data.length stop = last
  simp only [Bool.or_eq_true, Bool.and_eq_true, decide_eq_true_eq]
  by_cases outside : (last < first ∨ first < 0 ∧ last < 0) ∨
      (data.length : Int) ≤ first ∧ (data.length : Int) ≤ last
  · have none : (min ((data.length : Int) - 1) last + 1 - max 0 first).toNat = 0 := by omega
    rw [if_pos outside, none, List.take_zero]
  · have low : min (max first 0) ((data.length : Int) - 1) = max 0 first := by omega
    have high : max (min last ((data.length : Int) - 1)) 0 = min ((data.length : Int) - 1) last := by
      omega
    rw [if_neg outside]
    simp only [low, high]
    rw [if_pos (by omega)]

theorem clampedRange_nil (start stop : Int) : clampedRange [] start stop = [] := by
  simp [clampedRange]

/-- The range of the value that was written. -/
theorem clampedRange_setrange (nonempty : value ≠ []) :
    clampedRange (setrange data off value) off (off + value.length - 1) = value := by
  have positive := List.length_pos_of_ne_nil nonempty
  have length := length_setrange data value off
  have first : fromEnd (setrange data off value).length off = off := if_neg (by omega)
  have last : fromEnd (setrange data off value).length (off + value.length - 1) =
      off + value.length - 1 := if_neg (by omega)
  simp only [clampedRange, first, last]
  have start : (max 0 (off : Int)).toNat = off := by omega
  have count : (min (((setrange data off value).length : Int) - 1) (off + value.length - 1) + 1 -
      max 0 (off : Int)).toNat = value.length := by omega
  rw [start, count, setrange_inside]

end Bytes

section Commands

variable {env : KeyEnv} {entry : Option (Entry Bytes)} {old : Bytes}

/-- The command stores a string with the expiry of the old one, and it replies with a number. -/
def StoresString (env : KeyEnv) (entry : Option (Entry Bytes)) (arg0 : Bytes) (run : KeyRun Bytes)
    (new : Bytes) (ival : Int) : Prop :=
  run.reply arg0 = sendInt ival ∧
    run.settle .string = some ⟨.string, new, ((live env entry).map Entry.exp).getD 0⟩

/-- A string that was stored is the value of its key, as long as it has not expired. -/
theorem StoresString.value {env' : KeyEnv} {arg0 new : Bytes} {run : KeyRun Bytes} {ival : Int}
    (stores : StoresString env entry arg0 run new ival)
    (alive : env'.isExpired (((live env entry).map Entry.exp).getD 0) = false) :
    (stringValue env' (run.settle .string)).string? = some new := by
  rw [stores.2, stringValue, live]
  simp [Option.filter, alive, Value.string?]

/-- A key with a string or without one is written by the store of its command. -/
theorem getKeyWrite_old (works : env.Works) (string : (stringValue env entry).string? = some old) :
    ((getKeyWrite env .string entry).kstatus = some .keyIsNew ∧ old = [] ∨
      ∃ e, (getKeyWrite env .string entry).kstatus = some .keyOk ∧
        (getKeyWrite env .string entry).entry = some e ∧ e.data = old) ∧
      ∀ (arg0 new : Bytes) (ival : Int), StoresString env entry arg0
        { (getKeyWrite env .string entry).stop .execSendInt with
            entry := some (Entry.write (getKeyWrite env .string entry).entry new)
            ival := ival } new ival := by
  rw [stringValue] at string
  rw [getKeyWrite_works works]
  cases found : live env entry with
  | none =>
      rw [found] at string
      obtain rfl := Option.some.inj string
      refine ⟨Or.inl ⟨rfl, rfl⟩, fun arg0 new ival => ⟨rfl, ?_⟩⟩
      rw [found]
      rfl
  | some e =>
      rw [found] at string
      by_cases untyped : e.type = .noData
      · simp only [untyped, if_true, Value.string?, Option.some.injEq] at string
        simp only [untyped, reduceCtorEq, if_false, if_true]
        refine ⟨Or.inl ⟨trivial, string.symm⟩, fun arg0 new ival => ⟨rfl, ?_⟩⟩
        rw [found]
        rfl
      · by_cases isString : e.type = .string
        · simp only [isString, reduceCtorEq, if_false, if_true, Value.string?,
            Option.some.injEq] at string
          simp only [isString, if_true]
          refine ⟨Or.inr ⟨e, trivial, rfl, string⟩, fun arg0 new ival => ⟨rfl, ?_⟩⟩
          rw [found]
          simp [KeyRun.settle, Fetched.stop, Entry.write, isString]
        · simp [untyped, isString, Value.string?] at string

/-- A command that stores a string by its old value. -/
theorem storeLength_stores (works : env.Works)
    (string : (stringValue env entry).string? = some old) (arg0 new : Bytes) :
    StoresString env entry arg0 ((getKeyWrite env .string entry).storeLength env new) new
      new.length := by
  rw [Fetched.storeLength, if_pos works.resized]
  exact (getKeyWrite_old works string).2 arg0 new new.length

theorem execAppend_stores (works : env.Works)
    (string : (stringValue env entry).string? = some old) {msg : CommandMsg} {value : Bytes}
    (isValue : msg.getArgStr 2 = some value) (arg0 : Bytes) :
    StoresString env entry arg0 (execAppend env msg entry) (old ++ value)
      (old ++ value).length := by
  have stores := storeLength_stores works string arg0 (old ++ value)
  rw [execAppend, isValue]
  rcases (getKeyWrite_old works string).1 with ⟨isNew, rfl⟩ | ⟨e, ok, isEntry, rfl⟩
  · simp only [isNew]
    exact stores
  · simp only [ok, isEntry, works.valued, if_true]
    exact stores

theorem execSetrange_stores (works : env.Works)
    (string : (stringValue env entry).string? = some old) {msg : CommandMsg} {off : Nat}
    {value : Bytes} (isOff : msg.getArgInt 2 = some (off : Int))
    (isValue : msg.getArgStr 3 = some value) (arg0 : Bytes) :
    StoresString env entry arg0 (execSetrange env msg entry) (setrange old off value)
      (setrange old off value).length := by
  have stores := storeLength_stores works string arg0 (setrange old off value)
  rw [execSetrange, isOff, isValue]
  dsimp only
  rw [if_neg (by omega), Int.toNat_natCast]
  rcases (getKeyWrite_old works string).1 with ⟨isNew, rfl⟩ | ⟨e, ok, isEntry, rfl⟩
  · simp only [isNew]
    exact stores
  · simp only [ok, isEntry, works.valued, if_true]
    exact stores

/-- The old bit is the reply. -/
theorem execSetbit_stores (works : env.Works)
    (string : (stringValue env entry).string? = some old) {msg : CommandMsg} {off : Nat}
    {bitval : Int} (isOff : msg.getArgInt 2 = some (off : Int))
    (isBit : msg.getArgInt 3 = some bitval) (binary : bitval = 0 ∨ bitval = 1) (arg0 : Bytes) :
    StoresString env entry arg0 (execSetbit env msg entry) (setbit old off bitval)
      (if bitAt old off then 1 else 0) := by
  have stores := (getKeyWrite_old works string).2 arg0 (setbit old off bitval)
    (if bitAt old off then 1 else 0)
  have positive : (0 : Int) ≤ off := by omega
  rw [execSetbit, isOff, isBit]
  dsimp only
  rw [if_pos ⟨positive, binary⟩, Int.toNat_natCast]
  rcases (getKeyWrite_old works string).1 with ⟨isNew, rfl⟩ | ⟨e, ok, isEntry, rfl⟩
  · simp only [isNew, works.resized, if_true, getbit_eq [] positive, Int.toNat_natCast]
    exact stores
  · simp only [ok, isEntry, works.valued, works.resized, if_true, getbit_eq e.data positive,
      Int.toNat_natCast]
    rw [isEntry] at stores
    exact stores

theorem execGetrange_reply (works : env.Works)
    (string : (stringValue env entry).string? = some old) {msg : CommandMsg} {start stop : Int}
    (first : optionalInt msg 2 0 = some start) (last : optionalInt msg 3 (-1) = some stop)
    (arg0 : Bytes) : (execGetrange env msg entry).reply arg0 =
      sendConcatString (clampedRange old start stop) := by
  have found := getKeyRead_string works entry
  have empty : line "$0" ++ crlf = sendConcatString [] := by decide
  rw [execGetrange, first, last]
  cases value : stringValue env entry with
  | other =>
      rw [value] at string
      cases string
  | absent =>
      rw [value] at found string
      obtain rfl := Option.some.inj string
      simp only [found, clampedRange_nil]
      exact empty
  | bytes str =>
      rw [value] at found string
      obtain rfl := Option.some.inj string
      obtain ⟨e, ok, isEntry, rfl⟩ := found
      simp only [ok, isEntry]
      rw [if_pos ⟨works.valued, works.validated⟩]
      by_cases none : e.data = []
      · rw [none, clampedRange_nil]
        exact empty
      · rw [if_neg (by simpa using none), ← getrange_eq none]
        split
        · exact empty
        · exact List.append_nil _

theorem execGetbit_reply (works : env.Works)
    (string : (stringValue env entry).string? = some old) {msg : CommandMsg} {off : Nat}
    (isOff : msg.getArgInt 2 = some (off : Int)) (arg0 : Bytes) :
    (execGetbit env msg entry).reply arg0 = sendInt (if bitAt old off then 1 else 0) := by
  cases value : stringValue env entry with
  | other =>
      rw [value] at string
      cases string
  | absent =>
      have found := getKeyRead_string works entry
      rw [value] at found string
      obtain rfl := Option.some.inj string
      have zero : line ":0" = sendInt 0 := by decide
      rw [execGetbit, isOff]
      dsimp only
      rw [if_neg (by omega)]
      simp only [found, bitAt_of_le [] (show 8 * ([] : Bytes).length ≤ off by simp)]
      exact zero
  | bytes str =>
      rw [value] at string
      obtain rfl := Option.some.inj string
      exact execGetbit_bit works isOff (by omega) value arg0

theorem execStrlen_reply (works : env.Works)
    (string : (stringValue env entry).string? = some old) (arg0 : Bytes) :
    (execStrlen env entry).reply arg0 = sendInt old.length := by
  have found := getKeyRead_string works entry
  rw [execStrlen]
  cases value : stringValue env entry with
  | other =>
      rw [value] at string
      cases string
  | absent =>
      rw [value] at found string
      obtain rfl := Option.some.inj string
      simp only [found]
      rfl
  | bytes str =>
      rw [value] at found string
      obtain rfl := Option.some.inj string
      obtain ⟨e, ok, isEntry, rfl⟩ := found
      simp only [ok, isEntry, works.valued, if_true]
      rfl

/-- The commands that read a string key agree on its bytes. -/
structure ReadsString (env : KeyEnv) (entry : Option (Entry Bytes)) (arg0 str : Bytes) : Prop where
  getrange : ∀ (msg : CommandMsg) (start stop : Int), optionalInt msg 2 0 = some start →
    optionalInt msg 3 (-1) = some stop →
      (execGetrange env msg entry).reply arg0 = sendConcatString (clampedRange str start stop)
  getbit : ∀ (msg : CommandMsg) (off : Nat), msg.getArgInt 2 = some (off : Int) →
    (execGetbit env msg entry).reply arg0 = sendInt (if bitAt str off then 1 else 0)
  strlen : (execStrlen env entry).reply arg0 = sendInt str.length

theorem readsString (works : env.Works) (string : (stringValue env entry).string? = some old)
    (arg0 : Bytes) : ReadsString env entry arg0 old where
  getrange _ _ _ first last := execGetrange_reply works string first last arg0
  getbit _ _ isOff := execGetbit_reply works string isOff arg0
  strlen := execStrlen_reply works string arg0

/-- The command replies with a number and leaves a string, which is read as long as it has not
expired. -/
def LeavesString (env : KeyEnv) (entry : Option (Entry Bytes)) (arg0 : Bytes) (run : KeyRun Bytes)
    (new : Bytes) (ival : Int) : Prop :=
  StoresString env entry arg0 run new ival ∧
    ∀ env' : KeyEnv, env'.Works →
      env'.isExpired (((live env entry).map Entry.exp).getD 0) = false →
        ReadsString env' (run.settle .string) arg0 new

theorem StoresString.leaves {arg0 new : Bytes} {run : KeyRun Bytes} {ival : Int}
    (stores : StoresString env entry arg0 run new ival) :
    LeavesString env entry arg0 run new ival :=
  ⟨stores, fun _ works' alive => readsString works' (stores.value alive) arg0⟩

/-- The laws of the commands on one string: what each of them leaves, and what is read of it. -/
theorem stringStore_algebra (works : env.Works)
    (string : (stringValue env entry).string? = some old) (arg0 : Bytes) :
    ReadsString env entry arg0 old ∧
      (∀ (msg : CommandMsg) (off : Nat) (value : Bytes), msg.getArgInt 2 = some (off : Int) →
        msg.getArgStr 3 = some value → ∃ new,
          LeavesString env entry arg0 (execSetrange env msg entry) new new.length ∧
            new.length = max old.length (off + value.length) ∧
            (value ≠ [] → clampedRange new off (off + value.length - 1) = value) ∧
            (∀ i < old.length, i < off ∨ off + value.length ≤ i → new[i]? = old[i]?) ∧
            ∀ i, old.length ≤ i → i < off → new[i]? = some 0) ∧
      (∀ (msg : CommandMsg) (off : Nat) (bitval : Int), msg.getArgInt 2 = some (off : Int) →
        msg.getArgInt 3 = some bitval → bitval = 0 ∨ bitval = 1 → ∃ new,
          LeavesString env entry arg0 (execSetbit env msg entry) new
              (if bitAt old off then 1 else 0) ∧
            new.length = max old.length (off / 8 + 1) ∧
            ∀ i, bitAt new i = if i = off then bitval != 0 else bitAt old i) ∧
      ∀ (msg : CommandMsg) (value : Bytes), msg.getArgStr 2 = some value →
        LeavesString env entry arg0 (execAppend env msg entry) (old ++ value)
          (old ++ value).length := by
  refine ⟨readsString works string arg0, ?_, ?_, ?_⟩
  · intro msg off value isOff isValue
    refine ⟨setrange old off value, (execSetrange_stores works string isOff isValue arg0).leaves,
      length_setrange old value off, ?_, ?_, ?_⟩
    · exact clampedRange_setrange old value off
    · intro i below outside
      exact setrange_outside old value off below outside
    · intro i behind before
      exact setrange_gap old value off behind before
  · intro msg off bitval isOff isBit binary
    refine ⟨setbit old off bitval,
      (execSetbit_stores works string isOff isBit binary arg0).leaves,
      length_setbit old off bitval, ?_⟩
    intro i
    exact bitAt_setbit old off i bitval
  · intro msg value isValue
    exact (execAppend_stores works string isValue arg0).leaves

/-- The words of a command on a string. -/
def stringMsg (words : List String) (fits : (commandWords words).length < 2 ^ 31 := by decide) :
    CommandMsg := ⟨commandWords words, fits⟩

/-- Two letters behind a gap. -/
theorem stringStore_algebra_gap : ∃ new,
    LeavesString quietEnv (stringEntry "a") []
        (execSetrange quietEnv (stringMsg ["setrange", "k", "3", "xy"]) (stringEntry "a")) new
        new.length ∧
      new.length = 5 ∧ clampedRange new 3 4 = text "xy" ∧ new[1]? = some 0 := by
  obtain ⟨-, setrange, -, -⟩ := @stringStore_algebra quietEnv (stringEntry "a") (text "a")
    quietEnv_works (by decide) []
  obtain ⟨new, leaves, length, range, -, gap⟩ :=
    setrange (stringMsg ["setrange", "k", "3", "xy"]) 3 (text "xy") (by decide) (by decide)
  exact ⟨new, leaves, length, range (by decide), gap 1 (by decide) (by decide)⟩

end Commands

end Raids.Key
