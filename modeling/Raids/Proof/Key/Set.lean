import Raids.Construction.Key.Set
import Raids.Proof.Key.Add

namespace Raids.Key

variable {env : KeyEnv}

/-- A key exists when it holds a value of any type. -/
def Exists (env : KeyEnv) (entry : Option (Entry Bytes)) : Prop :=
  ∃ e, live env entry = some e ∧ e.type ≠ .noData

/-- The string at one place of a message, which may be empty. -/
def givenValue (msg : CommandMsg) (n : Nat) : Option Bytes :=
  match msg.args[n]? with
  | some (.string .errorString _ _) => none
  | some (.string _ len strval) => if 0 ≤ len then some (strval.take len.toNat) else none
  | _ => none

/-- A value that is accepted is the one that is given. -/
theorem givenValue_of_getArgStr {msg : CommandMsg} {n : Nat} {value : Bytes}
    (accepted : msg.getArgStr n = some value) : givenValue msg n = some value := by
  rw [CommandMsg.getArgStr, if_neg (by omega), Int.toNat_natCast] at accepted
  rw [givenValue]
  cases arg : msg.args[n]? with
  | none => simp [arg] at accepted
  | some m =>
      rw [arg] at accepted
      cases m with
      | integer ival => simp at accepted
      | array len array => simp at accepted
      | string type len strval =>
          cases type with
          | errorString => simp at accepted
          | bulkString | simpleString =>
              simp only [Option.ite_none_right_eq_some] at accepted
              simp only [if_pos (le_of_lt accepted.1)]
              exact accepted.2

/-- The write of any value meets a new entry or the entry that is there. -/
theorem getKeyOverwrite_works (works : env.Works) (entry : Option (Entry Bytes)) :
    getKeyOverwrite env entry =
      match live env entry with
      | none => ⟨some .keyIsNew, none, true, .noData⟩
      | some e =>
          if e.type = .string then ⟨some .keyOk, some e, false, .string⟩
          else if e.type = .noData then ⟨some .keyIsNew, some e, true, .noData⟩
          else ⟨some .keyNoValue, some e, true, .string⟩ := by
  rw [getKeyOverwrite, getKeyWrite_works works]
  cases live env entry with
  | none => rfl
  | some e =>
      by_cases same : e.type = .string
      · simp [same]
      · by_cases untyped : e.type = .noData
        · simp [untyped]
        · simp [same, untyped]

section Store

variable {cmd : RedisCmd} {msg : CommandMsg} {n : Nat} {value : Bytes}

/-- A value that is not accepted is an error. -/
theorem doSetValue_refused (refused : msg.getArgStr n = none) (flags : SetFlags)
    (entry : Option (Entry Bytes)) :
    doSetValue env cmd msg n flags entry = unfetched .errBadArgs entry := by
  rw [doSetValue, refused]

/-- The status of a store. -/
def storedStatus (cmd : RedisCmd) : ExecStatus :=
  if cmd = .msetnxCmd then .execSendOne else .execSendOk

/-- A store without a condition leaves the new string, whatever was there. -/
theorem doSetValue_stores (works : env.Works) (accepted : msg.getArgStr n = some value)
    (entry : Option (Entry Bytes)) :
    (doSetValue env cmd msg n {} entry).status = storedStatus cmd ∧
      (doSetValue env cmd msg n {} entry).out = [] ∧
      (doSetValue env cmd msg n {} entry).settle .string = some ⟨.string, value, 0⟩ := by
  have never : ∀ isNew, SetFlags.refuses {} isNew = false := by
    intro isNew
    cases isNew <;> rfl
  have settles : (storedStatus cmd).isSuccess := by
    rw [storedStatus]
    split <;> rfl
  have status : (if cmd = .msetnxCmd then ExecStatus.execSendOne else .execSendOk) =
      storedStatus cmd := rfl
  rw [doSetValue, accepted]
  simp only [getKeyOverwrite_works works, status, never]
  cases found : live env entry with
  | none => simp [works.resized, Fetched.stop, KeyRun.settle, settles, Entry.write]
  | some e =>
      by_cases same : e.type = .string
      · simp [works.resized, Fetched.stop, KeyRun.settle, Entry.write, same]
      · by_cases untyped : e.type = .noData
        · simp [works.resized, Fetched.stop, KeyRun.settle, settles, Entry.write, untyped]
        · simp [works.resized, Fetched.stop, KeyRun.settle, settles, Entry.write, same, untyped]

end Store

end Raids.Key
