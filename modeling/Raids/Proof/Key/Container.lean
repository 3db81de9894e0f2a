import Mathlib.Data.List.Basic
import Raids.Proof.Key.ListEdit

namespace Raids.Key

/-- The words of a message from an index on are strings with a byte at least. -/
structure SpellsFrom (msg : CommandMsg) (i : Nat) (words : List Bytes) : Prop where
  argc : msg.argc = i + words.length
  arg : ∀ j : Nat, msg.getArgStr (i + j : Nat) = words[j]?

section Words

variable {msg : CommandMsg} {i : Nat} {word : Bytes} {words : List Bytes}

theorem SpellsFrom.head (spells : SpellsFrom msg i (word :: words)) :
    msg.getArgStr (i : Nat) = some word := spells.arg 0

theorem SpellsFrom.tail (spells : SpellsFrom msg i (word :: words)) :
    SpellsFrom msg (i + 1) words := by
  constructor
  · rw [spells.argc, List.length_cons]
    omega
  · intro j
    rw [Nat.add_assoc, Nat.add_comm 1, spells.arg, List.getElem?_cons_succ]

/-- Every word is accepted. -/
theorem SpellsFrom.all (spells : SpellsFrom msg i words) :
    ((List.range' i (msg.argc - i)).all fun j => (msg.getArgStr (j : Nat)).isSome) = true := by
  rw [List.all_eq_true]
  intro j member
  have range := List.mem_range'_1.mp member
  have argc := spells.argc
  obtain ⟨k, rfl⟩ : ∃ k, j = i + k := ⟨j - i, by omega⟩
  rw [spells.arg, List.getElem?_eq_getElem (by omega)]
  rfl

/-- The strings of a message are its words. -/
theorem spellsFrom_mkStr (front : List RedisMsg) (args : msg.args = front ++ words.map mkStr)
    (fit : ∀ word ∈ words, word ≠ [] ∧ word.length < 2 ^ 31) :
    SpellsFrom msg front.length words := by
  constructor
  · rw [CommandMsg.argc, args, List.length_append, List.length_map]
  · intro j
    have here : msg.args[front.length + j]? = words[j]?.map mkStr := by
      rw [args, List.getElem?_append_right (Nat.le_add_right _ _), Nat.add_sub_cancel_left,
        List.getElem?_map]
    cases found : words[j]? with
    | none =>
        rw [found] at here
        rw [CommandMsg.getArgStr, if_neg (by omega), Int.toNat_natCast, here]
        rfl
    | some word =>
        obtain ⟨nonempty, short⟩ := fit word (List.mem_of_getElem? found)
        rw [found] at here
        rw [(isArg_mkStr here short).getArgStr, if_neg nonempty]

end Words

section Holds

variable {D : Type} {env : KeyEnv} {type : MdType} {nothing : D} {entry : Option (Entry D)} {d : D}

/-- A key holds a value without an expiry. It is missing exactly when its value has no elements. -/
def Holds (type : MdType) (nothing : D) (entry : Option (Entry D)) (d : D) : Prop :=
  entry = none ∧ d = nothing ∨ entry = some ⟨type, d, 0⟩ ∧ d ≠ nothing

/-- The value that a key is to hold. -/
theorem holds_some (some : d ≠ nothing) : Holds type nothing (.some ⟨type, d, 0⟩) d :=
  .inr ⟨rfl, some⟩

theorem holds_none : Holds type nothing none nothing := .inl ⟨rfl, rfl⟩

/-- A key that is held is live. -/
theorem Holds.live (holds : Holds type nothing entry d) (forever : env.isExpired 0 = false) :
    live env entry = entry := by
  rcases holds with ⟨rfl, -⟩ | ⟨rfl, -⟩
  · rfl
  · exact Option.filter_some_pos (by rw [forever]; rfl)

/-- A read finds the value that a key holds. -/
theorem getKeyRead_holds (works : env.Works) (forever : env.isExpired 0 = false) :
    Holds type nothing entry d → getKeyRead env type entry =
      match entry with
      | none => ⟨some .keyNotFound, none, false, .noData⟩
      | some e => ⟨some .keyOk, some e, false, type⟩ := by
  intro holds
  rw [getKeyRead_works works, holds.live forever]
  rcases holds with ⟨rfl, -⟩ | ⟨rfl, -⟩
  · rfl
  · exact if_pos rfl

/-- A write finds the value that a key holds, or a new key. -/
theorem getKeyWrite_holds (works : env.Works) (forever : env.isExpired 0 = false) :
    Holds type nothing entry d → getKeyWrite env type entry =
      match entry with
      | none => ⟨some .keyIsNew, none, true, .noData⟩
      | some e => ⟨some .keyOk, some e, false, type⟩ := by
  intro holds
  rw [getKeyWrite_works works, holds.live forever]
  rcases holds with ⟨rfl, -⟩ | ⟨rfl, -⟩
  · rfl
  · exact if_pos rfl

/-- A container that has room takes every argument. -/
theorem WriteEnv.Works.room {env : WriteEnv} (works : env.Works) (i : Nat) :
    env.room i = true := by
  rw [WriteEnv.room, List.all_eq_true]
  exact works.grows i

end Holds

section Opened

variable {D : Type} {type : MdType} {d : D} {run : KeyRun D} {e : Entry D}

/-- A write goes on with a value, and the key has its type behind the write. -/
structure Opened (type : MdType) (d : D) (run : KeyRun D) (e : Entry D) : Prop where
  data : e.data = d
  out : run.out = []
  settles : ∀ (status : ExecStatus) (data : D) (ival : Int), status.isSuccess →
    ({ run with status := status, entry := some { e with data := data }, ival := ival } :
      KeyRun D).settle type = some ⟨type, data, 0⟩

/-- The value of a new key has no elements. -/
theorem opened_new (typed : type ≠ .noData) (nothing : D) :
    Opened type nothing
      { (⟨some .keyIsNew, none, true, .noData⟩ : Fetched D).stop .execOk with
        isNew := true, type := type }
      (Entry.write none nothing) := by
  refine ⟨rfl, rfl, ?_⟩
  intro status data ival success
  rw [KeyRun.settle, if_pos ⟨Bool.false_ne_true, success, Bool.false_ne_true, rfl⟩]
  simp [typed, Entry.write]

theorem opened_old (type : MdType) (d : D) :
    Opened type d
      ((⟨some .keyOk, some ⟨type, d, 0⟩, false, type⟩ : Fetched D).stop .execOk) ⟨type, d, 0⟩ :=
  ⟨rfl, rfl, fun _ _ _ _ => KeyRun.settle_of_not_isNew rfl type⟩

/-- The reply of a write is the one of its status. -/
theorem Opened.reply (opened : Opened type d run e) (status : ExecStatus) (data : D) (ival : Int)
    (arg0 : Bytes) :
    ({ run with status := status, entry := some { e with data := data }, ival := ival } :
      KeyRun D).reply arg0 = sendStatus arg0 ival status := by
  rw [KeyRun.reply, opened.out, List.nil_append]

end Opened

end Raids.Key
