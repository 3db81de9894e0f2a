import Mathlib.Data.Finset.Basic
import Raids.Library.Machine
import Raids.Proof.Key.Container
import Raids.Proof.Key.SetMove

namespace Raids.Key

section Data

/-- The members of a set without their order. -/
def SetData.finset (x : SetData) : Finset Bytes := ⟨x.members, x.nodup⟩

theorem mem_finset (x : SetData) (m : Bytes) : m ∈ x.finset ↔ m ∈ x.members := Iff.rfl

theorem card_finset (x : SetData) : x.finset.card = x.hcount := rfl

theorem finset_eq_empty (x : SetData) : x.finset = ∅ ↔ x = .empty := by
  constructor
  · intro none
    obtain ⟨members, nodup⟩ := x
    obtain rfl : members = [] := List.eq_nil_iff_forall_not_mem.mpr fun m =>
      Finset.eq_empty_iff_forall_notMem.mp none m
    rfl
  · rintro rfl
    rfl

/-- The set behind a member, as the command writes it. -/
def SetWrite.apply (cmd : SetWrite) (members : Finset Bytes) (m : Bytes) : Finset Bytes :=
  match cmd with
  | .sadd => insert m members
  | .srem => members.erase m

theorem finset_write (cmd : SetWrite) (x : SetData) (m : Bytes) :
    (cmd.write x m).2.finset = cmd.apply x.finset m := by
  ext other
  cases cmd with
  | sadd =>
      rw [SetWrite.apply, Finset.mem_insert, mem_finset, mem_finset]
      exact mem_sadd x m other
  | srem =>
      rw [SetWrite.apply, Finset.mem_erase, mem_finset, mem_finset]
      exact x.nodup.mem_erase_iff

/-- How many members a write has changed. -/
def SetWrite.changes (cmd : SetWrite) (before after : Finset Bytes) : Int :=
  match cmd with
  | .sadd => after.card - before.card
  | .srem => before.card - after.card

/-- A write says whether it has changed the number of the members. -/
theorem changes_write (cmd : SetWrite) (x : SetData) (m : Bytes) :
    cmd.changes x.finset (cmd.apply x.finset m) = if (cmd.write x m).1 then 1 else 0 := by
  cases cmd with
  | sadd =>
      by_cases present : m ∈ x.members
      · rw [SetWrite.apply, Finset.insert_eq_of_mem present]
        simp [SetWrite.write, SetWrite.changes, present]
      · rw [SetWrite.changes, SetWrite.apply, Finset.card_insert_of_notMem present]
        simp [SetWrite.write, present]
  | srem =>
      by_cases present : m ∈ x.members
      · have pos := Finset.card_pos.mpr ⟨m, (mem_finset x m).mpr present⟩
        rw [SetWrite.changes, SetWrite.apply, Finset.card_erase_of_mem present]
        simp only [SetWrite.write, SetData.srem, present, decide_true, if_true]
        omega
      · rw [SetWrite.apply, Finset.erase_eq_of_notMem present]
        simp [SetWrite.write, SetWrite.changes, SetData.srem, present]

/-- The set behind all members. -/
def SetWrite.result (cmd : SetWrite) (members : Finset Bytes) (ms : List Bytes) : Finset Bytes :=
  match cmd with
  | .sadd => members ∪ ms.toFinset
  | .srem => members \ ms.toFinset

theorem SetWrite.result_cons (cmd : SetWrite) (members : Finset Bytes) (m : Bytes)
    (ms : List Bytes) : cmd.result members (m :: ms) = cmd.result (cmd.apply members m) ms := by
  ext other
  cases cmd with
  | sadd =>
      simp only [SetWrite.result, SetWrite.apply, List.toFinset_cons, Finset.mem_union,
        Finset.mem_insert]
      tauto
  | srem =>
      simp only [SetWrite.result, SetWrite.apply, List.toFinset_cons, Finset.mem_sdiff,
        Finset.mem_erase, Finset.mem_insert]
      tauto

theorem SetWrite.result_one (cmd : SetWrite) (members : Finset Bytes) (m : Bytes) :
    cmd.result members [m] = cmd.apply members m := by
  rw [cmd.result_cons]
  cases cmd <;> simp [SetWrite.result]

/-- The changes of two writes add up. -/
theorem SetWrite.changes_trans (cmd : SetWrite) (first second third : Finset Bytes) :
    cmd.changes first second + cmd.changes second third = cmd.changes first third := by
  cases cmd <;> simp only [SetWrite.changes] <;> omega

end Data

section Loop

variable {env : WriteEnv} {msg : CommandMsg}

/-- All members are written, the changes are counted, and a set that has lost its last member is
deleted. -/
theorem swriteLoop_eq (works : env.Works) (run : KeyRun SetData) (cmd : SetWrite)
    {ms : List Bytes} {argi : Nat} (m : Bytes) (ival : Int) (e : Entry SetData)
    (spells : SpellsFrom msg argi ms) :
    ∃ x : SetData, x.finset = cmd.result e.data.finset (m :: ms) ∧
      swriteLoop env cmd msg run ms.length argi m ival e =
        let total := ival + cmd.changes e.data.finset x.finset
        if cmd = .srem ∧ 0 < total ∧ x.hcount = 0 then
          { run with status := .execSendInt, entry := none, ival := total, keyspaceDel := true }
        else
          { run with status := .execSendInt, entry := some { e with data := x }, ival := total } := by
  have room : ∀ i, cmd.room env i = true := by
    intro i
    rw [SetWrite.room, works.room i, Bool.or_true]
  have count : ∀ (x : SetData) (m : Bytes) (ival : Int),
      (if (cmd.write x m).1 then ival + 1 else ival) =
        ival + cmd.changes x.finset (cmd.write x m).2.finset := by
    intro x m ival
    rw [finset_write, changes_write]
    split <;> simp
  induction ms generalizing argi m ival e with
  | nil =>
      refine ⟨(cmd.write e.data m).2, ?_, ?_⟩
      · rw [cmd.result_one, finset_write]
      · rw [List.length_nil, swriteLoop, if_pos (room argi)]
        simp only [count, works.tombstoned, if_true]
  | cons next ms ih =>
      obtain ⟨x, isResult, loop⟩ := ih next
        (ival + cmd.changes e.data.finset (cmd.write e.data m).2.finset)
        { e with data := (cmd.write e.data m).2 } spells.tail
      refine ⟨x, ?_, ?_⟩
      · rw [isResult, cmd.result_cons e.data.finset m, finset_write]
      · rw [List.length_cons, swriteLoop, if_pos (room argi)]
        simp only [spells.head, count]
        rw [loop]
        simp only [add_assoc, cmd.changes_trans]

end Loop

section Calls

/-- The commands on one set. -/
inductive SetCmd where
  | write (cmd : SetWrite) (m : Bytes) (ms : List Bytes)
  | scard
  | sismember (m : Bytes)
  deriving DecidableEq, Repr

/-- The words behind the key. -/
def SetCmd.words : SetCmd → List Bytes
  | .write _ m ms => m :: ms
  | .scard => []
  | .sismember m => [m]

def SetCmd.run (op : SetCmd) (env : WriteEnv) (msg : CommandMsg) (entry : Option (Entry SetData)) :
    KeyRun SetData :=
  match op with
  | .write .sadd .. => execSadd env msg entry
  | .write .srem .. => execSrem env msg entry
  | .scard => execScard env.table msg entry
  | .sismember _ => execSismember env.table msg entry

/-- What a command does to the members. -/
def SetCmd.next (op : SetCmd) (members : Finset Bytes) : Finset Bytes :=
  match op with
  | .write .sadd m ms => members ∪ (m :: ms).toFinset
  | .write .srem m ms => members \ (m :: ms).toFinset
  | _ => members

/-- What a command replies. SADD counts the members that are new and SREM those that are gone. -/
def SetCmd.answer (op : SetCmd) (members : Finset Bytes) : Bytes :=
  match op with
  | .write .sadd .. => sendInt ((op.next members).card - members.card)
  | .write .srem .. => sendInt (members.card - (op.next members).card)
  | .scard => sendInt members.card
  | .sismember m => sendInt (if m ∈ members then 1 else 0)

/-- A command with its message and the table that it meets. -/
structure SetCall where
  op : SetCmd
  env : WriteEnv := {}
  msg : CommandMsg
  arg0 : Bytes := []

/-- The message spells the command, the table works, and a stamp of zero is never over. -/
structure SetCall.Valid (call : SetCall) : Prop where
  works : call.env.Works
  forever : call.env.table.isExpired 0 = false
  spells : SpellsFrom call.msg 2 call.op.words

/-- A key takes a command. -/
def setStep (entry : Option (Entry SetData)) (call : SetCall) : Bytes × Option (Entry SetData) :=
  let run := call.op.run call.env call.msg entry
  (run.reply call.arg0, run.settle .set)

/-- The members take a command. -/
def memberStep (members : Finset Bytes) (call : SetCall) : Bytes × Finset Bytes :=
  (call.op.answer members, call.op.next members)

end Calls

section Steps

variable {call : SetCall} {entry : Option (Entry SetData)} {x : SetData}

theorem SetWrite.next_eq (cmd : SetWrite) (members : Finset Bytes) (m : Bytes) (ms : List Bytes) :
    (SetCmd.write cmd m ms).next members = cmd.result members (m :: ms) := by
  cases cmd <;> rfl

theorem SetWrite.result_sadd_ne_empty (members : Finset Bytes) (m : Bytes) (ms : List Bytes) :
    SetWrite.sadd.result members (m :: ms) ≠ ∅ := by
  intro none
  have member : m ∈ SetWrite.sadd.result members (m :: ms) :=
    Finset.mem_union_right _ (List.mem_toFinset.mpr List.mem_cons_self)
  rw [none] at member
  exact Finset.notMem_empty m member

/-- The writes of a set that is open. A set loses its last member only to a removal. -/
theorem swriteLoop_opened {env : WriteEnv} {msg : CommandMsg} (works : env.Works)
    {run : KeyRun SetData} {e : Entry SetData} (opened : Opened .set x run e) {cmd : SetWrite}
    {m : Bytes} {ms : List Bytes} {argi : Nat} (spells : SpellsFrom msg argi ms)
    (some : cmd = .srem → x ≠ .empty) (arg0 : Bytes) :
    let run := swriteLoop env cmd msg run ms.length argi m 0 e
    let next := cmd.result x.finset (m :: ms)
    run.reply arg0 = sendInt (cmd.changes x.finset next) ∧
      ∃ y, Holds .set .empty (run.settle .set) y ∧ y.finset = next := by
  obtain ⟨y, isNext, loop⟩ := swriteLoop_eq works run cmd m 0 e spells
  rw [opened.data] at isNext loop
  intro run next
  rw [show run = _ from loop, zero_add, isNext]
  simp only
  by_cases gone : cmd = .srem ∧ 0 < cmd.changes x.finset next ∧ y.hcount = 0
  · rw [if_pos gone]
    refine ⟨?_, y, .inl ⟨?_, ?_⟩, isNext⟩
    · rw [KeyRun.reply, opened.out]
      rfl
    · rw [KeyRun.settle, if_neg fun settles => settles.2.2.1 rfl]
    · rw [← finset_eq_empty, ← Finset.card_eq_zero]
      exact gone.2.2
  · rw [if_neg gone]
    refine ⟨opened.reply .execSendInt y _ arg0, y, ?_, isNext⟩
    rw [opened.settles .execSendInt y _ (by decide)]
    apply holds_some
    rintro rfl
    have none : next = ∅ := isNext.symm
    cases cmd with
    | sadd => exact SetWrite.result_sadd_ne_empty _ _ _ none
    | srem =>
        apply gone
        rw [none]
        have pos := Finset.card_pos.mpr (Finset.nonempty_iff_ne_empty.mpr fun empty =>
          some rfl ((finset_eq_empty x).mp empty))
        refine ⟨rfl, ?_, rfl⟩
        rw [SetWrite.changes, Finset.card_empty]
        omega

/-- A write replies its changes. A key without members is missing behind it. -/
theorem doSwriteArgs_spec (valid : call.Valid) (holds : Holds .set .empty entry x) {cmd : SetWrite}
    {m : Bytes} {ms : List Bytes} (isOp : call.op = .write cmd m ms) :
    let run := doSwriteArgs call.env cmd call.msg entry
    let next := cmd.result x.finset (m :: ms)
    run.reply call.arg0 = sendInt (cmd.changes x.finset next) ∧
      ∃ y, Holds .set .empty (run.settle .set) y ∧ y.finset = next := by
  have spells := valid.spells
  rw [isOp] at spells
  have isArg : call.msg.getArgStr 2 = some m := spells.head
  have left : call.msg.argc - 3 = ms.length := by
    have argc := spells.argc
    simp only [SetCmd.words, List.length_cons] at argc
    omega
  have sized : sizedArgs call.msg = true := spells.tail.all
  intro run next
  simp only [run, doSwriteArgs, isArg, getKeyWrite_holds valid.works.table valid.forever holds]
  rcases holds with ⟨rfl, rfl⟩ | ⟨rfl, some⟩
  · cases cmd with
    | srem =>
        have none : next = ∅ := Finset.empty_sdiff _
        rw [none]
        exact ⟨sendInt_zero, .empty, holds_none, rfl⟩
    | sadd =>
        simp only [reduceCtorEq, if_false, sized, not_true_eq_false, valid.works.table.resized,
          if_true, left]
        exact swriteLoop_opened valid.works (opened_new (by decide) SetData.empty) spells.tail
          (fun removes => by cases removes) call.arg0
  · simp only [valid.works.table.valued, if_true, left]
    exact swriteLoop_opened valid.works (opened_old .set x) spells.tail (fun _ => some) call.arg0

/-- Every command replies what the members say, and leaves a key with the next members. -/
theorem setStep_spec (valid : call.Valid) (holds : Holds .set .empty entry x) :
    (setStep entry call).1 = call.op.answer x.finset ∧
      ∃ y, Holds .set .empty (setStep entry call).2 y ∧ y.finset = call.op.next x.finset := by
  have works := valid.works.table
  have spells := valid.spells
  cases isOp : call.op with
  | write cmd m ms =>
      have spec := doSwriteArgs_spec valid holds isOp
      have runs : setStep entry call =
          ((doSwriteArgs call.env cmd call.msg entry).reply call.arg0,
            (doSwriteArgs call.env cmd call.msg entry).settle .set) := by
        rw [setStep, isOp]
        cases cmd <;> rfl
      have answers : (SetCmd.write cmd m ms).answer x.finset =
          sendInt (cmd.changes x.finset (cmd.result x.finset (m :: ms))) := by
        cases cmd <;> rfl
      rw [runs, answers, cmd.next_eq]
      exact spec
  | scard =>
      rw [setStep, isOp]
      simp only [SetCmd.run, execScard, doSread, if_true,
        getKeyRead_holds works valid.forever holds]
      rcases id holds with ⟨rfl, rfl⟩ | ⟨rfl, -⟩
      · exact ⟨sendInt_zero, .empty, holds, rfl⟩
      · simp only [works.valued, works.validated, and_self, if_true]
        exact ⟨rfl, x, holds, rfl⟩
  | sismember m =>
      rw [isOp] at spells
      have isArg : call.msg.getArgStr 2 = some m := spells.head
      have one : line ":1" = sendInt 1 := by decide
      rw [setStep, isOp]
      simp only [SetCmd.run, execSismember, doSread, reduceCtorEq, if_false, isArg,
        getKeyRead_holds works valid.forever holds]
      rcases id holds with ⟨rfl, rfl⟩ | ⟨rfl, -⟩
      · exact ⟨sendInt_zero, .empty, holds, rfl⟩
      · simp only [works.valued, works.validated, and_self, if_true]
        refine ⟨?_, x, holds, rfl⟩
        rw [SetCmd.answer]
        by_cases member : m ∈ x.members
        · rw [if_pos ((mem_finset x m).mpr member)]
          simp only [member, if_true]
          exact one
        · rw [if_neg ((mem_finset x m).not.mpr member)]
          simp only [member, if_false]
          exact sendInt_zero

/-- The commands on one set are those on a finite set over every run. From a missing key on all
replies are those of the finite set, the key is missing exactly when the set is empty, and it has
exactly its members. -/
theorem set_refines_finset {calls : List SetCall} (valid : ∀ call ∈ calls, call.Valid) :
    let key := Machine.run setStep none calls
    let members := Machine.run memberStep ∅ calls
    key.1 = members.1 ∧ (key.2 = none ↔ members.2 = ∅) ∧
      ∀ e, key.2 = some e →
        e.type = .set ∧ e.exp = 0 ∧ ∀ m, m ∈ e.data.members ↔ m ∈ members.2 := by
  intro key members
  obtain ⟨replies, x, holds, isMembers⟩ :=
    Machine.outputs_eq (f := setStep) (g := memberStep)
      (R := fun entry members => ∃ x, Holds .set .empty entry x ∧ x.finset = members)
      (fun _ _ _ isValid related => by
        obtain ⟨x, holds, rfl⟩ := related
        exact setStep_spec isValid holds)
      valid ⟨.empty, holds_none, rfl⟩
  refine ⟨replies, ?_⟩
  rw [show members.2 = x.finset from isMembers.symm, finset_eq_empty]
  rcases holds with ⟨missing, rfl⟩ | ⟨held, nonempty⟩
  · rw [show key.2 = none from missing]
    exact ⟨iff_of_true rfl rfl, fun _ some => (by cases some)⟩
  · rw [show key.2 = some ⟨.set, x, 0⟩ from held]
    refine ⟨iff_of_false (Option.some_ne_none _) nonempty, ?_⟩
    rintro e same
    obtain rfl := Option.some.inj same
    exact ⟨rfl, rfl, fun m => Iff.rfl⟩

/-- The words of an SADD that names a member twice. -/
def saddWords : CommandMsg := ⟨commandWords ["sadd", "s", "a", "a"], by simp [commandWords]⟩

/-- The words of an SREM. -/
def sremWords : CommandMsg := ⟨commandWords ["srem", "s", "a"], by simp [commandWords]⟩

/-- A member is added once, and leaves with its key. -/
def setCalls : List SetCall :=
  [⟨.write .sadd (text "a") [text "a"], {}, saddWords, []⟩,
    ⟨.write .srem (text "a") [], {}, sremWords, []⟩]

theorem set_refines_finset_two :
    (Machine.run setStep none setCalls).1 = [sendInt 1, sendInt 1] ∧
      (Machine.run setStep none setCalls).2 = none := by
  have works : ({} : WriteEnv).Works := ⟨quietEnv_works, by simp, rfl⟩
  have valid : ∀ call ∈ setCalls, call.Valid := by
    intro call member
    rcases List.mem_cons.mp member with rfl | last
    · exact ⟨works, rfl, spellsFrom_mkStr [mkStr (text "sadd"), mkStr (text "s")] rfl (by decide)⟩
    · obtain rfl := List.mem_singleton.mp last
      exact ⟨works, rfl, spellsFrom_mkStr [mkStr (text "srem"), mkStr (text "s")] rfl (by decide)⟩
  obtain ⟨replies, missing, -⟩ := set_refines_finset valid
  exact ⟨replies.trans (by decide), missing.mpr (by decide)⟩

end Steps

end Raids.Key
