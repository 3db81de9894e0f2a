import Raids.Construction.Key.HashRead
import Raids.Library.Machine
import Raids.Proof.Key.Container
import Raids.Proof.Key.ListRange

namespace Raids.Key

section Loops

variable {env : WriteEnv} {msg : CommandMsg} {run : KeyRun ListData} {cmd : PushCmd}
  {e : Entry ListData}

/-- The list behind one push after the other. -/
def PushCmd.pushAll (cmd : PushCmd) (values : List Bytes) (data : ListData) : ListData :=
  match cmd with
  | .lpush | .lpushx => values.reverse ++ data
  | .rpush | .rpushx => data ++ values

theorem PushCmd.pushAll_cons (cmd : PushCmd) (value : Bytes) (values : List Bytes)
    (data : ListData) :
    cmd.pushAll (value :: values) data = cmd.pushAll values (cmd.push value data) := by
  cases cmd <;> simp [PushCmd.pushAll, PushCmd.push]

theorem PushCmd.pushAll_ne_nil (cmd : PushCmd) (value : Bytes) (values : List Bytes)
    (data : ListData) : cmd.pushAll (value :: values) data ≠ [] := by
  cases cmd <;> simp [PushCmd.pushAll]

/-- All values are pushed, and the new length is the reply. -/
theorem pushLoop_eq (works : env.Works) {values : List Bytes} {argi : Nat} {value : Bytes}
    (spells : SpellsFrom msg argi values) :
    pushLoop env cmd msg run values.length argi value e =
      let data := cmd.pushAll (value :: values) e.data
      { run with
          status := .execSendInt, entry := some { e with data := data }, ival := data.length } := by
  induction values generalizing argi value e with
  | nil =>
      rw [List.length_nil, pushLoop, if_pos (works.room argi), cmd.pushAll_cons]
      cases cmd <;> simp [PushCmd.pushAll]
  | cons next values ih =>
      rw [List.length_cons, pushLoop, if_pos (works.room argi)]
      simp only [spells.head]
      rw [ih spells.tail, cmd.pushAll_cons value]

end Loops

section Calls

/-- The commands on one list. -/
inductive ListOp where
  | push (cmd : PushCmd) (value : Bytes) (values : List Bytes)
  | pop (cmd : PopCmd)
  | llen
  | lrange (start stop : Int)
  | ltrim (start stop : Int)
  deriving DecidableEq, Repr

def ListOp.run (op : ListOp) (env : WriteEnv) (msg : CommandMsg) (entry : Option (Entry ListData)) :
    Option (KeyRun ListData) :=
  match op with
  | .push .lpush .. => some (execLpush env msg entry)
  | .push .rpush .. => some (execRpush env msg entry)
  | .push .lpushx .. => some (execLpushx env msg entry)
  | .push .rpushx .. => some (execRpushx env msg entry)
  | .pop .lpop => some (execLpop env entry)
  | .pop .rpop => some (execRpop env entry)
  | .llen => some (execLlen env.table entry)
  | .lrange .. => execLrange env.table msg entry
  | .ltrim .. => execLtrim env.table env.tombstoned msg entry

/-- What a command does to the elements. -/
def ListOp.next (op : ListOp) (data : ListData) : ListData :=
  match op with
  | .push cmd value values =>
      if cmd.mustExist ∧ data = [] then [] else cmd.pushAll (value :: values) data
  | .pop .lpop => data.tail
  | .pop .rpop => data.dropLast
  | .ltrim start stop => listSlice data start stop
  | .llen | .lrange .. => data

/-- What a command replies. A push replies the new length. -/
def ListOp.answer (op : ListOp) (data : ListData) : Bytes :=
  match op with
  | .push .. => sendInt (op.next data).length
  | .pop .lpop => appendItem data.head?
  | .pop .rpop => appendItem data.getLast?
  | .ltrim .. => line "+OK"
  | .llen => sendInt data.length
  | .lrange start stop => sendArray (listSlice data start stop)

/-- The message has the words of the command. No index is the largest number, behind which there is
none. -/
def ListOp.Spelled (op : ListOp) (msg : CommandMsg) : Prop :=
  match op with
  | .push _ value values => SpellsFrom msg 2 (value :: values)
  | .pop _ | .llen => True
  | .lrange start stop | .ltrim start stop =>
      msg.getArgInt 2 = some start ∧ msg.getArgInt 3 = some stop ∧ InInt64 start ∧ InInt64 stop ∧
        stop ≠ 2 ^ 63 - 1

/-- A command with its message and the table that it meets. -/
structure ListCall where
  op : ListOp
  env : WriteEnv := {}
  msg : CommandMsg
  arg0 : Bytes := []

/-- The message spells the command, the table works, and a stamp of zero is never over. -/
structure ListCall.Valid (call : ListCall) : Prop where
  works : call.env.Works
  forever : call.env.table.isExpired 0 = false
  spells : call.op.Spelled call.msg

/-- A key takes a command. A run that the code leaves undefined changes nothing. -/
def listStep (entry : Option (Entry ListData)) (call : ListCall) :
    Bytes × Option (Entry ListData) :=
  match call.op.run call.env call.msg entry with
  | some run => (run.reply call.arg0, run.settle .list)
  | none => ([], entry)

/-- The elements take a command. -/
def elementStep (data : ListData) (call : ListCall) : Bytes × ListData :=
  (call.op.answer data, call.op.next data)

end Calls

section Steps

variable {call : ListCall} {entry : Option (Entry ListData)} {data : ListData}

/-- A push adds all values to a list that is there, and makes a list unless it must be there. -/
theorem doPushArgs_spec (valid : call.Valid) (holds : Holds .list [] entry data) (cmd : PushCmd)
    {value : Bytes} {values : List Bytes} (spells : SpellsFrom call.msg 2 (value :: values)) :
    let run := doPushArgs call.env cmd call.msg entry
    let next := if cmd.mustExist ∧ data = [] then [] else cmd.pushAll (value :: values) data
    run.reply call.arg0 = sendInt next.length ∧ Holds .list [] (run.settle .list) next := by
  have isArg : call.msg.getArgStr 2 = some value := spells.head
  have left : call.msg.argc - 3 = values.length := by
    have argc := spells.argc
    simp only [List.length_cons] at argc
    omega
  have sized : sizedArgs call.msg = true := spells.tail.all
  have nonempty := cmd.pushAll_ne_nil value values data
  intro run next
  have opens : ∀ {run e}, Opened .list data run e →
      (pushLoop call.env cmd call.msg run values.length 3 value e).reply call.arg0 =
          sendInt (cmd.pushAll (value :: values) data).length ∧
        (pushLoop call.env cmd call.msg run values.length 3 value e).settle .list =
          some ⟨.list, cmd.pushAll (value :: values) data, 0⟩ := by
    intro run e opened
    rw [pushLoop_eq valid.works spells.tail, opened.data]
    exact ⟨opened.reply .execSendInt _ _ call.arg0, opened.settles .execSendInt _ _ (by decide)⟩
  simp only [run, doPushArgs, isArg, getKeyWrite_holds valid.works.table valid.forever holds]
  rcases holds with ⟨rfl, rfl⟩ | ⟨rfl, some⟩
  · by_cases must : cmd.mustExist
    · rw [show next = [] from if_pos ⟨must, rfl⟩]
      simp only [must, if_true]
      exact ⟨sendInt_zero, .inl ⟨rfl, rfl⟩⟩
    · simp only [must, Bool.false_eq_true, if_false, sized, not_true_eq_false,
        valid.works.table.resized, if_true, left]
      obtain ⟨reply, stored⟩ := opens (opened_new (by decide) [])
      rw [show next = cmd.pushAll (value :: values) [] from if_neg fun both => must both.1]
      exact ⟨reply, stored ▸ holds_some nonempty⟩
  · simp only [valid.works.table.valued, if_true, left]
    obtain ⟨reply, stored⟩ := opens (opened_old .list data)
    rw [show next = cmd.pushAll (value :: values) data from if_neg fun both => some both.2]
    exact ⟨reply, stored ▸ holds_some nonempty⟩

/-- The element at one end, and the others. -/
theorem PopCmd.pop_eq (cmd : PopCmd) (data : ListData) :
    appendItem ((cmd.pop data).map Prod.fst) = (ListOp.pop cmd).answer data ∧
      ((cmd.pop data).map Prod.snd).getD [] = (ListOp.pop cmd).next data := by
  cases cmd with
  | lpop => cases data <;> exact ⟨rfl, rfl⟩
  | rpop =>
      simp only [PopCmd.pop, ListOp.answer, ListOp.next]
      cases last : data.getLast? with
      | none =>
          obtain rfl := List.getLast?_eq_none_iff.mp last
          exact ⟨rfl, rfl⟩
      | some lv => exact ⟨rfl, rfl⟩

theorem PopCmd.pop_ne_none (cmd : PopCmd) (some : data ≠ []) : cmd.pop data ≠ none := by
  cases cmd <;> simp [PopCmd.pop, some]

/-- A pop takes the element at one end, and deletes a list that has no other one. -/
theorem doPopEnd_spec (valid : call.Valid) (holds : Holds .list [] entry data) (cmd : PopCmd) :
    let run := doPopEnd call.env cmd entry
    run.reply call.arg0 = appendItem ((cmd.pop data).map Prod.fst) ∧
      Holds .list [] (run.settle .list) (((cmd.pop data).map Prod.snd).getD []) := by
  intro run
  simp only [run, doPopEnd, getKeyWrite_holds valid.works.table valid.forever holds]
  rcases holds with ⟨rfl, rfl⟩ | ⟨rfl, some⟩
  · cases cmd <;> exact ⟨rfl, .inl ⟨rfl, rfl⟩⟩
  · simp only [valid.works.table.valued, if_true]
    cases popped : cmd.pop data with
    | none => exact absurd popped (cmd.pop_ne_none some)
    | some pair =>
        obtain ⟨lv, rest⟩ := pair
        by_cases last : rest = []
        · subst last
          simp only [List.isEmpty_nil, if_true, valid.works.tombstoned]
          exact ⟨List.append_nil _, .inl ⟨rfl, rfl⟩⟩
        · simp only [List.isEmpty_iff, if_neg last]
          refine ⟨List.append_nil _, ?_⟩
          rw [KeyRun.settle_of_not_isNew rfl]
          exact holds_some last

/-- Every command replies what the elements say, and leaves a key with the next elements. -/
theorem listStep_spec (valid : call.Valid) (bounded : data.length < 2 ^ 62)
    (holds : Holds .list [] entry data) :
    (listStep entry call).1 = call.op.answer data ∧
      Holds .list [] (listStep entry call).2 (call.op.next data) := by
  have works := valid.works.table
  have spells := valid.spells
  cases isOp : call.op with
  | push cmd value values =>
      rw [isOp] at spells
      have runs : listStep entry call =
          ((doPushArgs call.env cmd call.msg entry).reply call.arg0,
            (doPushArgs call.env cmd call.msg entry).settle .list) := by
        rw [listStep, isOp]
        cases cmd <;> rfl
      rw [runs]
      exact doPushArgs_spec valid holds cmd spells
  | pop cmd =>
      have runs : listStep entry call =
          ((doPopEnd call.env cmd entry).reply call.arg0,
            (doPopEnd call.env cmd entry).settle .list) := by
        rw [listStep, isOp]
        cases cmd <;> rfl
      obtain ⟨answer, next⟩ := cmd.pop_eq data
      rw [runs, ← answer, ← next]
      exact doPopEnd_spec valid holds cmd
  | llen =>
      rw [listStep, isOp]
      simp only [ListOp.run, execLlen, getKeyRead_holds works valid.forever holds]
      rcases id holds with ⟨rfl, rfl⟩ | ⟨rfl, -⟩
      · exact ⟨sendInt_zero, holds⟩
      · simp only [works.valued, works.validated, and_self, if_true]
        exact ⟨rfl, holds⟩
  | lrange start stop =>
      rw [isOp] at spells
      obtain ⟨first, last, firstInt, lastInt, early⟩ := spells
      rcases id holds with ⟨rfl, rfl⟩ | ⟨rfl, -⟩
      · rw [listStep, isOp]
        simp only [ListOp.run, execLrange, first, last,
          getKeyRead_holds works valid.forever holds]
        simp only [Fetched.array, works.validated, if_true]
        exact ⟨List.append_nil _, holds⟩
      · obtain ⟨run, isRun, reply, settled⟩ :=
          (lrangeSlices_iff works call.arg0 first last (holds.live valid.forever) rfl bounded
            firstInt lastInt).mpr fun largest => absurd largest early
        rw [listStep, isOp]
        simp only [ListOp.run, isRun]
        exact ⟨reply, settled ▸ holds⟩
  | ltrim start stop =>
      rw [isOp] at spells
      obtain ⟨first, last, firstInt, lastInt, early⟩ := spells
      rcases id holds with ⟨rfl, rfl⟩ | ⟨rfl, some⟩
      · rw [listStep, isOp]
        simp only [ListOp.run, execLtrim, first, last,
          getKeyWrite_holds works valid.forever holds]
        exact ⟨rfl, holds⟩
      · obtain ⟨run, isRun, reply, settled⟩ :=
          (ltrimSlices_iff works call.arg0 first last (holds.live valid.forever) rfl bounded
            firstInt lastInt).mpr ⟨early, some⟩
        rw [listStep, isOp]
        simp only [ListOp.run, valid.works.tombstoned, isRun]
        refine ⟨reply, ?_⟩
        rw [settled, ListOp.next]
        by_cases empty : listSlice data start stop = []
        · rw [if_pos empty, empty]
          exact holds_none
        · rw [if_neg empty]
          exact holds_some empty

/-- The commands on one list are those on a sequence of elements over every run. From a missing key
on all replies are those of the sequence, as long as it is shorter than 2 ^ 62, and the key has
exactly its elements and is missing when there are none. -/
theorem list_refines_sequence {calls : List ListCall}
    (valid : Machine.Along elementStep (fun data call => data.length < 2 ^ 62 ∧ call.Valid) []
      calls) :
    let key := Machine.run listStep none calls
    let elements := Machine.run elementStep [] calls
    key.1 = elements.1 ∧
      key.2 = if elements.2 = [] then none else some ⟨.list, elements.2, 0⟩ := by
  intro key elements
  obtain ⟨replies, holds⟩ :=
    Machine.outputs_eq_of_along (f := listStep) (R := Holds .list [])
      (fun _ _ _ good holds => listStep_spec good.2 good.1 holds) valid holds_none
  refine ⟨replies, ?_⟩
  rcases holds with ⟨missing, empty⟩ | ⟨held, nonempty⟩
  · rw [show elements.2 = [] from empty, if_pos rfl]
    exact missing
  · rw [if_neg (show elements.2 ≠ [] from nonempty)]
    exact held

/-- The words of an RPUSH. -/
def rpushWords : CommandMsg := ⟨commandWords ["rpush", "l", "a", "b"], by simp [commandWords]⟩

/-- The words of an LPOP. -/
def lpopWords : CommandMsg := ⟨commandWords ["lpop", "l"], by simp [commandWords]⟩

/-- Two elements are added at the tail, and the first one leaves. -/
def listCalls : List ListCall :=
  [⟨.push .rpush (text "a") [text "b"], {}, rpushWords, []⟩, ⟨.pop .lpop, {}, lpopWords, []⟩]

theorem list_refines_sequence_two :
    Machine.run listStep none listCalls =
      ([sendInt 2, sendConcatString (text "a")], some ⟨.list, [text "b"], 0⟩) := by
  have works : ({} : WriteEnv).Works := ⟨quietEnv_works, by simp, rfl⟩
  have spells : SpellsFrom rpushWords 2 [text "a", text "b"] :=
    spellsFrom_mkStr [mkStr (text "rpush"), mkStr (text "l")] rfl (by decide)
  have valid : Machine.Along elementStep (fun data call => data.length < 2 ^ 62 ∧ call.Valid) []
      listCalls :=
    ⟨⟨by decide, works, rfl, spells⟩, ⟨by decide, works, rfl, trivial⟩, trivial⟩
  obtain ⟨replies, left⟩ := list_refines_sequence valid
  exact Prod.ext (replies.trans (by decide)) (left.trans (by decide))

end Steps

end Raids.Key
