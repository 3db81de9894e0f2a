import Raids.Construction.Key.HashRead
import Raids.Proof.Key.Add

namespace Raids.Key

section Loops

variable (hash : HashData) (msg : CommandMsg)

/-- A scan appends the elements of the fields that are left. -/
theorem hscanLoop_eq (cmd : HashMulti) (left i : Nat) :
    hscanLoop cmd hash left (i + 1) =
      ((hash.drop i).take left).flatMap fun kv => cmd.items (some kv) := by
  induction left generalizing i with
  | zero => rfl
  | succ left ih =>
      rw [hscanLoop, HashData.hindex]
      cases found : hash[i]? with
      | none =>
          rw [List.drop_eq_nil_of_le (List.getElem?_eq_none_iff.mp found)]
          rfl
      | some kv =>
          obtain ⟨inside, same⟩ := List.getElem?_eq_some_iff.mp found
          rw [List.drop_eq_getElem_cons inside, same, List.take_succ_cons, List.flatMap_cons]
          dsimp only
          rw [ih]

theorem hscanLoop_all (cmd : HashMulti) :
    hscanLoop cmd hash (hash.count - 1) 1 = hash.flatMap fun kv => cmd.items (some kv) := by
  rw [hscanLoop_eq, List.drop_zero, HashData.count, Nat.add_sub_cancel, List.take_length]

/-- The arguments are looked up one after the other. -/
theorem hmgetLoop_eq (left : Nat) (key : Bytes) (argi : Nat) (total : argi + left = msg.argc) :
    hmgetLoop hash msg left key argi =
      ((List.range' argi left).mapM fun j : Nat => msg.getArgStr j).map
        fun keys => (key :: keys).map hash.hget := by
  induction left generalizing key argi with
  | zero =>
      rw [hmgetLoop, List.range'_zero, List.mapM_nil]
      rfl
  | succ left ih =>
      rw [hmgetLoop, if_pos (by omega), List.range'_succ, List.mapM_cons]
      cases msg.getArgStr argi with
      | none => rfl
      | some next =>
          dsimp only
          rw [ih next (argi + 1) (by omega)]
          cases (List.range' (argi + 1) left).mapM fun j : Nat => msg.getArgStr j <;> rfl

/-- A field with its value is found by its name. -/
theorem hget_of_mem (distinct : (hash.map Prod.fst).Nodup) {kv : Bytes × Bytes}
    (member : kv ∈ hash) : hash.hget kv.1 = some kv.2 := by
  induction hash with
  | nil => cases member
  | cons pair hash ih =>
      rw [List.map_cons, List.nodup_cons] at distinct
      rw [HashData.hget, List.lookup_cons]
      rcases List.mem_cons.mp member with rfl | later
      · rw [beq_self_eq_true]
      · have other : (kv.1 == pair.1) = false := by
          rw [beq_eq_false_iff_ne]
          intro same
          apply distinct.1
          rw [← same]
          exact List.mem_map_of_mem later
        rw [other]
        exact ih distinct.2 later

end Loops

section Replies

variable {env : KeyEnv} {entry : Option (Entry HashData)} {hash : Option HashData}

/-- What a hash key holds; nothing stands for a key of another type. -/
def hashValue (env : KeyEnv) (entry : Option (Entry HashData)) : Option (Option HashData) :=
  match live env entry with
  | none => some none
  | some e =>
      if e.type = .noData then some none
      else if e.type = .hash then some (some e.data)
      else none

theorem getKeyRead_hash (works : env.Works) (value : hashValue env entry = some hash) :
    match hash with
    | none => (getKeyRead env .hash entry).kstatus = some .keyNotFound
    | some data => ∃ e, (getKeyRead env .hash entry).kstatus = some .keyOk ∧
        (getKeyRead env .hash entry).entry = some e ∧ e.data = data := by
  rw [getKeyRead_works works]
  rw [hashValue] at value
  cases found : live env entry with
  | none =>
      rw [found] at value
      obtain rfl := Option.some.inj value
      rfl
  | some e =>
      rw [found] at value
      by_cases untyped : e.type = .noData
      · obtain rfl : none = hash := by simpa [untyped] using value
        simp [untyped]
      · by_cases isHash : e.type = .hash
        · obtain rfl : some e.data = hash := by simpa [isHash] using value
          simp [isHash]
        · simp [untyped, isHash] at value

/-- The reply of a read by the value of its field. -/
def HashRead.answer (cmd : HashRead) (hash : HashData) (arg : Bytes) : Bytes :=
  match cmd with
  | .hexists => sendInt (if (hash.hget arg).isSome then 1 else 0)
  | .hget => appendItem (hash.hget arg)
  | .hlen => sendInt hash.length
  | .hstrlen => sendInt (((hash.hget arg).map List.length).getD 0)

/-- A missing key is read as a hash without fields. -/
theorem doHread_reply (works : env.Works) (value : hashValue env entry = some hash)
    (cmd : HashRead) {msg : CommandMsg} {arg : Bytes}
    (isArg : (if cmd = .hlen then some [] else msg.getArgStr 2) = some arg) (arg0 : Bytes) :
    (doHread env cmd msg entry).reply arg0 = cmd.answer (hash.getD []) arg := by
  have found := getKeyRead_hash works value
  have one : line ":1" = sendInt 1 := by decide
  have zero : line ":0" = sendInt 0 := by decide
  rw [doHread]
  simp only [isArg]
  cases hash with
  | none =>
      simp only [found]
      cases cmd with
      | hget => rfl
      | hexists | hlen | hstrlen => exact zero
  | some data =>
      obtain ⟨e, ok, isEntry, rfl⟩ := found
      simp only [ok, isEntry, works.valued, works.validated, if_true, Option.getD_some]
      cases cmd with
      | hlen => rfl
      | hget =>
          simp only [HashRead.result, HashRead.answer]
          cases e.data.hget arg with
          | none => rfl
          | some lv => exact List.append_nil _
      | hexists =>
          simp only [HashRead.result, HashRead.answer]
          cases e.data.hget arg with
          | none => exact zero
          | some lv => exact one
      | hstrlen =>
          simp only [HashRead.result, HashRead.answer]
          cases e.data.hget arg with
          | none => exact zero
          | some lv => rfl

theorem sendItems_reply (works : env.Works) (found : Fetched HashData)
    (items : List (Option Bytes)) (arg0 : Bytes) :
    (found.sendItems env items).reply arg0 = sendItems items := by
  rw [Fetched.sendItems, if_pos works.validated]
  exact List.append_nil _

/-- A scan of a missing key has no elements. -/
theorem doHmultiscan_reply (works : env.Works) (value : hashValue env entry = some hash)
    {cmd : HashMulti} (scans : cmd ≠ .hmget) (msg : CommandMsg) (arg0 : Bytes) :
    (doHmultiscan env cmd msg entry).reply arg0 =
      sendItems ((hash.getD []).flatMap fun kv => cmd.items (some kv)) := by
  have found := getKeyRead_hash works value
  rw [doHmultiscan]
  simp only [if_neg scans]
  cases hash with
  | none =>
      simp only [found]
      exact sendItems_reply works _ _ arg0
  | some data =>
      obtain ⟨e, ok, isEntry, rfl⟩ := found
      simp only [ok, isEntry, works.valued, if_true, Option.getD_some, hscanLoop_all]
      exact sendItems_reply works _ _ arg0

end Replies

section Fields

variable {msg : CommandMsg}

/-- The fields are all strings, or nothing is read. -/
theorem mapM_getD {α : Type} (l : List α) (f : α → Option Bytes) :
    l.mapM f = if ∀ a ∈ l, (f a).isSome then some (l.map fun a => (f a).getD []) else none := by
  induction l with
  | nil => rfl
  | cons a l ih =>
      rw [List.mapM_cons, ih]
      cases first : f a with
      | none => simp [first]
      | some str =>
          by_cases all : ∀ b ∈ l, (f b).isSome
          · rw [if_pos all, if_pos (by simpa [first] using all), List.map_cons, first]
            rfl
          · rw [if_neg all, if_neg (by simpa [first] using all)]
            rfl

/-- The message that reads one field of a message. -/
def hgetMsg (msg : CommandMsg) (j : Nat) : CommandMsg where
  args := msg.args.take 2 ++ msg.args[j]?.toList
  fits := by
    rw [List.length_append, List.length_take]
    have few : msg.args[j]?.toList.length ≤ 1 := by
      cases msg.args[j]? <;> simp
    omega

theorem getArgStr_hgetMsg (arity : 2 < msg.argc) {j : Nat} (inside : j < msg.argc) :
    (hgetMsg msg j).getArgStr 2 = msg.getArgStr j := by
  have two : (msg.args.take 2).length = 2 := by
    rw [List.length_take]
    rw [CommandMsg.argc] at arity
    omega
  have field : (hgetMsg msg j).args[(2 : Int).toNat]? = msg.args[(j : Int).toNat]? := by
    rw [CommandMsg.argc] at inside
    show (msg.args.take 2 ++ msg.args[j]?.toList)[2]? = msg.args[j]?
    rw [List.getElem?_append_right (by omega), two, List.getElem?_eq_getElem inside]
    rfl
  rw [CommandMsg.getArgStr, CommandMsg.getArgStr, if_neg (by decide), if_neg (by omega), field]

end Fields

section Agreement

variable (env : KeyEnv) (entry : Option (Entry HashData)) (msg : CommandMsg) (arg0 : Bytes)

/-- All commands read the same fields and values. -/
structure HashReadersAgree : Prop where
  hmget : (execHmget env msg entry).reply arg0 =
    arrayChar :: uint64ToString (msg.argc - 2) ++ crlf ++
      (List.range' 2 (msg.argc - 2)).flatMap fun j =>
        (execHget env (hgetMsg msg j) entry).reply arg0
  hgetall : ∃ pairs : HashData, ∀ m : CommandMsg,
    (execHkeys env m entry).reply arg0 = sendItems (pairs.map fun kv => some kv.1) ∧
      (execHvals env m entry).reply arg0 = sendItems (pairs.map fun kv => some kv.2) ∧
      (execHgetall env m entry).reply arg0 =
        sendItems (pairs.flatMap fun kv => [some kv.1, some kv.2]) ∧
      (pairs.flatMap fun kv => [some kv.1, some kv.2]).length = 2 * pairs.length ∧
      (execHlen env m entry).reply arg0 = sendInt pairs.length ∧
      ∀ kv ∈ pairs, m.getArgStr 2 = some kv.1 →
        (execHget env m entry).reply arg0 = sendConcatString kv.2
  hget : ∀ (m : CommandMsg) (field : Bytes), m.getArgStr 2 = some field →
    ∃ value : Option Bytes, (execHget env m entry).reply arg0 = appendItem value ∧
      (execHexists env m entry).reply arg0 = sendInt (if value.isSome then 1 else 0) ∧
      (execHstrlen env m entry).reply arg0 = sendInt ((value.map List.length).getD 0)

variable {env entry msg} {hash : Option HashData}

/-- The read of many fields is the read of each of them unless the key is missing or a field is no
string. -/
theorem execHmget_iff (works : env.Works) (value : hashValue env entry = some hash)
    (arity : 2 < msg.argc) :
    (execHmget env msg entry).reply arg0 =
        arrayChar :: uint64ToString (msg.argc - 2) ++ crlf ++
          ((List.range' 2 (msg.argc - 2)).flatMap fun j =>
            (execHget env (hgetMsg msg j) entry).reply arg0) ↔
      hash.isSome ∧ ∀ j, 2 ≤ j → j < msg.argc → (msg.getArgStr j).isSome := by
  have found := getKeyRead_hash works value
  have refused : ∀ rest : Bytes, [] ++ sendStatus arg0 0 .errBadArgs ≠ arrayChar :: rest := by
    intro rest same
    have heads := head_sendErrString arg0 .errBadArgs
    rw [← sendStatus_of_isError (by decide) arg0 0, ← List.nil_append (sendStatus _ _ _), same]
      at heads
    simp [arrayChar] at heads
  have range : List.range' 2 (msg.argc - 2) = 2 :: List.range' 3 (msg.argc - 3) := by
    rw [show msg.argc - 2 = msg.argc - 3 + 1 by omega, List.range'_succ]
  rw [execHmget, doHmultiscan]
  simp only [if_true]
  cases first : msg.getArgStr 2 with
  | none =>
      apply iff_of_false
      · exact refused _
      · intro both
        have isString := both.2 2 (Nat.le_refl _) arity
        rw [show ((2 : Nat) : Int) = 2 from rfl, first] at isString
        cases isString
  | some key =>
      cases hash with
      | none =>
          apply iff_of_false
          · simp only [found]
            rw [sendItems_reply works]
            intro same
            have lengths := congrArg List.length same
            have digits := List.length_pos_of_ne_nil (Decimal.decimal_ne_nil (msg.argc - 2))
            have isKey : (hgetMsg msg 2).getArgStr 2 = some key := by
              rw [getArgStr_hgetMsg arity arity]
              exact first
            have one := doHread_reply works value .hget isKey arg0
            rw [range, List.flatMap_cons, execHget, one] at lengths
            simp only [sendItems, HashRead.answer, appendItem, HashData.hget, Option.getD_none,
              List.lookup_nil, List.flatMap_nil, List.append_nil, List.length_append,
              List.length_cons, List.length_nil, uint64ToString] at lengths
            have zero : (Decimal.decimal 0).length = 1 := by decide
            have nil : (line "$-1").length = 5 := by decide
            omega
          · intro both
            cases both.1
      | some data =>
          obtain ⟨e, ok, isEntry, rfl⟩ := found
          simp only [ok, isEntry, works.valued, if_true, Option.isSome_some, true_and]
          rw [hmgetLoop_eq e.data msg (msg.argc - 3) key 3 (by omega), mapM_getD]
          by_cases all : ∀ j ∈ List.range' 3 (msg.argc - 3), (msg.getArgStr j).isSome
          · rw [if_pos all]
            apply iff_of_true
            · have read : ∀ j ∈ List.range' 2 (msg.argc - 2),
                  (execHget env (hgetMsg msg j) entry).reply arg0 =
                    appendItem (e.data.hget ((msg.getArgStr j).getD [])) := by
                intro j member
                rw [List.mem_range'_1] at member
                have isString : (msg.getArgStr j).isSome := by
                  by_cases start : j = 2
                  · rw [start, show ((2 : Nat) : Int) = 2 from rfl, first]
                    rfl
                  · exact all j (List.mem_range'_1.mpr (by omega))
                obtain ⟨field, isField⟩ := Option.isSome_iff_exists.mp isString
                have isKey : (hgetMsg msg j).getArgStr 2 = some field := by
                  rw [getArgStr_hgetMsg arity (by omega)]
                  exact isField
                have one := doHread_reply works value .hget isKey arg0
                rw [execHget, one, isField]
                rfl
              rw [List.flatMap_congr read, range]
              simp only [Option.map_some]
              rw [sendItems_reply works, sendItems]
              simp only [List.map_cons, List.length_cons, List.length_map, List.length_range',
                List.flatMap_cons, List.map_map, List.flatMap_map]
              rw [show msg.argc - 3 + 1 = msg.argc - 2 by omega,
                show ((2 : Nat) : Int) = 2 from rfl, first]
              rfl
            · intro j low high
              by_cases start : j = 2
              · rw [start, show ((2 : Nat) : Int) = 2 from rfl, first]
                rfl
              · exact all j (List.mem_range'_1.mpr (by omega))
          · rw [if_neg all]
            apply iff_of_false
            · exact refused _
            · intro strings
              apply all
              intro j member
              rw [List.mem_range'_1] at member
              exact strings j (by omega) (by omega)

/-- The commands agree exactly if the key is there and each field is a string. -/
theorem hashReaders_exact (works : env.Works) (value : hashValue env entry = some hash)
    (distinct : ((hash.getD []).map Prod.fst).Nodup) (arity : 2 < msg.argc) :
    HashReadersAgree env entry msg arg0 ↔
      hash.isSome ∧ ∀ j, 2 ≤ j → j < msg.argc → (msg.getArgStr j).isSome := by
  rw [← execHmget_iff arg0 works value arity]
  apply Iff.intro
  · exact HashReadersAgree.hmget
  · intro hmget
    refine ⟨hmget, ⟨hash.getD [], fun m => ⟨?_, ?_, ?_, ?_, ?_, ?_⟩⟩, ?_⟩
    · rw [execHkeys, doHmultiscan_reply works value (by decide)]
      simp [HashMulti.items, HashMulti.keys, HashMulti.vals, List.map_eq_flatMap]
    · rw [execHvals, doHmultiscan_reply works value (by decide)]
      simp [HashMulti.items, HashMulti.keys, HashMulti.vals, List.map_eq_flatMap]
    · rw [execHgetall, doHmultiscan_reply works value (by decide)]
      simp [HashMulti.items, HashMulti.keys, HashMulti.vals]
    · simp [List.length_flatMap]
      omega
    · exact doHread_reply works value .hlen rfl arg0
    · intro kv member isField
      rw [execHget, doHread_reply works value .hget isField, HashRead.answer,
        hget_of_mem _ distinct member]
      rfl
    · intro m field isField
      refine ⟨(hash.getD []).hget field, ?_, ?_, ?_⟩
      · exact doHread_reply works value .hget isField arg0
      · exact doHread_reply works value .hexists isField arg0
      · exact doHread_reply works value .hstrlen isField arg0

end Agreement

section Samples

/-- A hash of two fields. -/
def twoFields : Option (Entry HashData) :=
  some ⟨.hash, [(text "a", text "1"), (text "b", text "22")], 0⟩

def hmgetMsg : CommandMsg := ⟨commandWords ["hmget", "k", "b", "c"], by decide⟩

theorem hashReaders_exact_two : HashReadersAgree quietEnv twoFields hmgetMsg [] ↔
    (some [(text "a", text "1"), (text "b", text "22")] : Option HashData).isSome ∧
      ∀ j, 2 ≤ j → j < hmgetMsg.argc → (hmgetMsg.getArgStr j).isSome :=
  hashReaders_exact [] quietEnv_works (by decide) (by decide) (by decide)

/-- A missing key has no elements for two fields. -/
theorem not_hashReaders_exact : ¬HashReadersAgree quietEnv none hmgetMsg [] := by
  intro agree
  exact absurd agree.hmget (by decide)

end Samples

end Raids.Key
