import Mathlib.Data.Finmap
import Raids.Construction.Key.HashWrite
import Raids.Library.Machine
import Raids.Proof.Key.Add
import Raids.Proof.Key.Container
import Raids.Proof.Key.HashRead

namespace Raids.Key

/-- The fields of a hash with their values. -/
abbrev FieldMap := Finmap fun _ : Bytes => Bytes

/-- The map that a hash stands for. -/
def HashData.fields (hash : HashData) : FieldMap := (hash.map Prod.toSigma).toFinmap

/-- A hash has each field once. -/
def HashData.Unique (hash : HashData) : Prop := (hash.map Prod.fst).Nodup

/-- The pairs are set one behind the other. -/
def HashData.setAll (hash : HashData) (pairs : List (Bytes × Bytes)) : HashData :=
  pairs.foldl (fun hash pair => hash.hupdate pair.1 pair.2) hash

/-- The fields leave one behind the other. -/
def HashData.delAll (hash : HashData) (fields : List Bytes) : HashData :=
  fields.foldl (fun hash field => (hash.hdel field).2) hash

section Data

variable {hash : HashData} {field value : Bytes}

theorem lookup_fields (hash : HashData) (field : Bytes) :
    hash.fields.lookup field = hash.hget field := by
  rw [HashData.fields, Finmap.dlookup_list_toFinmap, HashData.hget]
  induction hash with
  | nil => rfl
  | cons pair hash ih =>
      obtain ⟨name, value⟩ := pair
      by_cases same : field = name
      · subst same
        rw [List.map_cons, List.lookup_cons, beq_self_eq_true]
        exact List.dlookup_cons_eq _ _ _
      · rw [List.map_cons, List.dlookup_cons_ne _ _ same, ih, List.lookup_cons,
          beq_false_of_ne same]

theorem fields_hupdate (hash : HashData) (field value : Bytes) :
    (hash.hupdate field value).fields = hash.fields.insert field value := by
  apply Finmap.ext_lookup
  intro other
  rw [lookup_fields]
  by_cases same : other = field
  · rw [same, hget_hupdate, Finmap.lookup_insert]
  · rw [hget_hupdate_of_ne hash same, Finmap.lookup_insert_of_ne _ same, lookup_fields]

theorem hget_hdel (hash : HashData) (field other : Bytes) :
    (hash.hdel field).2.hget other = if other = field then none else hash.hget other := by
  rw [HashData.hdel]
  simp only [HashData.hget]
  induction hash with
  | nil => simp
  | cons pair hash ih =>
      by_cases gone : pair.1 = field
      · rw [List.filter_cons_of_neg (by simp [gone]), ih, List.lookup_cons]
        by_cases same : other = field
        · rw [if_pos same, if_pos same]
        · rw [if_neg same, if_neg same, gone, beq_false_of_ne same]
      · rw [List.filter_cons_of_pos (by simp [gone]), List.lookup_cons, ih, List.lookup_cons]
        by_cases first : other = pair.1
        · simp only [first, beq_self_eq_true, if_neg gone]
        · rw [beq_false_of_ne first]

theorem fields_hdel (hash : HashData) (field : Bytes) :
    (hash.hdel field).2.fields = hash.fields.erase field := by
  apply Finmap.ext_lookup
  intro other
  rw [lookup_fields, hget_hdel]
  by_cases same : other = field
  · rw [if_pos same, same, Finmap.lookup_erase]
  · rw [if_neg same, Finmap.lookup_erase_ne same, lookup_fields]

/-- A field is there when it has a value. -/
theorem isSome_hget (hash : HashData) (field : Bytes) :
    (hash.hget field).isSome = true ↔ field ∈ hash.map Prod.fst := by
  rw [HashData.hget, List.lookup_isSome_iff]
  simp

theorem map_fst_hupdate (hash : HashData) (field value : Bytes) :
    (hash.hupdate field value).map Prod.fst =
      if field ∈ hash.map Prod.fst then hash.map Prod.fst else hash.map Prod.fst ++ [field] := by
  induction hash with
  | nil => rfl
  | cons pair hash ih =>
      rw [HashData.hupdate]
      by_cases same : field = pair.1
      · simp [same]
      · simp only [beq_iff_eq, same, if_false, List.map_cons, ih, List.mem_cons, false_or]
        split <;> rfl

theorem unique_hupdate (unique : hash.Unique) (field value : Bytes) :
    (hash.hupdate field value).Unique := by
  rw [HashData.Unique, map_fst_hupdate]
  split
  · exact unique
  · rename_i absent
    exact List.nodup_append.mpr ⟨unique, List.nodup_singleton field, fun other member field' last =>
      fun same => absent (List.mem_singleton.mp last ▸ same ▸ member)⟩

theorem length_hupdate (hash : HashData) (field value : Bytes) :
    (hash.hupdate field value).length =
      if (hash.hget field).isSome then hash.length else hash.length + 1 := by
  have length := congrArg List.length (map_fst_hupdate hash field value)
  rw [List.length_map] at length
  rw [length]
  by_cases present : field ∈ hash.map Prod.fst
  · rw [if_pos present, if_pos ((isSome_hget hash field).mpr present), List.length_map]
  · rw [if_neg present, if_neg (fun some => present ((isSome_hget hash field).mp some))]
    simp

theorem unique_hdel (unique : hash.Unique) (field : Bytes) : (hash.hdel field).2.Unique :=
  unique.sublist (List.Sublist.map Prod.fst List.filter_sublist)

theorem card_fields (unique : hash.Unique) : hash.fields.keys.card = hash.length := by
  have keys : hash.fields.keys = (hash.map Prod.fst).toFinset := by
    ext field
    rw [Finmap.mem_keys, ← Finmap.lookup_isSome, lookup_fields, isSome_hget, List.mem_toFinset]
  rw [keys, List.toFinset_card_of_nodup unique, List.length_map]

/-- The hash behind one pair after the other. -/
theorem setAll_spec (unique : hash.Unique) (pairs : List (Bytes × Bytes)) :
    (hash.setAll pairs).Unique ∧
      (hash.setAll pairs).fields =
        pairs.foldl (fun map pair => map.insert pair.1 pair.2) hash.fields := by
  induction pairs generalizing hash with
  | nil => exact ⟨unique, rfl⟩
  | cons pair pairs ih =>
      obtain ⟨last, fields⟩ := ih (unique_hupdate unique pair.1 pair.2)
      rw [fields_hupdate] at fields
      exact ⟨last, fields⟩

/-- The hash behind one removal after the other. -/
theorem delAll_spec (unique : hash.Unique) (fields : List Bytes) :
    (hash.delAll fields).Unique ∧
      (hash.delAll fields).fields = fields.foldl (fun map field => map.erase field) hash.fields := by
  induction fields generalizing hash with
  | nil => exact ⟨unique, rfl⟩
  | cons field fields ih =>
      obtain ⟨last, left⟩ := ih (unique_hdel unique field)
      rw [fields_hdel] at left
      exact ⟨last, left⟩

theorem delAll_nil (fields : List Bytes) : HashData.delAll [] fields = [] := by
  induction fields with
  | nil => rfl
  | cons field fields ih => exact ih

theorem length_delAll_le (hash : HashData) (fields : List Bytes) :
    (hash.delAll fields).length ≤ hash.length := by
  induction fields generalizing hash with
  | nil => exact le_refl _
  | cons field fields ih => exact le_trans (ih _) (List.length_filter_le _ hash)

/-- A removal of a field that is there makes the hash shorter by one. -/
theorem length_hdel (unique : hash.Unique) (field : Bytes) :
    ((hash.hdel field).2.length : Int) =
      if (hash.hget field).isSome then (hash.length : Int) - 1 else hash.length := by
  rw [← card_fields unique, ← card_fields (unique_hdel unique field), fields_hdel,
    Finmap.keys_erase]
  by_cases present : field ∈ hash.fields
  · have isKey := Finmap.mem_keys.mpr present
    have some : (hash.hget field).isSome := by
      rwa [← lookup_fields, Finmap.lookup_isSome]
    have pos := Finset.card_pos.mpr ⟨field, isKey⟩
    rw [if_pos some, Finset.card_erase_of_mem isKey]
    omega
  · have noKey : field ∉ hash.fields.keys := fun isKey => present (Finmap.mem_keys.mp isKey)
    have none : ¬(hash.hget field).isSome := by
      rwa [← lookup_fields, Finmap.lookup_isSome]
    rw [if_neg none, Finset.erase_eq_of_notMem noKey]

end Data

section Loops

variable {env : WriteEnv} {msg : CommandMsg} {run : KeyRun HashData} {cmd : HashWrite}
  {e : Entry HashData}

/-- The words of pairs. -/
def pairWords (pairs : List (Bytes × Bytes)) : List Bytes :=
  pairs.flatMap fun pair => [pair.1, pair.2]

theorem length_pairWords (pairs : List (Bytes × Bytes)) :
    (pairWords pairs).length = 2 * pairs.length := by
  induction pairs with
  | nil => rfl
  | cons pair pairs ih =>
      rw [pairWords, List.flatMap_cons, List.length_append, ← pairWords, ih]
      simp only [List.length_cons, List.length_nil]
      omega

theorem SpellsFrom.pair {i : Nat} {pair : Bytes × Bytes} {pairs : List (Bytes × Bytes)}
    (spells : SpellsFrom msg i (pairWords (pair :: pairs))) :
    msg.getArgStr (i : Nat) = some pair.1 ∧ msg.getArgStr (i + 1 : Nat) = some pair.2 ∧
      SpellsFrom msg (i + 2) (pairWords pairs) := by
  rw [pairWords, List.flatMap_cons] at spells
  exact ⟨spells.head, spells.tail.head, spells.tail.tail⟩

/-- All pairs are set, and the new fields are counted by HSET. -/
theorem hsetLoop_eq (works : env.Works) {pairs : List (Bytes × Bytes)} {argi fuel : Nat}
    {arg val : Bytes} {ival : Int} (spells : SpellsFrom msg argi (pairWords pairs))
    (enough : pairs.length < fuel) :
    hsetLoop env msg run cmd fuel argi arg val ival e =
      let data := e.data.setAll ((arg, val) :: pairs)
      { run with
          status := if cmd = .hset then .execSendInt else .execSendOk
          entry := some { e with data := data }
          ival := if cmd = .hset then ival + (data.length - e.data.length : Int) else ival } := by
  induction pairs generalizing argi fuel arg val ival e with
  | nil =>
      obtain ⟨fuel, rfl⟩ : ∃ n, fuel = n + 1 := ⟨fuel - 1, by omega⟩
      have last : ¬argi < msg.argc := by
        rw [spells.argc]
        simp [pairWords]
      rw [hsetLoop, if_pos (works.room argi)]
      simp only [HashData.hset, if_neg last, HashData.setAll, List.foldl_cons, List.foldl_nil,
        length_hupdate]
      by_cases counts : cmd = .hset
      · by_cases present : (e.data.hget arg).isSome <;> simp [counts, present]
      · simp [counts]
  | cons pair pairs ih =>
      obtain ⟨fuel, rfl⟩ : ∃ n, fuel = n + 1 := ⟨fuel - 1, by omega⟩
      obtain ⟨first, second, rest⟩ := spells.pair
      have more : argi < msg.argc := by
        rw [spells.argc, length_pairWords, List.length_cons]
        omega
      rw [hsetLoop, if_pos (works.room argi)]
      simp only [HashData.hset, if_pos more, first, second]
      rw [ih rest (by rw [List.length_cons] at enough; omega)]
      simp only [HashData.setAll, List.foldl_cons, length_hupdate]
      by_cases counts : cmd = .hset
      · by_cases present : (e.data.hget arg).isSome
        · simp [counts, present]
        · simp [counts, present]
          omega
      · simp [counts]

/-- A second update of a field replaces the first one. -/
theorem hupdate_hupdate (hash : HashData) (field value value' : Bytes) :
    (hash.hupdate field value).hupdate field value' = hash.hupdate field value' := by
  induction hash with
  | nil => simp [HashData.hupdate]
  | cons pair hash ih =>
      rw [HashData.hupdate]
      by_cases same : field == pair.1
      · simp [HashData.hupdate, same]
      · simp [HashData.hupdate, same, ih]

/-- All values are put behind the field. -/
theorem happendLoop_eq (works : env.Works) {values : List Bytes} {argi fuel : Nat}
    {arg val val2 : Bytes} {isNew : Bool} (spells : SpellsFrom msg argi values)
    (enough : values.length < fuel) :
    happendLoop env msg run arg fuel argi val val2 isNew e =
      { run with
          status := if isNew || (e.data.hget arg).isNone then .execSendOne else .execSendZero
          entry := some { e with
            data := e.data.hupdate arg
              ((e.data.hget arg).getD [] ++ val ++ val2 ++ values.flatten) } } := by
  induction fuel generalizing values argi val val2 isNew e with
  | zero => omega
  | succ fuel ih =>
      have isOk : ((if (e.data.hget arg).isSome then HashStatus.updated else .ok) == .ok) =
          (e.data.hget arg).isNone := by
        cases e.data.hget arg <;> rfl
      rw [happendLoop, if_pos (works.room argi)]
      simp only [HashData.happend, isOk]
      cases values with
      | nil =>
          have last : ¬argi < msg.argc := by
            rw [spells.argc]
            simp
          rw [if_neg last, List.flatten_nil, List.append_nil]
      | cons value values =>
          have more : argi < msg.argc := by
            rw [spells.argc, List.length_cons]
            omega
          rw [if_pos more, spells.head]
          cases values with
          | nil =>
              have last : ¬argi + 1 < msg.argc := by
                rw [spells.argc]
                simp
              simp only [if_neg last]
              rw [ih spells.tail (by simp at enough ⊢; omega)]
              simp [hupdate_hupdate]
          | cons value2 values =>
              have more2 : argi + 1 < msg.argc := by
                rw [spells.argc, List.length_cons, List.length_cons]
                omega
              simp only [if_pos more2, spells.tail.head]
              rw [ih spells.tail.tail (by simp at enough ⊢; omega)]
              simp [hupdate_hupdate]

/-- All fields leave, and those that were there are counted. -/
theorem hdelLoop_eq {fields : List Bytes} {i : Nat} {arg : Bytes} {hash : HashData} {ival : Int}
    (unique : hash.Unique) (spells : SpellsFrom msg i fields) :
    hdelLoop msg fields.length i arg hash ival =
      (true, hash.delAll (arg :: fields),
        ival + (hash.length - (hash.delAll (arg :: fields)).length)) := by
  induction fields generalizing i arg hash ival with
  | nil =>
      have length := length_hdel unique arg
      rw [List.length_nil, hdelLoop]
      simp only [HashData.delAll, List.foldl_cons, List.foldl_nil, Prod.mk.injEq, true_and]
      rw [length, HashData.hdel]
      by_cases present : (hash.hget arg).isSome <;> simp [present]
  | cons field fields ih =>
      have length := length_hdel unique arg
      rw [List.length_cons, hdelLoop]
      simp only [spells.head]
      rw [ih (unique_hdel unique arg) spells.tail]
      simp only [HashData.delAll, List.foldl_cons, Prod.mk.injEq, true_and]
      rw [length, HashData.hdel]
      by_cases present : (hash.hget arg).isSome
      · simp [present]
        omega
      · simp [present]

/-- The arguments of pairs are accepted. -/
theorem sizedPairs_spells {pairs : List (Bytes × Bytes)} {argi : Nat} (fuel : Nat)
    (spells : SpellsFrom msg argi (pairWords pairs)) : sizedPairs msg fuel argi = true := by
  induction fuel generalizing pairs argi with
  | zero => rfl
  | succ fuel ih =>
      rw [sizedPairs]
      cases pairs with
      | nil =>
          have last : ¬argi < msg.argc := by
            rw [spells.argc]
            simp [pairWords]
          exact if_neg last
      | cons pair pairs =>
          obtain ⟨first, second, rest⟩ := spells.pair
          rw [first, second, ih rest]
          exact ite_self true

/-- The fields that HMGET reads behind the first one. -/
theorem hmgetLoop_spells (hash : HashData) {fields : List Bytes} {argi : Nat} (key : Bytes)
    (spells : SpellsFrom msg argi fields) :
    hmgetLoop hash msg fields.length key argi = some ((key :: fields).map hash.hget) := by
  induction fields generalizing key argi with
  | nil => rfl
  | cons field fields ih =>
      have more : argi < msg.argc := by
        rw [spells.argc, List.length_cons]
        omega
      rw [List.length_cons, hmgetLoop, if_pos more]
      simp only [spells.head]
      rw [ih field spells.tail]
      rfl

end Loops

section Calls

/-- The commands on one hash. -/
inductive HashOp where
  | hset (pair : Bytes × Bytes) (pairs : List (Bytes × Bytes))
  | hmset (pair : Bytes × Bytes) (pairs : List (Bytes × Bytes))
  | hsetnx (field value : Bytes)
  | happend (field value : Bytes) (values : List Bytes)
  | hdel (field : Bytes) (fields : List Bytes)
  | hget (field : Bytes)
  | hexists (field : Bytes)
  | hstrlen (field : Bytes)
  | hmget (field : Bytes) (fields : List Bytes)
  | hlen
  deriving DecidableEq, Repr

/-- The words behind the key. -/
def HashOp.words : HashOp → List Bytes
  | .hset pair pairs | .hmset pair pairs => pairWords (pair :: pairs)
  | .hsetnx field value => [field, value]
  | .happend field value values => field :: value :: values
  | .hdel field fields | .hmget field fields => field :: fields
  | .hget field | .hexists field | .hstrlen field => [field]
  | .hlen => []

def HashOp.run (op : HashOp) (env : WriteEnv) (msg : CommandMsg) (entry : Option (Entry HashData)) :
    KeyRun HashData :=
  match op with
  | .hset .. => execHset env msg entry
  | .hmset .. => execHmset env msg entry
  | .hsetnx .. => execHsetnx env msg entry
  | .happend .. => execHappend env msg entry
  | .hdel .. => execHdel env msg entry
  | .hget _ => execHget env.table msg entry
  | .hexists _ => execHexists env.table msg entry
  | .hstrlen _ => execHstrlen env.table msg entry
  | .hmget .. => execHmget env.table msg entry
  | .hlen => execHlen env.table msg entry

/-- The pairs are inserted one behind the other. -/
def FieldMap.setAll (map : FieldMap) (pairs : List (Bytes × Bytes)) : FieldMap :=
  pairs.foldl (fun map pair => map.insert pair.1 pair.2) map

def FieldMap.delAll (map : FieldMap) (fields : List Bytes) : FieldMap :=
  fields.foldl (fun map field => map.erase field) map

def FieldMap.count (map : FieldMap) : Nat := map.keys.card

/-- What a command does to the map. -/
def HashOp.next (op : HashOp) (map : FieldMap) : FieldMap :=
  match op with
  | .hset pair pairs | .hmset pair pairs => map.setAll (pair :: pairs)
  | .hsetnx field value => if field ∈ map then map else map.insert field value
  | .happend field value values =>
      map.insert field ((map.lookup field).getD [] ++ value ++ values.flatten)
  | .hdel field fields => map.delAll (field :: fields)
  | _ => map

/-- What a command replies. HSET counts the fields that are new and HDEL those that are gone. No
elements are read from an empty map. -/
def HashOp.answer (op : HashOp) (map : FieldMap) : Bytes :=
  match op with
  | .hset .. => sendInt ((op.next map).count - map.count)
  | .hmset .. => line "+OK"
  | .hsetnx field _ | .happend field .. => sendInt (if field ∈ map then 0 else 1)
  | .hdel .. => sendInt (map.count - (op.next map).count)
  | .hget field => appendItem (map.lookup field)
  | .hexists field => sendInt (if field ∈ map then 1 else 0)
  | .hstrlen field => sendInt (((map.lookup field).map List.length).getD 0)
  | .hmget field fields =>
      sendItems (if map.count = 0 then [] else (field :: fields).map map.lookup)
  | .hlen => sendInt map.count

/-- A command with the words of its message and the table that it meets. -/
structure HashCall where
  op : HashOp
  env : WriteEnv := {}
  msg : CommandMsg
  arg0 : Bytes := []

/-- The message spells the command, the table works, and a stamp of zero is never over. -/
structure HashCall.Valid (call : HashCall) : Prop where
  works : call.env.Works
  forever : call.env.table.isExpired 0 = false
  spells : SpellsFrom call.msg 2 call.op.words

/-- A key takes a command. -/
def hashStep (entry : Option (Entry HashData)) (call : HashCall) :
    Bytes × Option (Entry HashData) :=
  let run := call.op.run call.env call.msg entry
  (run.reply call.arg0, run.settle .hash)

/-- The map takes a command. -/
def fieldStep (map : FieldMap) (call : HashCall) : Bytes × FieldMap :=
  (call.op.answer map, call.op.next map)

/-- A key stands for a map. A key without fields is missing. -/
def StandsFor (entry : Option (Entry HashData)) (map : FieldMap) : Prop :=
  ∃ hash : HashData, Holds .hash [] entry hash ∧ hash.Unique ∧ hash.fields = map

end Calls

section Steps

variable {env : WriteEnv} {msg : CommandMsg} {entry : Option (Entry HashData)} {hash : HashData}

theorem hupdate_ne_nil (hash : HashData) (field value : Bytes) : hash.hupdate field value ≠ [] := by
  cases hash with
  | nil => exact List.cons_ne_nil _ _
  | cons pair hash =>
      rw [HashData.hupdate]
      split <;> exact List.cons_ne_nil _ _

theorem setAll_ne_nil (hash : HashData) (pair : Bytes × Bytes) (pairs : List (Bytes × Bytes)) :
    hash.setAll (pair :: pairs) ≠ [] := by
  induction pairs generalizing hash pair with
  | nil => exact hupdate_ne_nil hash pair.1 pair.2
  | cons next pairs ih => exact ih (hash.hupdate pair.1 pair.2) next

/-- A hash with fields is what its key holds. -/
theorem standsFor_some {data : HashData} (unique : data.Unique) (some : data ≠ []) :
    StandsFor (.some ⟨.hash, data, 0⟩) data.fields := ⟨data, holds_some some, unique, rfl⟩

theorem count_fields (unique : hash.Unique) : hash.fields.count = hash.length := card_fields unique

theorem mem_fields (hash : HashData) (field : Bytes) :
    field ∈ hash.fields ↔ (hash.hget field).isSome := by
  rw [← lookup_fields, Finmap.lookup_isSome]

/-- A write of a hash opens the value that the key holds. -/
theorem doHwrite_opened {cmd : HashWrite} (works : env.Works)
    (forever : env.table.isExpired 0 = false) (holds : Holds .hash [] entry hash)
    {arg val val2 : Bytes} {argi : Nat} (first : msg.getArgStr 2 = some arg)
    (second : msg.getArgStr 3 = some val) (part : secondPart cmd msg = some (val2, argi))
    (sized : (if cmd = .happend then sizedFrom msg argi else sizedPairs msg msg.argc argi) = true) :
    ∃ run e, Opened .hash hash run e ∧
      doHwrite env cmd msg entry = cmd.loop env msg run arg val val2 argi e := by
  rw [doHwrite]
  simp only [first, second, part, getKeyWrite_holds works.table forever holds]
  rcases holds with ⟨rfl, rfl⟩ | ⟨rfl, -⟩
  · refine ⟨_, _, opened_new (by decide) [], ?_⟩
    simp only [sized, not_true_eq_false, if_false, works.table.resized, if_true]
  · refine ⟨_, _, opened_old .hash hash, ?_⟩
    simp only [works.table.valued, if_true]

/-- The words that make up one value are one value. -/
theorem secondPart_spells {value : Bytes} {values : List Bytes}
    (spells : SpellsFrom msg 3 (value :: values)) :
    ∃ val2 argi, secondPart .happend msg = some (val2, argi) ∧ 0 < argi ∧
      ∃ rest, SpellsFrom msg argi rest ∧ val2 ++ rest.flatten = values.flatten := by
  have argc := spells.argc
  cases values with
  | nil =>
      refine ⟨[], 4, ?_, by decide, [], spells.tail, rfl⟩
      rw [secondPart, if_neg]
      simp only [List.length_cons, List.length_nil] at argc
      omega
  | cons val2 rest =>
      refine ⟨val2, 5, ?_, by decide, rest, spells.tail.tail, List.flatten_cons.symm⟩
      have isArg : msg.getArgStr 4 = some val2 := spells.tail.head
      rw [secondPart, if_pos, isArg]
      · rfl
      · simp only [List.length_cons] at argc
        exact ⟨rfl, by omega⟩

/-- HSET and HMSET set all pairs. -/
theorem hashStep_hset {call : HashCall} (valid : call.Valid) (holds : Holds .hash [] entry hash)
    {cmd : HashWrite} (isCmd : cmd = .hset ∨ cmd = .hmset)
    {pair : Bytes × Bytes} {pairs : List (Bytes × Bytes)}
    (words : call.op.words = pairWords (pair :: pairs))
    (runs : call.op.run call.env call.msg entry = doHwrite call.env cmd call.msg entry) :
    let data := hash.setAll (pair :: pairs)
    hashStep entry call =
      (if cmd = .hset then sendInt (data.length - hash.length : Int) else line "+OK",
        some ⟨.hash, data, 0⟩) := by
  intro data
  have spells := valid.spells
  rw [words] at spells
  obtain ⟨first, second, rest⟩ := spells.pair
  have part : secondPart cmd call.msg = some ([], 4) := by
    rw [secondPart, if_neg]
    rcases isCmd with rfl | rfl <;> exact fun appends => absurd appends.1 (by decide)
  have sized : (if cmd = .happend then sizedFrom call.msg 4
      else sizedPairs call.msg call.msg.argc 4) = true := by
    rw [if_neg (by rcases isCmd with rfl | rfl <;> decide)]
    exact sizedPairs_spells _ rest
  obtain ⟨run, e, opened, opens⟩ :=
    doHwrite_opened valid.works valid.forever holds first second part sized
  have enough : pairs.length < call.msg.argc := by
    rw [rest.argc, length_pairWords]
    omega
  have loop : cmd.loop call.env call.msg run pair.1 pair.2 [] 4 e =
      hsetLoop call.env call.msg run cmd call.msg.argc 4 pair.1 pair.2 0 e := by
    rcases isCmd with rfl | rfl <;> rfl
  rw [hashStep, runs, opens, loop, hsetLoop_eq valid.works rest enough, opened.data]
  simp only
  rw [opened.reply, opened.settles]
  · rcases isCmd with rfl | rfl
    · rw [if_pos rfl, if_pos rfl, if_pos rfl, zero_add]
      rfl
    · rfl
  · rcases isCmd with rfl | rfl <;> decide

/-- HSETNX sets a field that is not there. -/
theorem hashStep_hsetnx {call : HashCall} (valid : call.Valid) (holds : Holds .hash [] entry hash)
    {field value : Bytes} (isOp : call.op = .hsetnx field value) :
    hashStep entry call =
      if (hash.hget field).isSome then (sendInt 0, some ⟨.hash, hash, 0⟩)
      else (sendInt 1, some ⟨.hash, hash.hupdate field value, 0⟩) := by
  have spells := valid.spells
  rw [isOp] at spells
  have part : secondPart .hsetnx call.msg = some ([], 4) := if_neg (by simp)
  have rest : SpellsFrom call.msg 4 (pairWords []) := spells.tail.tail
  obtain ⟨run, e, opened, opens⟩ := doHwrite_opened valid.works valid.forever holds
    spells.head spells.tail.head part (sizedPairs_spells call.msg.argc rest)
  have runs : call.op.run call.env call.msg entry = doHwrite call.env .hsetnx call.msg entry := by
    rw [isOp]
    rfl
  rw [hashStep, runs, opens, HashWrite.loop, hsetnxField, if_pos (valid.works.room 4), opened.data]
  simp only [HashData.hsetnx]
  split
  · simp only [if_true]
    exact Prod.ext (opened.reply .execSendZero hash run.ival call.arg0)
      (opened.settles .execSendZero hash run.ival (by decide))
  · simp only [reduceCtorEq, if_false]
    exact Prod.ext (opened.reply .execSendOne _ run.ival call.arg0)
      (opened.settles .execSendOne _ run.ival (by decide))

/-- HAPPEND puts all values behind the field. -/
theorem hashStep_happend {call : HashCall} (valid : call.Valid) (holds : Holds .hash [] entry hash)
    {field value : Bytes} {values : List Bytes} (isOp : call.op = .happend field value values) :
    hashStep entry call =
      (sendInt (if (hash.hget field).isSome then 0 else 1),
        some ⟨.hash, hash.hupdate field ((hash.hget field).getD [] ++ value ++ values.flatten),
          0⟩) := by
  have spells := valid.spells
  rw [isOp] at spells
  obtain ⟨val2, argi, part, pos, rest, others, joined⟩ := secondPart_spells spells.tail
  obtain ⟨run, e, opened, opens⟩ := doHwrite_opened valid.works valid.forever holds
    spells.head spells.tail.head part others.all
  have runs : call.op.run call.env call.msg entry = doHwrite call.env .happend call.msg entry := by
    rw [isOp]
    rfl
  have enough : rest.length < call.msg.argc := by
    have argc := others.argc
    omega
  rw [hashStep, runs, opens, HashWrite.loop, happendLoop_eq valid.works others enough, opened.data]
  simp only [Bool.false_or]
  rw [List.append_assoc _ val2, joined]
  cases present : hash.hget field with
  | none =>
      exact Prod.ext (opened.reply .execSendOne _ run.ival call.arg0)
        (opened.settles .execSendOne _ run.ival (by decide))
  | some old =>
      exact Prod.ext (opened.reply .execSendZero _ run.ival call.arg0)
        (opened.settles .execSendZero _ run.ival (by decide))

/-- HDEL removes all fields, and the key with the last of them. -/
theorem hashStep_hdel {call : HashCall} (valid : call.Valid) (holds : Holds .hash [] entry hash)
    (unique : hash.Unique) {field : Bytes} {fields : List Bytes}
    (isOp : call.op = .hdel field fields) :
    let data := hash.delAll (field :: fields)
    ∃ after, hashStep entry call = (sendInt (hash.length - data.length : Int), after) ∧
      Holds .hash [] after data := by
  intro data
  have spells := valid.spells
  rw [isOp] at spells
  have isArg : call.msg.getArgStr 2 = some field := spells.head
  have runs : call.op.run call.env call.msg entry = execHdel call.env call.msg entry := by
    rw [isOp]
    rfl
  have left : call.msg.argc - 3 = fields.length := by
    have argc := spells.argc
    simp only [HashOp.words, List.length_cons] at argc
    omega
  rw [hashStep, runs, execHdel]
  simp only [isArg, getKeyWrite_holds valid.works.table valid.forever holds]
  rcases holds with ⟨rfl, rfl⟩ | ⟨rfl, some⟩
  · refine ⟨none, Prod.ext ?_ rfl, .inl ⟨rfl, delAll_nil _⟩⟩
    rw [show data = [] from delAll_nil _]
    exact sendInt_zero
  · have nonempty := List.length_pos_iff.mpr some
    simp only [valid.works.table.valued, if_true, left, hdelLoop_eq unique spells.tail,
      not_true_eq_false, if_false, zero_add, HashData.hcount]
    by_cases gone : (hash.delAll (field :: fields)).length = 0
    · rw [if_pos ⟨by omega, gone⟩, if_pos valid.works.tombstoned]
      refine ⟨none, Prod.ext rfl rfl, .inl ⟨rfl, List.eq_nil_of_length_eq_zero gone⟩⟩
    · rw [if_neg fun both => gone both.2]
      have opened := opened_old .hash hash
      refine ⟨_, Prod.ext (opened.reply .execSendInt data (hash.length - data.length) call.arg0)
        (opened.settles .execSendInt data (hash.length - data.length) (by decide)), holds_some ?_⟩
      exact fun empty => gone (congrArg List.length empty)

/-- The reads meet what the key holds. -/
theorem hashValue_holds {env : KeyEnv} (forever : env.isExpired 0 = false)
    (holds : Holds .hash [] entry hash) :
    ∃ value, hashValue env entry = some value ∧ value.getD [] = hash := by
  rw [hashValue, holds.live forever]
  rcases holds with ⟨rfl, rfl⟩ | ⟨rfl, -⟩
  · exact ⟨none, rfl, rfl⟩
  · exact ⟨some hash, rfl, rfl⟩

/-- A read of one field keeps its key. -/
theorem settle_doHread {env : KeyEnv} (works : env.Works) (forever : env.isExpired 0 = false)
    (holds : Holds .hash [] entry hash) (cmd : HashRead) (msg : CommandMsg) :
    (doHread env cmd msg entry).settle .hash = entry := by
  rw [doHread]
  simp only [getKeyRead_holds works forever holds]
  cases if cmd = .hlen then some [] else msg.getArgStr 2 with
  | none => rfl
  | some arg =>
      rcases holds with ⟨rfl, -⟩ | ⟨rfl, -⟩
      · rfl
      · simp only [works.valued, works.validated, if_true]
        rfl

/-- HMGET replies the values of the fields, or nothing on a missing key. -/
theorem hashStep_hmget {call : HashCall} (valid : call.Valid) (holds : Holds .hash [] entry hash)
    {field : Bytes} {fields : List Bytes} (isOp : call.op = .hmget field fields) :
    hashStep entry call =
      (sendItems (if hash.length = 0 then [] else (field :: fields).map hash.hget), entry) := by
  have spells := valid.spells
  rw [isOp] at spells
  have isArg : call.msg.getArgStr 2 = some field := spells.head
  have runs : call.op.run call.env call.msg entry =
      doHmultiscan call.env.table .hmget call.msg entry := by
    rw [isOp]
    rfl
  have left : call.msg.argc - 3 = fields.length := by
    have argc := spells.argc
    simp only [HashOp.words, List.length_cons] at argc
    omega
  have works := valid.works.table
  rw [hashStep, runs, doHmultiscan]
  simp only [if_true, isArg, getKeyRead_holds works valid.forever holds]
  rcases holds with ⟨rfl, rfl⟩ | ⟨rfl, some⟩
  · refine Prod.ext (sendItems_reply works _ _ _) ?_
    rw [Fetched.sendItems, if_pos works.validated]
    rfl
  · have nonempty : ¬hash.length = 0 := fun empty => some (List.eq_nil_of_length_eq_zero empty)
    simp only [works.valued, if_true, left, hmgetLoop_spells hash field spells.tail,
      if_neg nonempty]
    refine Prod.ext (sendItems_reply works _ _ _) ?_
    rw [Fetched.sendItems, if_pos works.validated]
    rfl

end Steps

section Runs

variable {entry : Option (Entry HashData)} {map : FieldMap} {call : HashCall}

/-- A read of one field replies what the map says. -/
theorem hashStep_read (valid : call.Valid) (related : StandsFor entry map) (cmd : HashRead)
    {arg : Bytes} (isArg : (if cmd = .hlen then some [] else call.msg.getArgStr 2) = some arg)
    (runs : call.op.run call.env call.msg entry = doHread call.env.table cmd call.msg entry)
    (same : call.op.next map = map) :
    (∀ hash : HashData, hash.Unique → hash.fields = map → cmd.answer hash arg = call.op.answer map) →
      (hashStep entry call).1 = call.op.answer map ∧
        StandsFor (hashStep entry call).2 (call.op.next map) := by
  intro answers
  obtain ⟨hash, holds, unique, fields⟩ := related
  obtain ⟨value, isValue, isHash⟩ := hashValue_holds valid.forever holds
  have reply := doHread_reply valid.works.table isValue cmd isArg call.arg0
  rw [isHash, answers hash unique fields] at reply
  rw [hashStep, runs, same]
  refine ⟨reply, ?_⟩
  rw [settle_doHread valid.works.table valid.forever holds]
  exact ⟨hash, holds, unique, fields⟩

/-- Every command replies what the map says, and leaves a key that stands for the next map. -/
theorem hashStep_spec (valid : call.Valid) (related : StandsFor entry map) :
    (hashStep entry call).1 = call.op.answer map ∧
      StandsFor (hashStep entry call).2 (call.op.next map) := by
  have word : ∀ {field : Bytes} {words : List Bytes}, call.op.words = field :: words →
      call.msg.getArgStr 2 = some field := fun isWord =>
    (isWord ▸ valid.spells : SpellsFrom call.msg 2 (_ :: _)).head
  obtain ⟨hash, holds, unique, rfl⟩ := id related
  cases isOp : call.op with
  | hset pair pairs =>
      have step := hashStep_hset valid holds (.inl rfl) (by rw [isOp]; rfl) (by rw [isOp]; rfl)
      obtain ⟨once, fields⟩ := setAll_spec unique (pair :: pairs)
      rw [step, if_pos rfl, HashOp.answer, HashOp.next, FieldMap.setAll, ← fields, count_fields once,
        count_fields unique]
      exact ⟨rfl, standsFor_some once (setAll_ne_nil hash pair pairs)⟩
  | hmset pair pairs =>
      have step := hashStep_hset valid holds (.inr rfl) (by rw [isOp]; rfl) (by rw [isOp]; rfl)
      obtain ⟨once, fields⟩ := setAll_spec unique (pair :: pairs)
      rw [step, if_neg (by decide), HashOp.answer, HashOp.next, FieldMap.setAll, ← fields]
      exact ⟨rfl, standsFor_some once (setAll_ne_nil hash pair pairs)⟩
  | hsetnx field value =>
      rw [hashStep_hsetnx valid holds isOp, HashOp.answer, HashOp.next]
      by_cases present : field ∈ hash.fields
      · have some := (mem_fields hash field).mp present
        have nonempty : hash ≠ [] := by
          rintro rfl
          cases some
        rw [if_pos some, if_pos present, if_pos present]
        exact ⟨rfl, standsFor_some unique nonempty⟩
      · rw [if_neg fun some => present ((mem_fields hash field).mpr some), if_neg present,
          if_neg present, ← fields_hupdate]
        exact ⟨rfl, standsFor_some (unique_hupdate unique field value) (hupdate_ne_nil _ _ _)⟩
  | happend field value values =>
      rw [hashStep_happend valid holds isOp, HashOp.answer, HashOp.next, lookup_fields,
        ← fields_hupdate]
      refine ⟨?_, standsFor_some (unique_hupdate unique field _) (hupdate_ne_nil _ _ _)⟩
      simp only [mem_fields]
  | hdel field fields =>
      obtain ⟨after, step, left⟩ := hashStep_hdel valid holds unique isOp
      obtain ⟨once, gone⟩ := delAll_spec unique (field :: fields)
      rw [step, HashOp.answer, HashOp.next, FieldMap.delAll, ← gone, count_fields once,
        count_fields unique]
      exact ⟨rfl, _, left, once, rfl⟩
  | hget field =>
      have read := hashStep_read valid related .hget (word (by rw [isOp]; rfl)) (by rw [isOp]; rfl)
        (by rw [isOp]; rfl)
      rw [isOp] at read
      refine read fun hash _ same => ?_
      rw [HashOp.answer, ← same, lookup_fields]
      rfl
  | hexists field =>
      have read := hashStep_read valid related .hexists (word (by rw [isOp]; rfl))
        (by rw [isOp]; rfl) (by rw [isOp]; rfl)
      rw [isOp] at read
      refine read fun hash _ same => ?_
      simp only [HashOp.answer, ← same, mem_fields]
      rfl
  | hstrlen field =>
      have read := hashStep_read valid related .hstrlen (word (by rw [isOp]; rfl))
        (by rw [isOp]; rfl) (by rw [isOp]; rfl)
      rw [isOp] at read
      refine read fun hash _ same => ?_
      rw [HashOp.answer, ← same, lookup_fields]
      rfl
  | hmget field fields =>
      have lookups : hash.fields.lookup = hash.hget := funext (lookup_fields hash)
      rw [hashStep_hmget valid holds isOp, HashOp.answer, count_fields unique, lookups]
      exact ⟨rfl, related⟩
  | hlen =>
      have read := hashStep_read valid related .hlen rfl (by rw [isOp]; rfl) (by rw [isOp]; rfl)
      rw [isOp] at read
      refine read fun hash once same => ?_
      rw [HashOp.answer, ← same, count_fields once]
      rfl

/-- The words of an HSET. -/
def hsetWords : CommandMsg := ⟨commandWords ["hset", "h", "f", "v"], by simp [commandWords]⟩

/-- The words of an HDEL. -/
def hdelWords : CommandMsg := ⟨commandWords ["hdel", "h", "f"], by simp [commandWords]⟩

/-- A field is set, and leaves with its key. -/
def hashCalls : List HashCall :=
  [⟨.hset (text "f", text "v") [], {}, hsetWords, []⟩, ⟨.hdel (text "f") [], {}, hdelWords, []⟩]

end Runs

end Raids.Key
