import Raids.Construction.Key.ListEdit
import Raids.Proof.Key.Add
import Raids.Proof.Key.ListRange
import Raids.Proof.Msg.Numeral

namespace Raids.Key

/-- The library acts on the given position. A scan back starts in front of its position, and an
insertion takes the first pivot. -/
structure ListLib.Works (lib : ListLib) : Prop where
  scanFwd : ∀ data arg pos i, lib.scanFwd data arg pos = some i ↔
    pos ≤ i ∧ data[i]? = some arg ∧ ∀ j, pos ≤ j → j < i → data[j]? ≠ some arg
  scanRev : ∀ data arg pos i, lib.scanRev data arg pos = some i ↔
    i < pos ∧ data[i]? = some arg ∧ ∀ j, i < j → j < pos → data[j]? ≠ some arg
  lrem : ∀ data pos, lib.lrem data pos = data.eraseIdx pos
  linsert : ∀ data piv value after,
    lib.linsert data piv value after = insertNext piv value after data

section Remove

variable {lib : ListLib} {arg : Bytes}

theorem removeFirst_zero (data : ListData) : removeFirst arg 0 data = data := by
  rw [removeFirst]

/-- A value that is not there is not removed. -/
theorem removeFirst_of_not_mem (n : Nat) {data : ListData} (missing : arg ∉ data) :
    removeFirst arg n data = data := by
  induction data with
  | nil => cases n <;> rfl
  | cons x data ih =>
      cases n with
      | zero => exact removeFirst_zero _
      | succ n =>
          have other : ¬x = arg := fun same => missing (same ▸ List.mem_cons_self)
          rw [removeFirst, if_neg other,
            ih (fun member => missing (List.mem_cons_of_mem _ member))]

theorem removeFirst_append (n : Nat) {front : ListData} (missing : arg ∉ front)
    (data : ListData) : removeFirst arg n (front ++ data) = front ++ removeFirst arg n data := by
  induction front with
  | nil => rfl
  | cons x front ih =>
      cases n with
      | zero => rw [removeFirst_zero, removeFirst_zero]
      | succ n =>
          have other : ¬x = arg := fun same => missing (same ▸ List.mem_cons_self)
          rw [List.cons_append, removeFirst, if_neg other,
            ih (fun member => missing (List.mem_cons_of_mem _ member)), List.cons_append]

theorem filter_of_not_mem {data : ListData} (missing : arg ∉ data) :
    data.filter (· ≠ arg) = data := by
  refine List.filter_eq_self.mpr fun x member => ?_
  simpa using fun same : x = arg => missing (same ▸ member)

/-- The elements that a count leaves of those in the order of a scan; a count that is not positive
has no end. -/
def leftBy (arg : Bytes) (count : Int) (todo : ListData) : ListData :=
  if 0 < count then removeFirst arg count.toNat todo else todo.filter (· ≠ arg)

theorem leftBy_of_not_mem (count : Int) {todo : ListData} (missing : arg ∉ todo) :
    leftBy arg count todo = todo := by
  rw [leftBy, removeFirst_of_not_mem _ missing, filter_of_not_mem missing, ite_self]

theorem length_removeFirst_le (arg : Bytes) (n : Nat) (data : ListData) :
    (removeFirst arg n data).length ≤ data.length := by
  induction data generalizing n with
  | nil => cases n <;> simp [removeFirst]
  | cons x data ih =>
      cases n with
      | zero => rw [removeFirst_zero]
      | succ n =>
          rw [removeFirst]
          split
          · exact (ih n).trans (Nat.le_succ _)
          · exact Nat.succ_le_succ (ih (n + 1))

theorem length_leftBy_le (arg : Bytes) (count : Int) (todo : ListData) :
    (leftBy arg count todo).length ≤ todo.length := by
  rw [leftBy]
  split
  · exact length_removeFirst_le arg _ todo
  · exact List.length_filter_le _ todo

/-- The last element of a count. -/
theorem leftBy_one {front : ListData} (missing : arg ∉ front) (data : ListData) :
    leftBy arg 1 (front ++ arg :: data) = front ++ data := by
  rw [leftBy, if_pos (by decide), removeFirst_append _ missing]
  rw [Int.toNat_one, removeFirst, if_pos rfl, removeFirst_zero]

/-- An element of a longer count. -/
theorem leftBy_found {count : Int} {front : ListData} (missing : arg ∉ front) (data : ListData)
    (more : count ≠ 1) :
    leftBy arg count (front ++ arg :: data) = front ++ leftBy arg (count - 1) data := by
  rw [leftBy, leftBy]
  rcases Int.lt_or_le 0 count with positive | all
  · rw [if_pos positive, if_pos (by omega), removeFirst_append _ missing,
      show count.toNat = (count - 1).toNat + 1 by omega, removeFirst, if_pos rfl]
  · rw [if_neg (by omega), if_neg (by omega), List.filter_append, List.filter_cons]
    rw [filter_of_not_mem missing, if_neg (by simp)]

/-- A scan sees the stored list as the elements it has passed and those that are left, in its own
order. -/
structure Scans (lib : ListLib) (arg : Bytes) (scan : ListData → Bytes → Nat → Option Nat)
    (view : ListData → ListData → ListData) (place : ListData → ListData → Nat) : Prop where
  missing : ∀ done todo, arg ∉ todo → scan (view done todo) arg (place done todo) = none
  found : ∀ done front todo, arg ∉ front →
    scan (view done (front ++ arg :: todo)) arg (place done (front ++ arg :: todo)) =
        some (place (done ++ front) todo) ∧
      lib.lrem (view done (front ++ arg :: todo)) (place (done ++ front) todo) =
        view (done ++ front) todo
  moved : ∀ done front todo, view (done ++ front) todo = view done (front ++ todo)

theorem exists_split {todo : ListData} (member : arg ∈ todo) :
    ∃ front rest, todo = front ++ arg :: rest ∧ arg ∉ front := by
  obtain ⟨front, rest, split, missing⟩ := List.eq_append_cons_of_mem member
  exact ⟨front, rest, split, missing⟩

/-- The loop removes what its count asks for, and counts what it removed. -/
theorem lremLoop_eq {scan : ListData → Bytes → Nat → Option Nat}
    {view : ListData → ListData → ListData} {place : ListData → ListData → Nat}
    (scans : Scans lib arg scan view place) {step : Int} (unit : step = 1 ∨ step = -1)
    (rounds : Nat) (done todo : ListData) (ival : Int) (cnt : Nat)
    (enough : todo.length < rounds) :
    lremLoop lib scan step arg rounds (view done todo) (place done todo) ival cnt =
      some (view done (leftBy arg (-(step * ival)) todo),
        cnt + (todo.length - (leftBy arg (-(step * ival)) todo).length)) := by
  induction rounds generalizing done todo ival cnt with
  | zero => omega
  | succ rounds ih =>
      rw [lremLoop]
      rcases Decidable.em (arg ∈ todo) with member | missing
      · obtain ⟨front, rest, rfl, missing⟩ := exists_split member
        obtain ⟨found, removed⟩ := scans.found done front rest missing
        rw [found]
        simp only [removed]
        rw [List.length_append, List.length_cons] at enough
        have last : ival + step = 0 ↔ -(step * ival) = 1 := by
          rcases unit with rfl | rfl <;> omega
        split
        · rename_i ends
          rw [last.mp ends, leftBy_one missing, scans.moved]
          simp only [List.length_append, List.length_cons, Option.some.injEq, Prod.mk.injEq,
            true_and]
          omega
        · rename_i goes
          have next : -(step * (ival + step)) = -(step * ival) - 1 := by
            rcases unit with rfl | rfl <;> omega
          have shrinks := length_leftBy_le arg (-(step * ival) - 1) rest
          rw [ih _ _ _ _ (by omega), next, leftBy_found missing rest (fun one => goes (last.mpr one)),
            scans.moved]
          simp only [List.length_append, List.length_cons, Option.some.injEq, Prod.mk.injEq,
            true_and]
          omega
      · rw [scans.missing done todo missing, leftBy_of_not_mem _ missing]
        simp

/-- An index behind a front finds the element of the rest. -/
theorem mem_of_getElem?_append {front rest behind : ListData} {i : Nat}
    (first : front.length ≤ i) (last : i < front.length + rest.length)
    (here : (front ++ rest ++ behind)[i]? = some arg) : arg ∈ rest := by
  rw [List.getElem?_append_left (by rw [List.length_append]; omega),
    List.getElem?_append_right first] at here
  exact List.mem_of_getElem? here

theorem scans_fwd (works : lib.Works) (arg : Bytes) :
    Scans lib arg lib.scanFwd (fun done todo => done ++ todo) (fun done _ => done.length) := by
  refine ⟨fun done todo missing => ?_, fun done front todo missing => ⟨?_, ?_⟩,
    fun done front todo => List.append_assoc _ _ _⟩
  · cases scanned : lib.scanFwd (done ++ todo) arg done.length with
    | none => rfl
    | some i =>
        obtain ⟨first, here, -⟩ := (works.scanFwd _ _ _ _).mp scanned
        have inside := (List.getElem?_eq_some_iff.mp here).1
        rw [List.length_append] at inside
        rw [← List.append_nil (done ++ todo)] at here
        exact absurd (mem_of_getElem?_append first inside here) missing
  · refine (works.scanFwd _ _ _ _).mpr ⟨by simp, by simp, fun j first before here => ?_⟩
    rw [List.length_append] at before
    rw [← List.append_assoc] at here
    exact missing (mem_of_getElem?_append first before here)
  · rw [works.lrem, ← List.append_assoc, List.eraseIdx_append_of_length_le (Nat.le_refl _),
      Nat.sub_self, List.eraseIdx_zero, List.tail_cons]

theorem scans_rev (works : lib.Works) (arg : Bytes) :
    Scans lib arg lib.scanRev (fun done todo => todo.reverse ++ done.reverse)
      (fun _ todo => todo.length) := by
  refine ⟨fun done todo missing => ?_, fun done front todo missing => ?_,
    fun done front todo => by simp⟩
  · cases scanned : lib.scanRev (todo.reverse ++ done.reverse) arg todo.length with
    | none => rfl
    | some i =>
        obtain ⟨before, here, -⟩ := (works.scanRev _ _ _ _).mp scanned
        have inside : arg ∈ todo.reverse :=
          @mem_of_getElem?_append arg [] _ _ i (Nat.zero_le i) (by simpa using before) here
        exact absurd (List.mem_reverse.mp inside) missing
  · have split : (front ++ arg :: todo).reverse ++ done.reverse =
        todo.reverse ++ arg :: (front.reverse ++ done.reverse) := by
      simp
    constructor
    · rw [split]
      refine (works.scanRev _ _ _ _).mpr ⟨by simp; omega, by simp, fun j first before here => ?_⟩
      rw [List.length_append, List.length_cons] at before
      rw [List.append_cons, ← List.append_assoc] at here
      have inside : arg ∈ front.reverse := mem_of_getElem?_append (by simp; omega) (by simp; omega) here
      exact missing (List.mem_reverse.mp inside)
    · rw [split, works.lrem, List.eraseIdx_append_of_length_le (by simp)]
      simp

/-- A removal ends with the elements that its count leaves, and counts the others. -/
theorem lremData_eq (works : lib.Works) (data : ListData) (ival : Int) (arg : Bytes) :
    lremData lib data ival arg = some (removeCount arg ival data,
      data.length - (removeCount arg ival data).length) := by
  rw [lremData]
  split
  · rename_i negative
    have run := lremLoop_eq (scans_rev works arg) (.inl rfl) (data.length + 1) [] data.reverse
      ival 0 (by simp)
    simp only [List.reverse_reverse, List.reverse_nil, List.append_nil, List.length_reverse,
      Nat.zero_add] at run
    rw [run, removeCount, if_neg (by omega), if_pos negative, leftBy, if_pos (by omega),
      show (-(1 * ival)).toNat = ival.natAbs by omega, List.length_reverse]
  · rename_i positive
    have run := lremLoop_eq (scans_fwd works arg) (.inr rfl) (data.length + 1) [] data ival 0
      (by simp)
    simp only [List.nil_append, List.length_nil, Nat.zero_add] at run
    rw [run, leftBy, removeCount, show -(-1 * ival) = ival by omega, if_neg positive]

end Remove

section Commands

variable {lib : ListLib} {env : KeyEnv} {msg : CommandMsg} {entry : Option (Entry ListData)}
  {n : Int} {piv value : Bytes} {after : Bool}

/-- A string argument with these bytes. -/
def IsArg (msg : CommandMsg) (n : Nat) (value : Bytes) : Prop :=
  ∃ type, type ≠ .errorString ∧ msg.args[n]? = some (.string type value.length value)

/-- An argument is accepted when it has a byte. -/
theorem IsArg.getArgStr {i : Nat} (isArg : IsArg msg i value) :
    msg.getArgStr i = if value = [] then none else some value := by
  obtain ⟨type, ok, here⟩ := isArg
  rw [CommandMsg.getArgStr, if_neg (by omega), Int.toNat_natCast, here]
  cases value with
  | nil => cases type <;> rfl
  | cons b rest =>
      rw [if_neg (by simp)]
      cases type with
      | errorString => exact absurd rfl ok
      | _ => simp

/-- The list of a key; a missing key has no elements. -/
def listOf (entry : Option (Entry ListData)) : ListData := (entry.map (·.data)).getD []

/-- A removal leaves the elements that its count leaves, replies the number of the others, and
changes nothing else of the key. -/
def LremRemoves (lib : ListLib) (env : KeyEnv) (msg : CommandMsg)
    (entry : Option (Entry ListData)) (arg0 : Bytes) (n : Int) (value : Bytes) : Prop :=
  ∃ run, execLrem lib env msg entry = some run ∧
    run.settle .list =
      (live env entry).map (fun e => { e with data := removeCount value n e.data }) ∧
    run.reply arg0 = sendInt ((listOf (live env entry)).length -
      (removeCount value n (listOf (live env entry))).length : Nat)

/-- An insertion puts the value next to the first pivot and replies the new length, replies minus
one and changes nothing when there is no pivot, and replies zero for a missing key. -/
def LinsertInserts (lib : ListLib) (env : KeyEnv) (msg : CommandMsg)
    (entry : Option (Entry ListData)) (arg0 : Bytes) (piv value : Bytes) (after : Bool) : Prop :=
  (execLinsert lib env msg entry).settle .list =
      (live env entry).map
        (fun e => { e with data := (insertNext piv value after e.data).getD e.data }) ∧
    (execLinsert lib env msg entry).reply arg0 = sendInt ((live env entry).elim 0 fun e =>
      (insertNext piv value after e.data).elim (-1) fun data => data.length)

theorem removeCount_nil (value : Bytes) (n : Int) : removeCount value n [] = [] := by
  have none' (count : Nat) : removeFirst value count [] = [] :=
    removeFirst_of_not_mem count List.not_mem_nil
  rw [removeCount, List.reverse_nil, none', none']
  simp

/-- A refused argument is an error for every list. -/
theorem reply_errBadArgs (arg0 : Bytes) (n : Int) :
    (unfetched .errBadArgs entry).reply arg0 ≠ sendInt n := by
  have error := sendStatus_of_isError (show ExecStatus.errBadArgs.isError by decide) arg0 0
  rw [KeyRun.reply]
  simp only [unfetched, List.nil_append, error]
  exact sendErrString_ne_sendInt arg0 .errBadArgs n

/-- A removal meets its count unless the value is empty. -/
theorem lremRemoves_iff (libWorks : lib.Works) (works : env.Works) (arg0 : Bytes)
    (count : msg.getArgInt 2 = some n) (isValue : IsArg msg 3 value)
    (list : ∀ e ∈ live env entry, e.type = .list) :
    LremRemoves lib env msg entry arg0 n value ↔ value ≠ [] := by
  rw [LremRemoves, execLrem, count, isValue.getArgStr]
  constructor
  · rintro ⟨run, refused, -, reply⟩ rfl
    rw [if_pos rfl] at refused
    obtain rfl := Option.some.inj refused
    exact reply_errBadArgs arg0 _ reply
  · intro bytes
    rw [if_neg bytes]
    simp only [getKeyWrite_works works]
    cases found : live env entry with
    | none =>
        refine ⟨_, rfl, rfl, ?_⟩
        simp only [listOf, Option.map_none, Option.getD_none, removeCount_nil]
        exact sendInt_zero
    | some e =>
        simp only [if_pos (list e found), if_pos works.valued, lremData_eq libWorks]
        exact ⟨_, rfl, KeyRun.settle_of_not_isNew rfl _, rfl⟩

/-- A full list that grows takes the value. -/
theorem linsertLoop_grows (run : KeyRun ListData) (e : Entry ListData) {grow : List Bool}
    (grows : ∀ grown ∈ grow, grown = true) :
    linsertLoop lib piv value after run e grow = linsertLoop lib piv value after run e [] := by
  induction grow with
  | nil => rfl
  | cons grown grow ih =>
      rw [grows grown List.mem_cons_self, linsertLoop]
      exact ih fun other member => grows other (List.mem_cons_of_mem _ member)

/-- An insertion on a missing key does not reply zero. -/
theorem not_linsertInserts_of_missing (libWorks : lib.Works) (works : env.Works) (arg0 : Bytes)
    (side : insertSide msg = some after) (pivot : msg.getArgStr (3 : Nat) = some piv)
    (isValue : msg.getArgStr (4 : Nat) = some value) (missing : live env entry = none) :
    ¬LinsertInserts lib env msg entry arg0 piv value after := by
  intro ⟨_, reply⟩
  rw [missing, execLinsert, side, pivot, isValue] at reply
  simp only [getKeyWrite_works works, missing, Option.elim_none] at reply
  split at reply
  · have error := sendStatus_of_isError (show ExecStatus.errBadArgs.isError by decide) arg0 0
    exact sendErrString_ne_sendInt arg0 .errBadArgs 0 (error.symm.trans reply)
  · rw [if_pos works.resized, linsertLoop_grows _ _ works.grows, linsertLoop,
      libWorks.linsert] at reply
    have numbers : sendInt (-1) = sendInt 0 := reply
    exact absurd (sendInt_injective numbers) (by decide)

/-- An insertion meets its pivot when the key has a list and no argument is empty. -/
theorem linsertInserts_iff (libWorks : lib.Works) (works : env.Works) (arg0 : Bytes)
    (side : insertSide msg = some after) (isPivot : IsArg msg 3 piv) (isValue : IsArg msg 4 value)
    (list : ∀ e ∈ live env entry, e.type = .list) :
    LinsertInserts lib env msg entry arg0 piv value after ↔
      (live env entry).isSome ∧ piv ≠ [] ∧ value ≠ [] := by
  have pivot := isPivot.getArgStr
  have inserted := isValue.getArgStr
  constructor
  · intro inserts
    have refused (none' : msg.getArgStr (3 : Nat) = none ∨ msg.getArgStr (4 : Nat) = none) :
        False := by
      obtain ⟨_, reply⟩ := inserts
      have stops : execLinsert lib env msg entry = unfetched .errBadArgs entry := by
        rw [execLinsert, side]
        rcases none' with first | last
        · rw [first]
        · rw [last]
          cases msg.getArgStr (3 : Nat) <;> rfl
      rw [stops] at reply
      exact reply_errBadArgs arg0 _ reply
    have pivBytes : piv ≠ [] := fun empty => refused (.inl (by rw [pivot, if_pos empty]))
    have valueBytes : value ≠ [] := fun empty => refused (.inr (by rw [inserted, if_pos empty]))
    rw [if_neg pivBytes] at pivot
    rw [if_neg valueBytes] at inserted
    refine ⟨?_, pivBytes, valueBytes⟩
    cases found : live env entry with
    | none =>
        exact absurd inserts
          (not_linsertInserts_of_missing libWorks works arg0 side pivot inserted found)
    | some e => rfl
  · rintro ⟨present, pivBytes, valueBytes⟩
    obtain ⟨e, found⟩ := Option.isSome_iff_exists.mp present
    rw [if_neg pivBytes] at pivot
    rw [if_neg valueBytes] at inserted
    rw [LinsertInserts, execLinsert, side, pivot, inserted]
    simp only [getKeyWrite_works works, found, if_pos (list e found), if_pos works.valued,
      linsertLoop_grows _ _ works.grows, linsertLoop, libWorks.linsert, Option.elim_some,
      Option.map_some]
    cases insertNext piv value after e.data with
    | none =>
        constructor
        · exact KeyRun.settle_of_not_isNew rfl _
        · rfl
    | some data =>
        constructor
        · exact KeyRun.settle_of_not_isNew rfl _
        · rfl

/-- Removals meet their count and insertions their pivot, unless an argument is empty; an insertion
needs a key that exists. -/
theorem execLrem_execLinsert_exact (libWorks : lib.Works) (works : env.Works) (arg0 : Bytes)
    (list : ∀ e ∈ live env entry, e.type = .list) :
    (∀ n value, msg.getArgInt 2 = some n → IsArg msg 3 value →
      (LremRemoves lib env msg entry arg0 n value ↔ value ≠ [])) ∧
    (∀ piv value after, insertSide msg = some after → IsArg msg 3 piv → IsArg msg 4 value →
      (LinsertInserts lib env msg entry arg0 piv value after ↔
        (live env entry).isSome ∧ piv ≠ [] ∧ value ≠ [])) :=
  ⟨fun _ _ count isValue => lremRemoves_iff libWorks works arg0 count isValue list,
    fun _ _ _ side isPivot isValue =>
      linsertInserts_iff libWorks works arg0 side isPivot isValue list⟩

end Commands

/-- A scan back from a position. -/
def scanBack (data : ListData) (arg : Bytes) : Nat → Option Nat
  | 0 => none
  | pos + 1 => if data[pos]? = some arg then some pos else scanBack data arg pos

/-- The library on lists. -/
def listLib : ListLib where
  scanFwd data arg pos := (List.range' pos (data.length - pos)).find? fun i => data[i]? = some arg
  scanRev := scanBack
  lrem := List.eraseIdx
  linsert data piv value after := insertNext piv value after data

theorem scanBack_eq_some (data : ListData) (arg : Bytes) (pos i : Nat) :
    scanBack data arg pos = some i ↔
      i < pos ∧ data[i]? = some arg ∧ ∀ j, i < j → j < pos → data[j]? ≠ some arg := by
  induction pos with
  | zero => simp [scanBack]
  | succ pos ih =>
      rw [scanBack]
      split
      · rename_i here
        constructor
        · intro same
          obtain rfl := Option.some.inj same
          exact ⟨Nat.lt_succ_self pos, here, fun j first last => by omega⟩
        · intro ⟨inside, _, last⟩
          rcases Nat.lt_or_ge i pos with before | same
          · exact absurd here (last pos before (Nat.lt_succ_self pos))
          · rw [show i = pos by omega]
      · rename_i other
        rw [ih]
        constructor
        · intro ⟨inside, here, last⟩
          refine ⟨by omega, here, fun j first before => ?_⟩
          rcases Nat.lt_or_ge j pos with front | same
          · exact last j first front
          · rwa [show j = pos by omega]
        · intro ⟨inside, here, last⟩
          have before : i ≠ pos := fun same => other (same ▸ here)
          exact ⟨by omega, here, fun j first front => last j first (by omega)⟩

theorem listLib_works : listLib.Works where
  scanFwd := fun data arg pos i => by
    have found := List.find?_range'_eq_some (p := fun i => decide (data[i]? = some arg))
      (s := pos) (n := data.length - pos) (i := i)
    simp only [listLib, found, decide_eq_true_eq, List.mem_range'_1, Bool.not_eq_true',
      decide_eq_false_iff_not]
    constructor
    · intro ⟨here, range, first⟩
      exact ⟨range.1, here, first⟩
    · intro ⟨behind, here, first⟩
      have inside := (List.getElem?_eq_some_iff.mp here).1
      exact ⟨here, ⟨behind, by omega⟩, first⟩
  scanRev := scanBack_eq_some
  lrem _ _ := rfl
  linsert _ _ _ _ := rfl

/-- An insertion by its words. -/
def linsertWords : CommandMsg :=
  ⟨commandWords ["linsert", "k", "before", "x", "y"], by simp [commandWords]⟩

theorem isArg_mkStr {msg : CommandMsg} {n : Nat} {value : Bytes}
    (here : msg.args[n]? = some (mkStr value)) (fits : value.length < 2 ^ 31) :
    IsArg msg n value := by
  refine ⟨.bulkString, by decide, ?_⟩
  rw [here, mkStr, toInt32_of_bounds (by omega) (by omega)]

/-- A word matches itself. -/
theorem isWord_mkStr {word : Bytes} (fits : word.length < 2 ^ 31) :
    (mkStr word).isWord word = true := by
  rw [mkStr, RedisMsg.isWord, toInt32_of_bounds (by omega) (by omega)]
  · simp
  · simp

theorem insertSide_linsertWords : insertSide linsertWords = some false := by
  have here : linsertWords.args[2]? = some (mkStr (text "before")) := rfl
  rw [insertSide, CommandMsg.matchArg, here]
  simp only [List.findIdx?_cons, isWord_mkStr (show (text "before").length < 2 ^ 31 by decide)]
  rfl

/-- The last element leaves a list, and another one stands in front of its head. -/
theorem execLrem_execLinsert_exact_both :
    LremRemoves listLib quietEnv (listWords "lrem" "-1" "x") (some ⟨.list, [text "x", text "x"], 0⟩)
        [] (-1) (text "x") ∧
      LinsertInserts listLib quietEnv linsertWords (some ⟨.list, [text "x", text "x"], 0⟩) []
        (text "x") (text "y") false :=
  ⟨((execLrem_execLinsert_exact listLib_works quietEnv_works [] (by rintro _ ⟨⟩; rfl)).1 (-1)
      (text "x") (by decide) (isArg_mkStr rfl (by decide))).mpr (by decide),
    ((execLrem_execLinsert_exact listLib_works quietEnv_works [] (by rintro _ ⟨⟩; rfl)).2
      (text "x") (text "y") false insertSide_linsertWords (isArg_mkStr rfl (by decide))
      (isArg_mkStr rfl (by decide))).mpr ⟨rfl, by decide, by decide⟩⟩

/-- An insertion on a missing key replies minus one and leaves a list without elements. -/
theorem not_execLrem_execLinsert_exact :
    ¬LinsertInserts listLib quietEnv linsertWords none [] (text "x") (text "y") false :=
  not_linsertInserts_of_missing listLib_works quietEnv_works [] insertSide_linsertWords (by decide)
    (by decide) rfl

end Raids.Key
