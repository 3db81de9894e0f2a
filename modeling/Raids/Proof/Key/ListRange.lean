import Raids.Construction.Key.ListRange
import Raids.Proof.Key.Add
import Raids.Proof.Key.ListMove
import Raids.Proof.Msg.Numeral

namespace Raids.Key

/-- The elements at an interval of the indices are one part of the list. -/
theorem filter_zipIdx (data : ListData) (start stop offset : Nat) :
    ((data.zipIdx offset).filter fun elem => decide (start ≤ elem.2 ∧ elem.2 < stop)).map Prod.fst =
      (data.drop (start - offset)).take (stop - max start offset) := by
  induction data generalizing offset with
  | nil => simp
  | cons x data ih =>
      rw [List.zipIdx_cons, List.filter_cons]
      rcases Nat.lt_or_ge offset start with before | behind
      · rw [if_neg (by simp only [decide_eq_true_eq]; omega), ih,
          show start - offset = start - (offset + 1) + 1 by omega, List.drop_succ_cons,
          show max start (offset + 1) = max start offset by omega]
      · rw [show start - offset = 0 by omega, List.drop_zero,
          show max start offset = offset by omega]
        have rest := ih (offset + 1)
        rw [show start - (offset + 1) = 0 by omega, List.drop_zero,
          show max start (offset + 1) = offset + 1 by omega] at rest
        rcases Nat.lt_or_ge offset stop with inside | past
        · rw [if_pos (by simp only [decide_eq_true_eq]; omega), List.map_cons, rest,
            show stop - offset = stop - (offset + 1) + 1 by omega, List.take_succ_cons]
        · rw [if_neg (by simp only [decide_eq_true_eq]; omega), rest,
            show stop - (offset + 1) = 0 by omega, show stop - offset = 0 by omega]
          rfl

/-- The elements that are read one by one are one part of the list. -/
theorem lindexLoop_eq (data : ListData) (left index : Nat) :
    lindexLoop data left index = (data.drop index).take left := by
  induction left generalizing index with
  | zero => rfl
  | succ left ih =>
      cases found : data[index]? with
      | none =>
          rw [lindexLoop, found, List.drop_eq_nil_of_le (List.getElem?_eq_none_iff.mp found)]
          rfl
      | some lv =>
          obtain ⟨inside, value⟩ := List.getElem?_eq_some_iff.mp found
          rw [lindexLoop, found, List.drop_eq_getElem_cons inside, List.take_succ_cons, value, ih]

section Slice

variable {data : ListData} {start stop : Int}

/-- An index from the end does not wrap around. -/
theorem wrapIndex_eq_fromEnd {index : Int} (bounded : data.length < 2 ^ 62) (int : InInt64 index) :
    wrapIndex data.length index = fromEnd data.length index := by
  rw [wrapIndex, fromEnd]
  split
  · exact toInt64_of_inInt64 ⟨by have := int.1; omega, by omega⟩
  · rfl

/-- The number behind an index exists unless the index is the largest number. -/
theorem increment_wrapIndex (bounded : data.length < 2 ^ 62) (int : InInt64 stop) :
    increment (wrapIndex data.length stop) =
      if stop = 2 ^ 63 - 1 then none else some (fromEnd data.length stop + 1) := by
  rw [wrapIndex_eq_fromEnd bounded int, increment]
  have largest : fromEnd data.length stop < 2 ^ 63 - 1 ↔ ¬stop = 2 ^ 63 - 1 := by
    have top := int.2
    rw [fromEnd]
    split <;> omega
  rcases Decidable.em (stop = 2 ^ 63 - 1) with last | early
  · rw [if_pos last, if_neg (fun below => largest.mp below last)]
  · rw [if_neg early, if_pos (largest.mpr early)]

/-- A slice lies between the clipped bounds. -/
theorem listSlice_eq (data : ListData) (start stop : Int) :
    listSlice data start stop =
      (data.drop (min (data.length : Int) (max 0 (fromEnd data.length start))).toNat).take
        (min (data.length : Int) (max 0 (fromEnd data.length stop + 1)) -
          min (data.length : Int) (max 0 (fromEnd data.length start))).toNat := by
  rw [listSlice]
  generalize fromEnd data.length start = first
  generalize fromEnd data.length stop = last
  have bounds : ∀ elem ∈ data.zipIdx,
      decide (max 0 first ≤ elem.2 ∧ (elem.2 : Int) ≤ min ((data.length : Int) - 1) last) =
        decide ((min (data.length : Int) (max 0 first)).toNat ≤ elem.2 ∧
          elem.2 < (min (data.length : Int) (max 0 (last + 1))).toNat) := by
    intro elem member
    have inside := (List.mem_zipIdx member).2.1
    apply decide_eq_decide.mpr
    omega
  rw [List.filter_congr bounds, filter_zipIdx]
  congr 1
  omega

/-- A read meets the elements of the slice. Only the largest number has no number behind it. -/
theorem lrange_eq (bounded : data.length < 2 ^ 62) (first : InInt64 start) (last : InInt64 stop) :
    lrange data start stop =
      if data ≠ [] ∧ stop = 2 ^ 63 - 1 then none else some (listSlice data start stop) := by
  rw [lrange]
  cases data with
  | nil => simp [listSlice]
  | cons x rest =>
      rw [if_pos (by simp), increment_wrapIndex bounded last]
      rcases Decidable.em (stop = 2 ^ 63 - 1) with largest | early
      · rw [if_pos largest, if_pos ⟨by simp, largest⟩]
      · rw [if_neg early, if_neg (fun both => early both.2), listSlice_eq]
        simp only [wrapIndex_eq_fromEnd bounded first, lindexLoop_eq]

end Slice

section Commands

variable {env : KeyEnv} {msg : CommandMsg} {entry : Option (Entry ListData)}
  {e : Entry ListData} {start stop : Int}

/-- A range replies the slice of the list and leaves the list alone. -/
def LrangeSlices (env : KeyEnv) (msg : CommandMsg) (entry : Option (Entry ListData))
    (e : Entry ListData) (arg0 : Bytes) (start stop : Int) : Prop :=
  ∃ run, execLrange env msg entry = some run ∧
    run.reply arg0 = sendArray (listSlice e.data start stop) ∧ run.settle .list = some e

/-- A trim leaves the slice of the list, and deletes the key when the slice is empty. -/
def LtrimSlices (env : KeyEnv) (msg : CommandMsg) (entry : Option (Entry ListData))
    (e : Entry ListData) (arg0 : Bytes) (start stop : Int) : Prop :=
  ∃ run, execLtrim env true msg entry = some run ∧ run.reply arg0 = line "+OK" ∧
    run.settle .list =
      if listSlice e.data start stop = [] then none
      else some { e with data := listSlice e.data start stop }

/-- A range of a list is a read of it. -/
theorem execLrange_eq (works : env.Works) (first : msg.getArgInt 2 = some start)
    (last : msg.getArgInt 3 = some stop) (found : live env entry = some e)
    (list : e.type = .list) :
    execLrange env msg entry = (lrange e.data start stop).map
      (({ kstatus := some .keyOk, entry := some e, type := .list } : Fetched ListData).array env) := by
  rw [execLrange, first, last]
  dsimp only
  rw [getKeyRead_works works, found]
  dsimp only
  rw [if_pos list]
  dsimp only
  rw [if_pos works.valued, list]

/-- A trim of a list cuts it. -/
theorem execLtrim_eq (works : env.Works) (tombstoned : Bool) (first : msg.getArgInt 2 = some start)
    (last : msg.getArgInt 3 = some stop) (found : live env entry = some e)
    (list : e.type = .list) :
    execLtrim env tombstoned msg entry =
      ltrim { kstatus := some .keyOk, entry := some e, type := .list } tombstoned e start stop := by
  rw [execLtrim, first, last]
  dsimp only
  rw [getKeyWrite_works works, found]
  dsimp only
  rw [if_pos list]
  dsimp only
  rw [if_pos works.valued, list]

/-- A range meets its slice unless the last index is the largest number and the list has
elements. -/
theorem lrangeSlices_iff (works : env.Works) (arg0 : Bytes) (first : msg.getArgInt 2 = some start)
    (last : msg.getArgInt 3 = some stop) (found : live env entry = some e) (list : e.type = .list)
    (bounded : e.data.length < 2 ^ 62) (firstInt : InInt64 start) (lastInt : InInt64 stop) :
    LrangeSlices env msg entry e arg0 start stop ↔ (stop = 2 ^ 63 - 1 → e.data = []) := by
  rw [LrangeSlices, execLrange_eq works first last found list,
    lrange_eq bounded firstInt lastInt]
  rcases Decidable.em (e.data ≠ [] ∧ stop = 2 ^ 63 - 1) with largest | early
  · rw [if_pos largest]
    constructor
    · intro ⟨run, undefined, _⟩
      cases undefined
    · intro empty
      exact absurd (empty largest.2) largest.1
  · rw [if_neg early]
    constructor
    · intro _ largest
      exact not_not.mp fun elems => early ⟨elems, largest⟩
    · intro _
      refine ⟨_, rfl, ?_, ?_⟩
      · simp [Fetched.array, works.validated, KeyRun.reply, Fetched.read, Fetched.stop, sendStatus]
      · rw [KeyRun.settle_of_not_isNew]
        · simp [Fetched.array, works.validated, Fetched.read, Fetched.stop]
        · simp [Fetched.array, works.validated, Fetched.read, Fetched.stop]

/-- The elements that a trim leaves are the slice. -/
theorem take_drop_eq_listSlice (data : ListData) (start stop : Int) :
    (data.drop (min (data.length : Int) (max 0 (fromEnd data.length start))).toNat).take
      ((data.drop (min (data.length : Int) (max 0 (fromEnd data.length start))).toNat).length -
        (data.length - min (data.length : Int) (max 0 (fromEnd data.length stop + 1))).toNat) =
      listSlice data start stop := by
  rw [listSlice_eq, List.length_drop]
  congr 1
  omega

/-- A slice is empty when its bounds cross. -/
theorem listSlice_eq_nil_iff (data : ListData) (start stop : Int) :
    listSlice data start stop = [] ↔
      min (data.length : Int) (max 0 (fromEnd data.length stop + 1)) ≤
        min (data.length : Int) (max 0 (fromEnd data.length start)) := by
  rw [listSlice_eq, ← List.length_eq_zero_iff, List.length_take, List.length_drop]
  omega

/-- A trim of a list with elements leaves the slice, or no key. -/
theorem ltrim_eq (found : Fetched ListData) (bounded : e.data.length < 2 ^ 62)
    (elems : e.data ≠ []) (first : InInt64 start) (last : InInt64 stop)
    (early : stop ≠ 2 ^ 63 - 1) :
    ltrim found true e start stop = some
      (if listSlice e.data start stop = [] then
        { found.stop .execSendOk with entry := none, keyspaceDel := true }
      else { found.stop .execSendOk with
              entry := some { e with data := listSlice e.data start stop } }) := by
  have size := List.length_pos_iff.mpr elems
  rw [ltrim, increment_wrapIndex bounded last, if_neg early]
  simp only [wrapIndex_eq_fromEnd bounded first, take_drop_eq_listSlice, listSlice_eq_nil_iff]
  rcases Decidable.em (min (e.data.length : Int) (max 0 (fromEnd e.data.length stop + 1)) ≤
    min (e.data.length : Int) (max 0 (fromEnd e.data.length start))) with cross | order
  · rw [if_pos (by omega), if_pos cross]
    rfl
  · rw [if_neg (by omega), if_neg order]

/-- A trim meets its slice unless the last index is the largest number or the list has no
elements. -/
theorem ltrimSlices_iff (works : env.Works) (arg0 : Bytes) (first : msg.getArgInt 2 = some start)
    (last : msg.getArgInt 3 = some stop) (found : live env entry = some e) (list : e.type = .list)
    (bounded : e.data.length < 2 ^ 62) (firstInt : InInt64 start) (lastInt : InInt64 stop) :
    LtrimSlices env msg entry e arg0 start stop ↔ stop ≠ 2 ^ 63 - 1 ∧ e.data ≠ [] := by
  rw [LtrimSlices, execLtrim_eq works true first last found list]
  rcases Decidable.em (stop = 2 ^ 63 - 1) with largest | early
  · rw [ltrim, increment_wrapIndex bounded lastInt, if_pos largest]
    constructor
    · intro ⟨run, undefined, _⟩
      cases undefined
    · intro ⟨early, _⟩
      exact absurd largest early
  · rcases Decidable.em (e.data = []) with empty | elems
    · constructor
      · intro ⟨run, trimmed, _, left⟩
        rw [ltrim, increment_wrapIndex bounded lastInt, if_neg early] at trimmed
        simp only [empty, List.length_nil] at trimmed
        rw [if_neg (by omega)] at trimmed
        obtain rfl := Option.some.inj trimmed
        rw [KeyRun.settle_of_not_isNew rfl, empty] at left
        simp [listSlice] at left
      · intro ⟨_, elems⟩
        exact absurd empty elems
    · rw [ltrim_eq _ bounded elems firstInt lastInt early]
      constructor
      · intro _
        exact ⟨early, elems⟩
      · intro _
        rcases Decidable.em (listSlice e.data start stop = []) with cross | order
        · rw [if_pos cross, if_pos cross]
          exact ⟨_, rfl, rfl, rfl⟩
        · rw [if_neg order, if_neg order]
          exact ⟨_, rfl, rfl, KeyRun.settle_of_not_isNew rfl _⟩

/-- A range and a trim of a list meet the same slice. A range fails for the largest last index when
the list has elements, where a sum overflows, and a trim fails for that index, and for a list
without elements, which it keeps. -/
theorem execLrange_execLtrim_exact (works : env.Works) (arg0 : Bytes)
    (first : msg.getArgInt 2 = some start) (last : msg.getArgInt 3 = some stop)
    (found : live env entry = some e) (list : e.type = .list) (bounded : e.data.length < 2 ^ 62)
    (firstInt : InInt64 start) (lastInt : InInt64 stop) :
    (LrangeSlices env msg entry e arg0 start stop ↔ (stop = 2 ^ 63 - 1 → e.data = [])) ∧
      (LtrimSlices env msg entry e arg0 start stop ↔ stop ≠ 2 ^ 63 - 1 ∧ e.data ≠ []) :=
  ⟨lrangeSlices_iff works arg0 first last found list bounded firstInt lastInt,
    ltrimSlices_iff works arg0 first last found list bounded firstInt lastInt⟩

end Commands

/-- A range or a trim by its words. -/
def listWords (name start stop : String) : CommandMsg :=
  ⟨commandWords [name, "k", start, stop], by simp [commandWords]⟩

/-- The last two of three elements are a slice. -/
theorem execLrange_execLtrim_exact_tail :
    LrangeSlices quietEnv (listWords "lrange" "-2" "-1") (some ⟨.list, [[1], [2], [3]], 0⟩)
        ⟨.list, [[1], [2], [3]], 0⟩ [] (-2) (-1) ∧
      LtrimSlices quietEnv (listWords "ltrim" "-2" "-1") (some ⟨.list, [[1], [2], [3]], 0⟩)
        ⟨.list, [[1], [2], [3]], 0⟩ [] (-2) (-1) :=
  ⟨(execLrange_execLtrim_exact quietEnv_works [] (by decide) (by decide +kernel) rfl rfl
      (by decide) (by decide) (by decide)).1.mpr (by simp),
    (execLrange_execLtrim_exact quietEnv_works [] (by decide) (by decide +kernel) rfl rfl
      (by decide) (by decide) (by decide)).2.mpr (by simp)⟩

/-- A range to the largest index has no number behind it. -/
theorem not_execLrange_execLtrim_exact :
    ¬(LrangeSlices quietEnv (listWords "lrange" "0" "9223372036854775807") (some ⟨.list, [[1]], 0⟩)
        ⟨.list, [[1]], 0⟩ [] 0 (2 ^ 63 - 1) ∧
      LtrimSlices quietEnv (listWords "ltrim" "0" "9223372036854775807") (some ⟨.list, [[1]], 0⟩)
        ⟨.list, [[1]], 0⟩ [] 0 (2 ^ 63 - 1)) := by
  intro ⟨ranges, _⟩
  have empty := (lrangeSlices_iff quietEnv_works [] (by decide) (by decide +kernel) rfl rfl
    (by decide) (by decide) (by decide)).mp ranges rfl
  cases empty

end Raids.Key
