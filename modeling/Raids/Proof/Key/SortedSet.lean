import Mathlib.Data.List.SplitLengths
import Raids.Construction.Key.SortedSet
import Raids.Proof.Key.SetSample

namespace Raids.Key

section Scores

variable {Z : Type}

/-- The score of a member. -/
def ZSetData.score (x : ZSetData Z) (m : Bytes) : Option Z :=
  (x.members.find? fun zv => zv.1 = m).map Prod.snd

/-- The members are those with a score. -/
theorem mem_members_iff {x : ZSetData Z} {m : Bytes} :
    m ∈ x.members.map Prod.fst ↔ x.score m ≠ none := by
  rw [ZSetData.score, ne_eq, Option.map_eq_none_iff, List.find?_eq_none, List.mem_map]
  simp

end Scores

section Loops

variable {Z : Type} (x : ZSetData Z)

/-- The members behind a place and up to another one have left. -/
theorem members_zremLoop (left j : Nat) (low : left ≤ j) (inside : j ≤ x.hcount) :
    (zremLoop left j x).members = x.members.take (j - left) ++ x.members.drop j := by
  induction left generalizing j x with
  | zero =>
      rw [zremLoop, Nat.sub_zero, List.take_append_drop]
  | succ left ih =>
      rw [ZSetData.hcount] at inside
      have shorter : (x.zremIndex j).members = x.members.take (j - 1) ++ x.members.drop j := by
        show x.members.eraseIdx (j - 1) = _
        rw [List.eraseIdx_eq_take_drop_succ, show j - 1 + 1 = j by omega]
      have front : (x.members.take (j - 1)).length = j - 1 := by
        rw [List.length_take]
        omega
      rw [zremLoop, ih _ (j - 1) (by omega) (by
        rw [ZSetData.hcount, shorter, List.length_append, front]
        omega), shorter, List.take_append_of_le_length (by omega), List.take_take,
        List.drop_append_of_le_length (by omega), List.drop_of_length_le (by omega),
        List.nil_append]
      congr 2
      omega

/-- The lowest members are read in the order of their ranks. -/
theorem zpopLoop_min {cmd : ZRemCmd} (isMin : cmd.isMax = false) (left i j : Nat) :
    zpopLoop cmd x left i j = (x.members.drop i).take left := by
  induction left generalizing i with
  | zero => rfl
  | succ left ih =>
      rw [zpopLoop, isMin]
      simp only [Bool.false_eq_true, if_false, ZSetData.zindex]
      cases found : x.members[i]? with
      | none =>
          rw [List.drop_eq_nil_of_le (List.getElem?_eq_none_iff.mp found)]
          rfl
      | some zv =>
          obtain ⟨inside, rfl⟩ := List.getElem?_eq_some_iff.mp found
          rw [List.drop_eq_getElem_cons inside, List.take_succ_cons]
          dsimp only
          rw [ih]

/-- The highest members are read from the last one on. -/
theorem zpopLoop_max {cmd : ZRemCmd} (isMax : cmd.isMax) (left i j : Nat) (low : left ≤ j)
    (inside : j ≤ x.hcount) :
    zpopLoop cmd x left i j = ((x.members.take j).reverse).take left := by
  induction left generalizing j with
  | zero => rfl
  | succ left ih =>
      obtain ⟨j, rfl⟩ : ∃ k, j = k + 1 := ⟨j - 1, by omega⟩
      rw [ZSetData.hcount] at inside
      have found : x.members[j]? = some x.members[j] := List.getElem?_eq_getElem (by omega)
      have last : x.members.take (j + 1) = x.members.take j ++ [x.members[j]] :=
        List.take_succ_eq_append_getElem (by omega)
      rw [zpopLoop, if_pos isMax, ZSetData.zindex]
      simp only [found, if_pos isMax]
      rw [last, List.reverse_append, List.reverse_singleton, List.singleton_append,
        List.take_succ_cons, Nat.add_sub_cancel, ih j (by omega) (by rw [ZSetData.hcount]; omega)]

end Loops

section Pop

variable {Z : Type} {lib : ScoreLib Z} {env : ZRemEnv} {cmd : ZRemCmd} {msg : CommandMsg}
  {key arg0 : Bytes} {entry : Option (Entry (ZSetData Z))} {e : Entry (ZSetData Z)} {n : Int}

/-- The members in the order of a pop: from the lowest rank, or from the highest one. -/
def popOrder (isMax : Bool) (x : ZSetData Z) : List (Bytes × Z) :=
  if isMax then x.members.reverse else x.members

/-- The reply has the first members of the order with their scores. The others stay in their order,
and a key without members is gone. -/
structure PopMeets (lib : ScoreLib Z) (cmd : ZRemCmd) (key : Bytes) (e : Entry (ZSetData Z))
    (n : Int) (arg0 : Bytes) (run : KeyRun (ZSetData Z)) : Prop where
  reply : run.reply arg0 =
    sendArray (zpopItems lib cmd e.type key ((popOrder cmd.isMax e.data).take n.toNat))
  gone : e.data.members.length ≤ n.toNat → run.settle .sortedSet = none
  stays : n.toNat < e.data.members.length → ∃ e', run.settle .sortedSet = some e' ∧
    e'.type = e.type ∧ e'.exp = e.exp ∧
    popOrder cmd.isMax e'.data = (popOrder cmd.isMax e.data).drop n.toNat

/-- No call of a removal fails. -/
structure ZRemEnv.Works (env : ZRemEnv) : Prop where
  table : env.table.Works
  tombstoned : env.tombstoned

/-- A key holds a sorted set or places, which are ranked too. -/
def IsRanked (e : Entry (ZSetData Z)) : Prop := e.type = .sortedSet ∨ e.type = .geo

/-- The number of members that a pop takes. The highest ones are taken only where all of them are
there. -/
def takenBy (cmd : ZRemCmd) (count : Nat) (n : Int) : Nat :=
  if cmd.isMax then (if n ≤ count then n.toNat else 0) else min n.toNat count

theorem takenBy_le (cmd : ZRemCmd) (count : Nat) (n : Int) : takenBy cmd count n ≤ count := by
  rw [takenBy]
  by_cases isMax : cmd.isMax
  · rw [if_pos isMax]
    by_cases small : n ≤ count
    · rw [if_pos small]
      omega
    · rw [if_neg small]
      omega
  · rw [if_neg isMax]
    omega

/-- The places of a pop are at one of the ends. -/
theorem popBounds_eq (cmd : ZRemCmd) (count : Nat) (n : Int) :
    popBounds cmd count n =
      (((if cmd.isMax then count - takenBy cmd count n else 0 : Nat) : Int),
        ((if cmd.isMax then count else takenBy cmd count n : Nat) : Int)) := by
  rw [popBounds, takenBy]
  by_cases isMax : cmd.isMax
  · rw [if_pos isMax, if_pos isMax, if_pos isMax, if_pos isMax]
    by_cases small : n ≤ count
    · rw [if_pos small]
      by_cases positive : 0 < n
      · rw [if_pos ⟨positive, small⟩]
        congr 1
        omega
      · rw [if_neg (fun both => positive both.1)]
        congr 1
        omega
    · rw [if_neg small, if_neg (fun both => small both.2), Nat.sub_zero]
  · rw [if_neg isMax, if_neg isMax, if_neg isMax, if_neg isMax]
    congr 1
    by_cases large : (count : Int) < n
    · rw [if_pos large]
      omega
    · rw [if_neg large]
      by_cases negative : n < 0
      · rw [if_pos negative]
        omega
      · rw [if_neg negative]
        omega

/-- A removal keeps the members in front of its range and behind it. -/
theorem zremMembers_spec (works : env.Works) (found : Fetched (ZSetData Z)) (status : ExecStatus)
    (out : Bytes) {i j : Nat} (low : i ≤ j) (inside : j ≤ e.data.hcount) :
    (zremMembers env found e status out i j).status = status ∧
      (zremMembers env found e status out i j).out = out ∧
      (zremMembers env found e status out i j).ival = (j : Int) - i ∧
      (zremMembers env found e status out i j).isNew = found.isNew ∧
      if i < j ∧ j - i = e.data.hcount then
        (zremMembers env found e status out i j).entry = none
      else ∃ x, (zremMembers env found e status out i j).entry = some { e with data := x } ∧
        x.members = e.data.members.take i ++ e.data.members.drop j := by
  obtain ⟨x, isX, members⟩ : ∃ x, (if (j : Int) - i = e.data.hcount then e.data.zremall
      else zremLoop ((j : Int) - i).toNat (j : Int).toNat e.data) = x ∧
      x.members = e.data.members.take i ++ e.data.members.drop j := by
    refine ⟨_, rfl, ?_⟩
    by_cases all : (j : Int) - i = e.data.hcount
    · rw [if_pos all, show i = 0 by omega, List.take_zero, List.drop_of_length_le]
      · rfl
      · rw [ZSetData.hcount] at all
        omega
    · rw [if_neg all, show ((j : Int) - i).toNat = j - i by omega, Int.toNat_natCast,
        members_zremLoop _ _ _ (by omega) inside]
      congr 2
      omega
  have count : x.hcount = e.data.hcount - (j - i) := by
    rw [ZSetData.hcount, members, List.length_append, List.length_take, List.length_drop]
    rw [ZSetData.hcount] at inside ⊢
    omega
  rw [zremMembers]
  simp only [isX]
  by_cases empty : i < j ∧ j - i = e.data.hcount
  · rw [if_pos (show 0 < (j : Int) - i ∧ x.hcount = 0 by omega), if_pos works.tombstoned,
      if_pos empty]
    exact ⟨rfl, rfl, rfl, rfl, rfl⟩
  · rw [if_neg (show ¬(0 < (j : Int) - i ∧ x.hcount = 0) by omega), if_neg empty]
    exact ⟨rfl, rfl, rfl, rfl, x, rfl, members⟩

/-- The members that a pop takes are the first ones of its order. -/
theorem zpopLoop_eq (cmd : ZRemCmd) (x : ZSetData Z) {m : Nat} (inside : m ≤ x.hcount) :
    zpopLoop cmd x m (if cmd.isMax then x.hcount - m else 0) (if cmd.isMax then x.hcount else m) =
      (popOrder cmd.isMax x).take m := by
  cases isMax : cmd.isMax with
  | true =>
      rw [if_pos rfl, if_pos rfl, zpopLoop_max x isMax _ _ _ inside (Nat.le_refl _), ZSetData.hcount,
        List.take_length]
      rfl
  | false =>
      rw [if_neg Bool.false_ne_true, if_neg Bool.false_ne_true, zpopLoop_min x isMax, List.drop_zero]
      rfl

/-- The members that stay are the last ones of the order. -/
theorem popOrder_drop (isMax : Bool) {x y : ZSetData Z} {m : Nat}
    (members : y.members =
      x.members.take (if isMax then x.hcount - m else 0) ++
        x.members.drop (if isMax then x.hcount else m)) :
    popOrder isMax y = (popOrder isMax x).drop m := by
  rw [popOrder, popOrder, members]
  cases isMax with
  | true =>
      rw [ZSetData.hcount]
      simp only [if_true, List.drop_length, List.append_nil]
      rw [List.drop_reverse]
  | false => simp

/-- The removal starts with the fetch of a ranked key. -/
theorem doZremrange_ranked (works : env.Works) {args : ZRemArgs}
    (isArgs : zremArgs cmd msg = some args) (isLive : live env.table entry = some e)
    (ranked : IsRanked e) :
    doZremrange lib env cmd msg key entry =
      zremOpened lib env cmd key args ⟨some .keyOk, some e, false, e.type⟩ e := by
  have typed : e.type ≠ .noData ∧ ¬(e.type ≠ .sortedSet ∧ e.type ≠ .geo) := by
    rcases ranked with isZset | isGeo
    · simp [isZset]
    · simp [isGeo]
  rw [doZremrange, isArgs]
  simp only [execKeyFetch, works.table.fetched, if_true, isLive, if_neg typed.1, if_neg typed.2,
    works.table.valued]

/-- A pop sends the first members of its order, and the others stay. -/
theorem doZremrange_pop (works : env.Works) (isPop : cmd.isPop)
    (isArgs : zremArgs cmd msg = some { jval := n }) (isLive : live env.table entry = some e)
    (ranked : IsRanked e) (some : e.data.hcount ≠ 0) :
    (doZremrange lib env cmd msg key entry).status = .execOk ∧
      (doZremrange lib env cmd msg key entry).out = sendArray (zpopItems lib cmd e.type key
        ((popOrder cmd.isMax e.data).take (takenBy cmd e.data.hcount n))) ∧
      (doZremrange lib env cmd msg key entry).isNew = false ∧
      if takenBy cmd e.data.hcount n = e.data.hcount then
        (doZremrange lib env cmd msg key entry).entry = none
      else ∃ x, (doZremrange lib env cmd msg key entry).entry =
          Option.some { e with data := x } ∧
        popOrder cmd.isMax x = (popOrder cmd.isMax e.data).drop (takenBy cmd e.data.hcount n) := by
  have inside := takenBy_le cmd e.data.hcount n
  have bounds : zremBounds lib cmd e.type e.data { jval := n } =
      Option.some (Option.some (popBounds cmd e.data.hcount n)) := by
    cases cmd <;> first | rfl | cases isPop
  obtain ⟨i, isStart⟩ : ∃ i : Nat, i = if cmd.isMax then e.data.hcount - takenBy cmd e.data.hcount n
    else 0 := ⟨_, rfl⟩
  obtain ⟨j, isEnd⟩ : ∃ j : Nat, j = if cmd.isMax then e.data.hcount
    else takenBy cmd e.data.hcount n := ⟨_, rfl⟩
  have length : i ≤ j ∧ j ≤ e.data.hcount ∧ j - i = takenBy cmd e.data.hcount n := by
    rw [isStart, isEnd]
    cases cmd.isMax with
    | true => simp only [if_true]; omega
    | false => simp only [Bool.false_eq_true, if_false]; omega
  rw [doZremrange_ranked works isArgs isLive ranked, zremOpened]
  simp only [if_neg some, bounds, popBounds_eq, ← isStart, ← isEnd, if_pos isPop]
  rw [show ((j : Int) - i).toNat = takenBy cmd e.data.hcount n by omega, Int.toNat_natCast,
    Int.toNat_natCast]
  obtain ⟨status, out, -, isNew, leaves⟩ := @zremMembers_spec _ _ e works
    ⟨Option.some .keyOk, Option.some e, false, e.type⟩ .execOk
    (sendArray (zpopItems lib cmd e.type key
      (zpopLoop cmd e.data (takenBy cmd e.data.hcount n) i j))) i j length.1 length.2.1
  have popped : zpopLoop cmd e.data (takenBy cmd e.data.hcount n) i j =
      (popOrder cmd.isMax e.data).take (takenBy cmd e.data.hcount n) := by
    rw [isStart, isEnd]
    exact zpopLoop_eq cmd e.data inside
  refine ⟨status, ?_, isNew, ?_⟩
  · rw [out, popped]
  · by_cases all : takenBy cmd e.data.hcount n = e.data.hcount
    · rw [if_pos (by omega)] at leaves
      rw [if_pos all, leaves]
    · rw [if_neg (by omega)] at leaves
      obtain ⟨x, isEntry, members⟩ := leaves
      rw [if_neg all]
      refine ⟨x, isEntry, popOrder_drop _ ?_⟩
      rw [members, isStart, isEnd]

theorem length_popOrder (isMax : Bool) (x : ZSetData Z) :
    (popOrder isMax x).length = x.hcount := by
  cases isMax with
  | true => exact List.length_reverse
  | false => rfl

/-- A run that has taken the first members of its order is right where these are all that the
number asks for. -/
theorem popMeets_iff {run : KeyRun (ZSetData Z)} (some : e.data.hcount ≠ 0)
    (silent : sendStatus arg0 run.ival run.status = [])
    (out : run.out = sendArray (zpopItems lib cmd e.type key
      ((popOrder cmd.isMax e.data).take (takenBy cmd e.data.hcount n))))
    (isNew : run.isNew = false)
    (leaves : if takenBy cmd e.data.hcount n = e.data.hcount then run.entry = none
      else ∃ x, run.entry = Option.some { e with data := x } ∧
        popOrder cmd.isMax x = (popOrder cmd.isMax e.data).drop (takenBy cmd e.data.hcount n)) :
    PopMeets lib cmd key e n arg0 run ↔ (cmd.isMax → n ≤ e.data.hcount) := by
  have settled := KeyRun.settle_of_not_isNew isNew .sortedSet
  have reply : run.reply arg0 = run.out := by
    rw [KeyRun.reply, silent, List.append_nil]
  by_cases fits : cmd.isMax = true → n ≤ e.data.hcount
  · have taken : takenBy cmd e.data.hcount n = min n.toNat e.data.hcount := by
      rw [takenBy]
      by_cases isMax : cmd.isMax = true
      · rw [if_pos isMax, if_pos (fits isMax)]
        have small := fits isMax
        omega
      · rw [if_neg isMax]
    apply iff_of_true _ fits
    rw [taken] at out leaves
    refine ⟨?_, ?_, ?_⟩
    · rw [reply, out, ← length_popOrder cmd.isMax e.data, ← List.take_eq_take_min]
    · intro few
      rw [ZSetData.hcount, if_pos (by omega)] at leaves
      rw [settled, leaves]
    · intro more
      rw [ZSetData.hcount, if_neg (by omega), min_eq_left (by omega)] at leaves
      obtain ⟨x, isEntry, rest⟩ := leaves
      exact ⟨_, settled.trans isEntry, rfl, rfl, rest⟩
  · apply iff_of_false _ fits
    intro meets
    rw [Classical.not_imp] at fits
    obtain ⟨isMax, many⟩ := fits
    have none : takenBy cmd e.data.hcount n = 0 := by
      rw [takenBy, if_pos isMax, if_neg many]
    rw [none] at out leaves
    have gone := meets.gone (by rw [ZSetData.hcount] at many; omega)
    rw [if_neg (Ne.symm some)] at leaves
    obtain ⟨x, isEntry, -⟩ := leaves
    rw [settled, isEntry] at gone
    cases gone

/-- A pop is right where there is a member, and the highest ones are as many as it asks for. -/
theorem doZremrange_meets (works : env.Works) (pops : cmd = .zpopmin ∨ cmd = .zpopmax)
    (isArgs : zremArgs cmd msg = some { jval := n }) (isLive : live env.table entry = some e)
    (ranked : IsRanked e) :
    PopMeets lib cmd key e n arg0 (doZremrange lib env cmd msg key entry) ↔
      0 < e.data.hcount ∧ (cmd.isMax → n ≤ e.data.hcount) := by
  have isPop : cmd.isPop := by
    rcases pops with rfl | rfl
    · rfl
    · rfl
  by_cases empty : e.data.hcount = 0
  · apply iff_of_false
    · intro meets
      have gone := meets.gone (by rw [ZSetData.hcount] at empty; omega)
      rw [doZremrange_ranked works isArgs isLive ranked, zremOpened, if_pos empty,
        KeyRun.settle_of_not_isNew rfl] at gone
      cases gone
    · omega
  · obtain ⟨status, out, isNew, leaves⟩ :=
      @doZremrange_pop _ lib _ _ _ key _ _ _ works isPop isArgs isLive ranked empty
    rw [popMeets_iff empty (by rw [status]; rfl) out isNew leaves]
    exact (and_iff_right (by omega)).symm

/-- A blocking pop takes one member where there is one. -/
theorem execBzpop_meets (works : env.Works) (blocks : cmd = .bzpopmin ∨ cmd = .bzpopmax)
    (isLive : live env.table entry = some e) (ranked : IsRanked e) :
    PopMeets lib cmd key e 1 arg0 (execBzpop lib env cmd msg key entry) ↔ 0 < e.data.hcount := by
  have isArgs : zremArgs cmd msg = some { jval := 1 } ∧ cmd.isPop := by
    rcases blocks with rfl | rfl
    · exact ⟨rfl, rfl⟩
    · exact ⟨rfl, rfl⟩
  by_cases empty : e.data.hcount = 0
  · apply iff_of_false
    · intro meets
      have gone := meets.gone (by rw [ZSetData.hcount] at empty; omega)
      rw [execBzpop, doZremrange_ranked works isArgs.1 isLive ranked, zremOpened, if_pos empty,
        ZRemCmd.nothing, if_pos isArgs.2] at gone
      rw [KeyRun.settle_of_not_isNew rfl] at gone
      cases gone
    · omega
  · obtain ⟨status, out, isNew, leaves⟩ :=
      @doZremrange_pop _ lib _ _ _ key _ _ _ works isArgs.2 isArgs.1 isLive ranked empty
    rw [execBzpop]
    simp only [status]
    refine Iff.trans (popMeets_iff empty rfl out isNew leaves) ?_
    exact iff_of_true (fun _ => by omega) (by omega)

/-- The pops of one kind behind each other: their replies, and the entry that is left. -/
def popRun (lib : ScoreLib Z) (env : ZRemEnv) (cmd : ZRemCmd) (key arg0 : Bytes) :
    List CommandMsg → Option (Entry (ZSetData Z)) → List Bytes × Option (Entry (ZSetData Z))
  | [], entry => ([], entry)
  | msg :: msgs, entry =>
      let run := doZremrange lib env cmd msg key entry
      let (replies, entry) := popRun lib env cmd key arg0 msgs (run.settle .sortedSet)
      (run.reply arg0 :: replies, entry)

/-- What pops behind each other leave: nothing, or the members behind those they have sent. -/
def RunLeaves (cmd : ZRemCmd) (e : Entry (ZSetData Z)) (total : Nat)
    (last : Option (Entry (ZSetData Z))) : Prop :=
  if total = e.data.hcount then last = none
  else ∃ e', last = some e' ∧ e'.type = e.type ∧ e'.exp = e.exp ∧
    popOrder cmd.isMax e'.data = (popOrder cmd.isMax e.data).drop total

/-- Pops behind each other send the order of the ranks piece by piece. -/
theorem popRun_spec (works : env.Works) (pops : cmd = .zpopmin ∨ cmd = .zpopmax)
    {msgs : List CommandMsg} {counts : List Nat}
    (asks : List.Forall₂ (fun msg count => 0 < count ∧
      zremArgs cmd msg = some { jval := (count : Nat) }) msgs counts)
    (isLive : live env.table entry = some e) (ranked : IsRanked e)
    (enough : counts.sum ≤ e.data.hcount) (some : 0 < e.data.hcount) :
    (popRun lib env cmd key arg0 msgs entry).1 =
        (counts.splitLengths (popOrder cmd.isMax e.data)).map (fun popped =>
          sendArray (zpopItems lib cmd e.type key popped)) ∧
      RunLeaves cmd e counts.sum (popRun lib env cmd key arg0 msgs entry).2 := by
  induction asks generalizing entry e with
  | nil =>
      refine ⟨rfl, ?_⟩
      rw [RunLeaves, List.sum_nil, if_neg (by omega)]
      exact ⟨e, eq_of_live isLive, rfl, rfl, rfl⟩
  | @cons msg count msgs counts ask asks ih =>
      rw [List.sum_cons] at enough
      have meets := (@doZremrange_meets _ lib _ _ _ key arg0 _ _ _ works pops ask.2 isLive
        ranked).mpr ⟨some, fun _ => by omega⟩
      have reply := meets.reply
      rw [Int.toNat_natCast] at reply
      rw [popRun, List.splitLengths_cons, List.map_cons, List.sum_cons]
      dsimp only
      rw [reply]
      by_cases all : count = e.data.hcount
      · have gone := meets.gone (by rw [Int.toNat_natCast]; exact Nat.le_of_eq all.symm)
        rw [gone]
        cases asks with
        | nil =>
            refine ⟨rfl, ?_⟩
            rw [RunLeaves, List.sum_nil, if_pos (by omega)]
            rfl
        | cons next _ =>
            rw [List.sum_cons] at enough
            omega
      · obtain ⟨e', isEntry, type, exp, rest⟩ := meets.stays (by
          rw [Int.toNat_natCast]
          exact Nat.lt_of_le_of_ne (by rw [ZSetData.hcount] at enough; omega) all)
        rw [Int.toNat_natCast] at rest
        have isLive' : live env.table ((doZremrange lib env cmd msg key entry).settle .sortedSet) =
            Option.some e' := by
          have unexpired := (Option.filter_eq_some_iff.mp isLive).2
          rw [isEntry]
          exact Option.filter_some_pos (by rw [exp]; exact unexpired)
        have count' : e'.data.hcount = e.data.hcount - count := by
          rw [← length_popOrder cmd.isMax, rest, List.length_drop, length_popOrder]
        obtain ⟨replies, leaves⟩ := ih isLive' (by rw [IsRanked, type]; exact ranked) (by omega)
          (by omega)
        rw [replies, type, rest]
        refine ⟨rfl, ?_⟩
        rw [RunLeaves] at leaves ⊢
        by_cases total : counts.sum = e'.data.hcount
        · rw [if_pos total] at leaves
          rw [if_pos (by omega)]
          exact leaves
        · rw [if_neg total] at leaves
          rw [if_neg (by omega)]
          obtain ⟨last, isLast, lastType, lastExp, lastRest⟩ := leaves
          refine ⟨last, isLast, lastType.trans type, lastExp.trans exp, ?_⟩
          rw [lastRest, rest, List.drop_drop]

/-- The pops of a key agree with the order of its ranks. -/
structure PopsAgree (lib : ScoreLib Z) (env : ZRemEnv) (msg : CommandMsg) (key arg0 : Bytes)
    (n : Int) (entry : Option (Entry (ZSetData Z))) (e : Entry (ZSetData Z)) : Prop where
  zpopmin : PopMeets lib .zpopmin key e n arg0 (execZpopmin lib env msg key entry)
  zpopmax : PopMeets lib .zpopmax key e n arg0 (execZpopmax lib env msg key entry)
  bzpopmin : PopMeets lib .bzpopmin key e 1 arg0 (execBzpopmin lib env msg key entry)
  bzpopmax : PopMeets lib .bzpopmax key e 1 arg0 (execBzpopmax lib env msg key entry)
  repeated : ∀ cmd, cmd = .zpopmin ∨ cmd = .zpopmax → ∀ (msgs : List CommandMsg) (counts : List Nat),
    List.Forall₂ (fun msg count => 0 < count ∧ zremArgs cmd msg = some { jval := (count : Nat) })
      msgs counts → counts.sum ≤ e.data.hcount →
    (popRun lib env cmd key arg0 msgs entry).1 =
        (counts.splitLengths (popOrder cmd.isMax e.data)).map (fun popped =>
          sendArray (zpopItems lib cmd e.type key popped)) ∧
      RunLeaves cmd e counts.sum (popRun lib env cmd key arg0 msgs entry).2

/-- The pops of a key are right under the condition only: it has a member, and it has as many as
the number asks for. -/
theorem zpops_exact (works : env.Works) (isArgs : zremArgs .zpopmin msg = some { jval := n })
    (isLive : live env.table entry = some e) (ranked : IsRanked e) :
    PopsAgree lib env msg key arg0 n entry e ↔ 0 < e.data.hcount ∧ n ≤ e.data.hcount := by
  apply Iff.intro
  · intro agree
    have both := (@doZremrange_meets _ lib _ .zpopmax _ key arg0 _ _ _ works (Or.inr rfl) isArgs
      isLive ranked).mp agree.zpopmax
    exact ⟨both.1, both.2 rfl⟩
  · rintro ⟨some, enough⟩
    refine ⟨?_, ?_, ?_, ?_, ?_⟩
    · exact (doZremrange_meets works (Or.inl rfl) isArgs isLive ranked).mpr ⟨some, fun _ => enough⟩
    · exact (doZremrange_meets works (Or.inr rfl) isArgs isLive ranked).mpr ⟨some, fun _ => enough⟩
    · exact (execBzpop_meets works (Or.inl rfl) isLive ranked).mpr some
    · exact (execBzpop_meets works (Or.inr rfl) isLive ranked).mpr some
    · intro cmd pops msgs counts asks few
      exact popRun_spec works pops asks isLive ranked few some

end Pop

section Samples

/-- Numbers as scores. -/
def numberScores : ScoreLib Nat where
  parse := fun _ str => match stringToInt str with
    | .ok v => v.toNat
    | .error _ => 0
  toText := fun _ score => uint64ToString score
  zbsearch := fun x score above =>
    (x.members.filter fun zv => if above then zv.2 ≤ score else zv.2 < score).length + 1
  zbsearchAll := fun x member above =>
    (x.members.filter fun zv => if above then zv.1 ≤ member else zv.1 < member).length + 1

/-- Two members with their scores. -/
def twoScores : Entry (ZSetData Nat) :=
  ⟨.sortedSet, ⟨[(text "a", 1), (text "b", 2)], by decide⟩, 0⟩

def quietRemEnv : ZRemEnv := {}

theorem quietRemEnv_works : quietRemEnv.Works := ⟨quietEnv_works, rfl⟩

def zpopMsg (count : String) : CommandMsg :=
  ⟨commandWords ["zpopmax", "k", count], by simp [commandWords]⟩

theorem zpops_exact_two :
    PopsAgree numberScores quietRemEnv (zpopMsg "2") (text "k") [] 2 (some twoScores) twoScores :=
  (zpops_exact quietRemEnv_works (by decide) rfl (Or.inl rfl)).mpr ⟨by decide, by decide⟩

/-- Three members are not there, and none of the two is taken. -/
theorem not_zpops_exact :
    ¬PopsAgree numberScores quietRemEnv (zpopMsg "3") (text "k") [] 3 (some twoScores) twoScores := by
  intro agree
  have fits := (doZremrange_meets quietRemEnv_works (Or.inr rfl) (by decide) rfl (Or.inl rfl)).mp
    agree.zpopmax
  exact absurd (fits.2 rfl) (by decide)

end Samples

end Raids.Key
