import Raids.Construction.Key.SetSample
import Raids.Proof.Collection.ScanArgs
import Raids.Proof.Collection.SetBits
import Raids.Proof.Key.SetMove

namespace Raids.Key

section Tries

variable (mask count : Nat)

/-- The tries of a random number. -/
def wordTries : Nat → BitVec 64 → List Nat
  | 0, _ => []
  | left + 1, n => belowCount count (n.toNat &&& mask) :: wordTries left (n >>> 16)

/-- The tries of the random numbers in their order. -/
def tries (draws : List (BitVec 64)) : List Nat := draws.flatMap (wordTries mask count 4)

variable {mask count}

theorem belowCount_lt (positive : 0 < count) (m : Nat) : belowCount count m < count := by
  induction m using belowCount.induct count with
  | case1 m high ih =>
      rw [belowCount, if_pos high]
      exact ih
  | case2 m low =>
      rw [belowCount, if_neg low]
      omega

theorem wordTries_lt (positive : 0 < count) (left : Nat) (n : BitVec 64) :
    ∀ j ∈ wordTries mask count left n, j < count := by
  induction left generalizing n with
  | zero => simp [wordTries]
  | succ left ih =>
      intro j found
      rw [wordTries] at found
      rcases List.mem_cons.mp found with rfl | found
      · exact belowCount_lt positive _
      · exact ih _ j found

/-- Every try is below the count. -/
theorem tries_lt (positive : 0 < count) {draws : List (BitVec 64)} :
    ∀ j ∈ tries mask count draws, j < count := by
  intro j found
  obtain ⟨n, _, found⟩ := List.mem_flatMap.mp found
  exact wordTries_lt positive 4 n j found

/-- The tries are made until enough bits are set. -/
def tryLoop (heap : Nat → Bool) : List Nat → Int → SetBits → Option (Bool × Int × SetBits)
  | [], ival, bits => some (false, ival, bits)
  | j :: js, ival, bits => do
      let (isSet, bits) ← bits.testSet heap j
      let ival := if isSet then ival else ival - 1
      if !isSet ∧ ival = 0 then return (true, ival, bits)
      else tryLoop heap js ival bits

section Step

variable {heap : Nat → Bool} {bits next : SetBits} {j : Nat} {ival : Int}

theorem tryLoop_none (tested : bits.testSet heap j = none) (js : List Nat) :
    tryLoop heap (j :: js) ival bits = none := by
  rw [tryLoop, tested]
  rfl

/-- A bit that was set does not count. -/
theorem tryLoop_old (tested : bits.testSet heap j = some (true, next)) (js : List Nat) :
    tryLoop heap (j :: js) ival bits = tryLoop heap js ival next := by
  rw [tryLoop, tested]
  simp

/-- A new bit counts. -/
theorem tryLoop_new (tested : bits.testSet heap j = some (false, next)) (js : List Nat) :
    tryLoop heap (j :: js) ival bits =
      if ival - 1 = 0 then some (true, ival - 1, next) else tryLoop heap js (ival - 1) next := by
  rw [tryLoop, tested]
  simp

end Step

theorem tryLoop_append (heap : Nat → Bool) (js ks : List Nat) (ival : Int) (bits : SetBits) :
    tryLoop heap (js ++ ks) ival bits =
      (tryLoop heap js ival bits).bind fun r =>
        if r.1 then some r else tryLoop heap ks r.2.1 r.2.2 := by
  induction js generalizing ival bits with
  | nil => simp [tryLoop]
  | cons j js ih =>
      rw [List.cons_append]
      cases tested : bits.testSet heap j with
      | none =>
          rw [tryLoop_none tested, tryLoop_none tested]
          rfl
      | some r =>
          obtain ⟨isSet, next⟩ := r
          cases isSet with
          | true => rw [tryLoop_old tested, tryLoop_old tested, ih]
          | false =>
              rw [tryLoop_new tested, tryLoop_new tested]
              by_cases done : ival - 1 = 0
              · simp [done]
              · simp [done, ih]

theorem drawWord_eq (env : SampleEnv) (left : Nat) (n : BitVec 64) (ival : Int) (bits : SetBits) :
    drawWord env count left n ival bits =
      tryLoop env.heap (wordTries env.indexMask count left n) ival bits := by
  induction left generalizing n ival bits with
  | zero => rfl
  | succ left ih =>
      rw [drawWord, wordTries, tryLoop]
      simp only [ih]

/-- The loop over the random numbers makes their tries. -/
theorem drawLoop_eq (env : SampleEnv) (draws : List (BitVec 64)) (ival : Int) (bits : SetBits) :
    drawLoop env count draws ival bits =
      (tryLoop env.heap (tries env.indexMask count draws) ival bits).bind fun r =>
        if r.1 then some r.2.2 else none := by
  induction draws generalizing ival bits with
  | nil => rfl
  | cons n draws ih =>
      rw [drawLoop, tries, List.flatMap_cons, tryLoop_append, drawWord_eq]
      cases tryLoop env.heap (wordTries env.indexMask count 4 n) ival bits with
      | none => rfl
      | some r =>
          obtain ⟨isDone, ival, bits⟩ := r
          cases isDone with
          | false => exact ih ival bits
          | true => rfl

end Tries

section Room

variable {heap : Nat → Bool} {s t : SetBits} {ival : Int} {js : List Nat}

/-- The words behind an extension. -/
def grownTo (size off : Nat) : Nat := if size ≤ off then SetBits.allocSize off else size

/-- A word is allocated already, or the heap has a block that is rounded up to hold it. -/
def RoomAt (heap : Nat → Bool) (size off : Nat) : Prop :=
  off < size ∨ off &&& (off - 1) ≠ 0 ∧ heap (SetBits.allocSize off) = true

/-- Each try finds its word, until so many new bits are set, and then a last condition holds of the
number of words. -/
def Room (heap : Nat → Bool) (last : Nat → Prop) : List Nat → Nat → Finset Nat → Nat → Prop
  | [], size, _, need => need = 0 ∧ last size
  | j :: js, size, drawn, need =>
      if need = 0 then last size
      else RoomAt heap size (j / 64) ∧
        Room heap last js (grownTo size (j / 64)) (insert j drawn)
          (if j ∈ drawn then need else need - 1)

theorem room_zero (last : Nat → Prop) (size : Nat) (drawn : Finset Nat) :
    Room heap last js size drawn 0 ↔ last size := by
  cases js with
  | nil => simp [Room]
  | cons j js => simp [Room]

/-- An extension grows the bits to the word. -/
theorem size_extend {off : Nat} (extended : s.extend heap off = some (true, t)) :
    t.size = grownTo s.size off := by
  have cleared : ∀ u : SetBits, u.clearWords off = some t → t.size = u.size := by
    intro u written
    rw [SetBits.clearWords] at written
    split at written
    · split at written
      · rw [← Option.some.inj written]
      · cases written
    · rw [← Option.some.inj written]
  rw [SetBits.extend] at extended
  by_cases grows : s.size ≤ off
  · rw [if_pos grows, SetBits.alloc] at extended
    rw [grownTo, if_pos grows]
    by_cases granted : heap (SetBits.allocSize off)
    · simp only [granted, if_true, Option.map_eq_some_iff, Prod.mk.injEq, true_and] at extended
      obtain ⟨u, written, rfl⟩ := extended
      exact cleared _ written
    · simp [granted] at extended
  · rw [if_neg grows] at extended
    rw [grownTo, if_neg grows]
    simp only [if_true, Option.map_eq_some_iff, Prod.mk.injEq, true_and] at extended
    obtain ⟨u, written, rfl⟩ := extended
    exact cleared _ written

/-- A test that finds its word sets the bit; the other ones are undefined or leave the bits. -/
theorem testSet_cases (inside : s.last < s.size) (j : Nat) :
    (RoomAt heap s.size (j / 64) ∧ ∃ t, s.testSet heap j = some (s.isSet j, t) ∧
      t.last < t.size ∧ t.size = grownTo s.size (j / 64) ∧ t.members = insert j s.members) ∨
    ¬RoomAt heap s.size (j / 64) ∧
      (s.testSet heap j = none ∨ s.testSet heap j = some (false, s)) := by
  by_cases fits : RoomAt heap s.size (j / 64)
  · obtain ⟨t, tested, below, _, inserted⟩ := SetBits.testSet_meets inside fits
    obtain ⟨u, extended, _⟩ := SetBits.extend_fits inside fits
    refine .inl ⟨fits, t, tested, below, ?_, inserted⟩
    rw [← size_extend extended]
    rw [SetBits.testSet, extended] at tested
    simp only [Option.bind_eq_bind, Option.bind_some, Bool.not_true, Bool.false_eq_true,
      if_false] at tested
    split at tested
    · rw [← (Prod.mk.inj (Option.some.inj tested)).2]
    · rw [← (Prod.mk.inj (Option.some.inj tested)).2]
  · refine .inr ⟨fits, ?_⟩
    rcases SetBits.extend_not_fits inside fits with refused | refused
    · exact .inl (by rw [SetBits.testSet, refused]; rfl)
    · exact .inr (by rw [SetBits.testSet, refused]; rfl)

/-- Without a count the tries never come to an end. -/
theorem tryLoop_endless (low : ival ≤ 0) (s : SetBits) :
    ∀ r, tryLoop heap js ival s = some r → r.1 = false := by
  induction js generalizing ival s with
  | nil =>
      intro r ends
      rw [← Option.some.inj ends]
  | cons j js ih =>
      intro r ends
      cases tested : s.testSet heap j with
      | none =>
          rw [tryLoop_none tested] at ends
          cases ends
      | some found =>
          obtain ⟨isSet, next⟩ := found
          cases isSet with
          | true =>
              rw [tryLoop_old tested] at ends
              exact ih low next r ends
          | false =>
              rw [tryLoop_new tested, if_neg (by omega)] at ends
              exact ih (by omega) next r ends

/-- The bits that were tried are set, and at most as many as were counted. -/
theorem tryLoop_bound (inside : s.last < s.size) {i : Int}
    (done : tryLoop heap js ival s = some (true, i, t)) :
    t.last < t.size ∧ (∀ m ∈ t.members, m ∈ s.members ∨ m ∈ js) ∧
      (t.members.card : Int) ≤ s.members.card + ival := by
  induction js generalizing ival s with
  | nil => cases done
  | cons j js ih =>
      rcases @testSet_cases heap s inside j with fits | refused
      · obtain ⟨_, u, tested, below, _, inserted⟩ := fits
        have member : ∀ m ∈ u.members, m ∈ s.members ∨ m ∈ j :: js := by
          intro m found
          rw [inserted, Finset.mem_insert] at found
          exact found.symm.imp id fun same => by simp [same]
        cases old : s.isSet j with
        | true =>
            rw [old] at tested
            rw [tryLoop_old tested] at done
            obtain ⟨last, from_, few⟩ := ih below done
            rw [Finset.insert_eq_of_mem (SetBits.mem_members.mpr old)] at inserted
            rw [inserted] at few
            refine ⟨last, fun m found => ?_, few⟩
            exact (from_ m found).elim (member m) fun later => .inr (List.mem_cons_of_mem j later)
        | false =>
            have new : j ∉ s.members := by
              rw [SetBits.mem_members, old]
              decide
            have grows : u.members.card = s.members.card + 1 := by
              rw [inserted, Finset.card_insert_of_notMem new]
            rw [old] at tested
            rw [tryLoop_new tested] at done
            split at done
            · rename_i last
              simp only [Option.some.injEq, Prod.mk.injEq, true_and] at done
              obtain ⟨_, rfl⟩ := done
              exact ⟨below, member, by omega⟩
            · obtain ⟨last, from_, few⟩ := ih below done
              refine ⟨last, fun m found => ?_, by omega⟩
              exact (from_ m found).elim (member m) fun later =>
                .inr (List.mem_cons_of_mem j later)
      · rcases refused.2 with tested | tested
        · rw [tryLoop_none tested] at done
          cases done
        · rw [tryLoop_new tested] at done
          split at done
          · simp only [Option.some.injEq, Prod.mk.injEq, true_and] at done
            obtain ⟨_, rfl⟩ := done
            exact ⟨inside, fun m found => .inl found, by omega⟩
          · obtain ⟨last, from_, few⟩ := ih inside done
            refine ⟨last, fun m found => ?_, by omega⟩
            exact (from_ m found).imp id (List.mem_cons_of_mem j)

/-- So many new bits are set by the tries if each of them finds its word, and only then. -/
theorem tryLoop_exact (last : Nat → Prop) (inside : s.last < s.size) {need : Nat}
    (some : 0 < need) (enough : need ≤ (js.toFinset \ s.members).card) :
    (∃ i t, tryLoop heap js need s = .some (true, i, t) ∧
        t.members.card = s.members.card + need ∧ last t.size) ↔
      Room heap last js s.size s.members need := by
  induction js generalizing need s with
  | nil =>
      simp at enough
      omega
  | cons j js ih =>
      rw [Room, if_neg (by omega)]
      rcases @testSet_cases heap s inside j with fits | refused
      · obtain ⟨room, u, tested, below, size, inserted⟩ := fits
        rw [and_iff_right room, ← size, ← inserted]
        by_cases member : j ∈ s.members
        · rw [SetBits.mem_members.mp member] at tested
          have same : u.members = s.members := inserted.trans (Finset.insert_eq_of_mem member)
          have left : (j :: js).toFinset \ s.members = js.toFinset \ u.members := by
            rw [List.toFinset_cons, Finset.insert_sdiff_of_mem _ member, same]
          rw [if_pos member, tryLoop_old tested, ← ih below some (left ▸ enough), same]
        · have new : s.isSet j = false := by
            rw [← Bool.not_eq_true, ← SetBits.mem_members]
            exact member
          have grows : u.members.card = s.members.card + 1 := by
            rw [inserted, Finset.card_insert_of_notMem member]
          rw [new] at tested
          rw [if_neg member, tryLoop_new tested]
          by_cases one : need = 1
          · rw [if_pos (by omega), one, room_zero]
            apply Iff.intro
            · rintro ⟨i, t, ends, _, holds⟩
              simp only [Option.some.injEq, Prod.mk.injEq, true_and] at ends
              obtain ⟨_, rfl⟩ := ends
              exact holds
            · exact fun holds => ⟨_, u, rfl, grows, holds⟩
          · have left : need - 1 ≤ (js.toFinset \ u.members).card := by
              have split : (j :: js).toFinset \ s.members ⊆ insert j (js.toFinset \ u.members) := by
                intro m found
                rw [List.toFinset_cons] at found
                simp only [Finset.mem_sdiff, Finset.mem_insert, inserted] at found ⊢
                tauto
              have := (Finset.card_le_card split).trans (Finset.card_insert_le _ _)
              omega
            have counts : (need : Int) - 1 = ((need - 1 : Nat) : Int) := by omega
            have sum : u.members.card + (need - 1) = s.members.card + need := by omega
            rw [if_neg (by omega), counts, ← ih below (by omega) left, sum]
      · rw [iff_false_right fun room => refused.1 room.1]
        rintro ⟨i, t, ends, full, _⟩
        rcases refused.2 with tested | tested
        · rw [tryLoop_none tested] at ends
          cases ends
        · rw [tryLoop_new tested] at ends
          split at ends
          · simp only [Option.some.injEq, Prod.mk.injEq, true_and] at ends
            obtain ⟨_, rfl⟩ := ends
            omega
          · have := (tryLoop_bound inside ends).2.2
            omega

end Room

section Scan

variable {x : SetData} {s : Sample} {i : Nat} {items : List Bytes}

/-- The member at a place. -/
def SetData.memberAt (x : SetData) (i : Nat) : Bytes := x.members.getD i []

theorem lindex_succ (inside : i < x.hcount) : x.lindex (i + 1) = some (x.memberAt i) := by
  rw [SetData.lindex, SetData.memberAt, List.getD_eq_getElem?_getD]
  simp [List.getElem?_eq_getElem inside]

theorem memberAt_mem (inside : i < x.hcount) : x.memberAt i ∈ x.members :=
  List.mem_of_getElem? (lindex_succ inside)

/-- The members at different places differ. -/
theorem memberAt_injective {j : Nat} (first : i < x.hcount) (second : j < x.hcount)
    (same : x.memberAt i = x.memberAt j) : i = j := by
  apply (List.getElem?_inj first x.nodup).mp
  have at_i : x.members[i]? = some (x.memberAt i) := lindex_succ first
  have at_j : x.members[j]? = some (x.memberAt j) := lindex_succ second
  rw [at_i, at_j, same]

/-- All members are read, and the place is behind the last one. -/
theorem scanLoop_all (all : s.useBits = false) (free : s.maxcnt = 0) {left : Nat}
    (enough : x.hcount ≤ i + left) (inside : i ≤ x.hcount) :
    scanLoop x s left i items = (x.hcount, items ++ x.members.drop i) := by
  induction left generalizing i items with
  | zero =>
      have done : x.members.length ≤ i := enough
      rw [scanLoop, List.drop_eq_nil_of_le done, List.append_nil]
      exact congrArg (·, items) (Nat.le_antisymm inside enough)
  | succ left ih =>
      rw [scanLoop, free]
      by_cases done : x.hcount ≤ i
      · have behind : x.members.length ≤ i := done
        rw [if_pos (.inl done), List.drop_eq_nil_of_le behind, List.append_nil]
        exact congrArg (·, items) (Nat.le_antisymm inside done)
      · have below : i < x.members.length := Nat.lt_of_not_le done
        have member : x.memberAt i = x.members[i] := by
          simp [SetData.memberAt, List.getElem?_eq_getElem below]
        rw [if_neg (by simp [done]), Sample.next, all]
        simp only [Bool.false_eq_true, if_false, lindex_succ below]
        rw [ih (by omega) below, List.append_assoc, List.drop_eq_getElem_cons below, member]
        rfl

/-- One member is read. -/
theorem scanLoop_one (one : s.useBits = false) (single : s.maxcnt = 1) (inside : i < x.hcount) :
    scanLoop x s x.hcount i [] = (i + 1, [x.memberAt i]) := by
  obtain ⟨left, isCount⟩ := Nat.exists_eq_succ_of_ne_zero (Nat.ne_zero_of_lt inside)
  have first : ¬(x.hcount ≤ i ∨ s.maxcnt ≠ 0 ∧ s.maxcnt ≤ ([] : List Bytes).length) := by
    simp [single, Nat.not_le_of_lt inside]
  rw [isCount, scanLoop, if_neg first, Sample.next, one]
  simp only [Bool.false_eq_true, if_false, lindex_succ inside, List.nil_append]
  cases left with
  | zero => rfl
  | succ left => rw [scanLoop, if_pos (.inr (by simp [single]))]

/-- The members with a bit are read in their order. -/
theorem scanLoop_bits (bits : s.useBits = true) (free : s.maxcnt = 0)
    (below : ∀ m ∈ s.bits.members, m < x.hcount) {left : Nat} (enough : x.hcount ≤ i + left) :
    (scanLoop x s left i items).2 =
      items ++ (SetWalk.walk (fun i => SetBits.position (s.bits.next i)) (· + 1) (left + 1) i).map
        x.memberAt := by
  have ends : ∀ i, x.hcount ≤ i → SetBits.position (s.bits.next i) = none := by
    intro i behind
    have first := @SetBits.next_isNext s.bits i
    cases found : SetBits.position (s.bits.next i) with
    | none => rfl
    | some b =>
        rw [found] at first
        have := below b first.1
        have := first.2.1
        omega
  induction left generalizing i items with
  | zero => simp [scanLoop, SetWalk.walk, ends i enough]
  | succ left ih =>
      rw [scanLoop, free, SetWalk.walk]
      by_cases done : x.hcount ≤ i
      · simp [done, ends i done]
      · have first := @SetBits.next_isNext s.bits i
        rw [if_neg (by simp [done]), Sample.next, bits]
        simp only [if_true]
        rcases found : s.bits.next i with ⟨isFound, j⟩
        rw [found] at first
        cases isFound with
        | false => simp [SetBits.position]
        | true =>
            have inside := below j first.1
            have := first.2.1
            simp only [SetBits.position, lindex_succ inside]
            rw [ih (by omega), List.append_assoc, List.map_cons]
            rfl

/-- The members with a bit are the items. -/
theorem scanLoop_drawn (bits : s.useBits = true) (free : s.maxcnt = 0)
    (below : ∀ m ∈ s.bits.members, m < x.hcount) :
    (scanLoop x s x.hcount 0 []).2 = (s.bits.members.sort (· ≤ ·)).map x.memberAt := by
  have few : s.bits.members.card < x.hcount + 1 := by
    have inside : s.bits.members ⊆ Finset.range x.hcount := by
      intro m found
      exact Finset.mem_range.mpr (below m found)
    have := Finset.card_le_card inside
    rw [Finset.card_range] at this
    omega
  rw [scanLoop_bits bits free below (by omega), List.nil_append]
  exact congrArg (List.map x.memberAt) (SetBits.nextLoop_eq_sort few)

end Scan

section Pop

variable {x : SetData} {bits : SetBits}

theorem members_spopn (x : SetData) (j : Nat) :
    (x.spopn (j + 1)).members = x.members.eraseIdx j :=
  rfl

/-- A member that leaves is the only one. -/
theorem mem_spopn (x : SetData) (j : Nat) (y : Bytes) :
    y ∈ (x.spopn (j + 1)).members ↔ y ∈ x.members ∧ x.members[j]? ≠ some y := by
  rw [members_spopn, List.mem_eraseIdx_iff_getElem?]
  apply Iff.intro
  · rintro ⟨i, other, found⟩
    refine ⟨List.mem_of_getElem? found, fun same => other ?_⟩
    have inside := (List.getElem?_eq_some_iff.mp found).1
    exact (List.getElem?_inj inside x.nodup).mp (found.trans same.symm)
  · rintro ⟨member, other⟩
    obtain ⟨i, found⟩ := List.getElem?_of_mem member
    refine ⟨i, fun same => other ?_, found⟩
    rw [← same, found]

/-- The places leave from the last one to the first one. -/
def spopDown (x : SetData) (js : List Nat) : SetData := js.foldl (fun x j => x.spopn (j + 1)) x

/-- The members at the places leave, where each place is below the one before it. -/
theorem mem_spopDown {js : List Nat} (down : js.Pairwise (· > ·)) (y : Bytes) :
    y ∈ (spopDown x js).members ↔ y ∈ x.members ∧ ∀ j ∈ js, x.members[j]? ≠ some y := by
  induction js generalizing x with
  | nil => simp [spopDown]
  | cons j js ih =>
      obtain ⟨lower, down⟩ := List.pairwise_cons.mp down
      have same : ∀ k ∈ js, (x.spopn (j + 1)).members[k]? = x.members[k]? := by
        intro k later
        rw [members_spopn, List.getElem?_eraseIdx_of_lt (lower k later)]
      rw [spopDown, List.foldl_cons, ← spopDown, ih down, mem_spopn, List.forall_mem_cons,
        and_assoc]
      apply and_congr_right
      intro _
      apply and_congr_right
      intro _
      apply forall₂_congr
      intro k later
      rw [same k later]

theorem popLoop_eq (bits : SetBits) (left j : Nat) (x : SetData) :
    popLoop bits left j x =
      spopDown x (SetWalk.walk (fun i => SetBits.position (bits.prev i)) id left j) := by
  induction left generalizing j x with
  | zero => rfl
  | succ left ih =>
      rw [popLoop, SetWalk.walk]
      rcases bits.prev j with ⟨isFound, k⟩
      cases isFound with
      | false => rfl
      | true => exact ih k _

/-- The members with a bit leave. -/
theorem mem_popLoop (few : bits.members.card < x.hcount) (below : ∀ m ∈ bits.members, m < x.hcount)
    (y : Bytes) : y ∈ (popLoop bits x.hcount x.hcount x).members ↔
      y ∈ x.members ∧ y ∉ (bits.members.sort (· ≤ ·)).map x.memberAt := by
  have listed := @SetBits.prevLoop_eq_sort bits x.hcount x.hcount few
  rw [SetBits.prevLoop, Finset.filter_true_of_mem below] at listed
  rw [popLoop_eq, listed, mem_spopDown (Finset.sortedGT_sort _).pairwise]
  apply and_congr_right
  intro _
  rw [List.mem_map]
  apply Iff.intro
  · rintro others ⟨j, drawn, same⟩
    rw [Finset.mem_sort] at drawn
    apply others j ((Finset.mem_sort _).mpr drawn)
    rw [← same]
    exact lindex_succ (below j drawn)
  · intro others j drawn same
    rw [Finset.mem_sort] at drawn
    have here : x.members[j]? = some (x.memberAt j) := lindex_succ (below j drawn)
    exact others ⟨j, (Finset.mem_sort _).mpr drawn, Option.some.inj (here.symm.trans same)⟩

end Pop

section Drawn

variable {heap : Nat → Bool} {s t : SetBits} {count : Nat}

/-- A complement below the count works, or is undefined, or finds no memory. -/
theorem flip_cases (inside : s.last < s.size) (below : ∀ m ∈ s.members, m < count) :
    ((RoomAt heap s.size (count / 64) ∧ count % 64 < 31) ∧
      ∃ t, s.flip heap count = some (true, t) ∧ t.members = Finset.range count \ s.members) ∨
    ¬(RoomAt heap s.size (count / 64) ∧ count % 64 < 31) ∧
      (s.flip heap count = none ∨ s.flip heap count = some (false, s)) := by
  by_cases room : RoomAt heap s.size (count / 64)
  · by_cases defined : count % 64 < 31
    · obtain ⟨t, flipped, _, _, bits⟩ := SetBits.flip_fits inside room defined
      refine .inl ⟨⟨room, defined⟩, t, flipped, ?_⟩
      ext i
      have clear : count ≤ i → s.isSet i = false := by
        intro behind
        rw [← Bool.not_eq_true, ← SetBits.mem_members]
        exact fun member => absurd (below i member) (by omega)
      rw [SetBits.mem_members, bits, Finset.mem_sdiff, Finset.mem_range, SetBits.mem_members]
      by_cases word : i / 64 * 64 < count
      · rw [if_pos word]
        simp [and_comm]
      · have behind : count ≤ i := by omega
        simp [word, clear behind, Nat.not_lt_of_le behind]
    · refine .inr ⟨fun both => defined both.2, .inl ?_⟩
      obtain ⟨t, extended, _⟩ := SetBits.extend_fits inside room
      rw [SetBits.flip, extended]
      simp [Nat.le_of_not_lt defined]
  · refine .inr ⟨fun both => room both.1, ?_⟩
    rcases SetBits.extend_not_fits inside room with refused | refused
    · exact .inl (by rw [SetBits.flip, refused]; rfl)
    · exact .inr (by rw [SetBits.flip, refused]; rfl)

/-- The bits that are drawn for a number of items: their complement is smaller behind the half. -/
def needed (count n : Nat) : Nat := if count / 2 < n then count - n else n

/-- The complement has room, if there is one. -/
def FlipRoom (heap : Nat → Bool) (count n size : Nat) : Prop :=
  count / 2 < n → RoomAt heap size (count / 64) ∧ count % 64 < 31

variable {env : SampleEnv} {draws : List (BitVec 64)} {n : Nat}

/-- The items behind the first one are drawn. -/
theorem sample_eq (fewer : n < count) (other : n ≠ 1) :
    sample env count draws n =
      (drawLoop env count draws (needed count n) (.init env.memory)).bind fun bits =>
        if count / 2 < n then
          (bits.flip env.heap count).map fun r => { useBits := true, bits := r.2 }
        else some { useBits := true, bits := bits } := by
  have low : ¬((n : Int) < 0 ∨ (count : Int) ≤ n) := by omega
  rw [sample.eq_def, if_neg low, if_neg (by omega)]
  have isCount : ((count / 2 : Nat) : Int) < n ↔ count / 2 < n := Nat.cast_lt
  by_cases flips : count / 2 < n
  · have isNeed : (count : Int) - n = (needed count n : Nat) := by
      rw [needed, if_pos flips]
      omega
    simp only [isCount.mpr flips, decide_true, if_true, isNeed, if_pos flips]
    cases drawLoop env count draws (needed count n) (.init env.memory) with
    | none => rfl
    | some bits =>
        simp only [Option.bind_eq_bind, Option.bind_some]
        cases bits.flip env.heap count with
        | none => rfl
        | some r => rfl
  · have isNeed : n = needed count n := by rw [needed, if_neg flips]
    have low := mt isCount.mp flips
    simp only [low, decide_false, Bool.false_eq_true, if_false, if_neg flips, ← isNeed]
    rfl

/-- The bits that are drawn are below the count, and at most as many as are needed. -/
theorem drawLoop_bound (positive : 0 < count) {need : Nat}
    (drawn : drawLoop env count draws need (.init env.memory) = some t) :
    t.last < t.size ∧ (∀ m ∈ t.members, m < count) ∧ t.members.card ≤ need := by
  have start := SetBits.refines_init env.memory
  rw [drawLoop_eq, Option.bind_eq_some_iff] at drawn
  obtain ⟨⟨isDone, i, bits⟩, ends, done⟩ := drawn
  cases isDone with
  | false => cases done
  | true =>
      obtain rfl : bits = t := Option.some.inj done
      obtain ⟨inside, member, few⟩ := tryLoop_bound start.inside ends
      rw [start.members, Finset.card_empty] at few
      refine ⟨inside, fun m found => ?_, by omega⟩
      rcases member m found with old | tried
      · rw [start.members] at old
        exact absurd old (Finset.notMem_empty m)
      · exact tries_lt positive m tried

/-- As many bits as are needed are drawn if each try finds its word, and only then. -/
theorem drawLoop_exact (last : Nat → Prop) {need : Nat} (some : 0 < need)
    (enough : need ≤ (tries env.indexMask count draws).toFinset.card) :
    (∃ t, drawLoop env count draws need (.init env.memory) = .some t ∧ t.members.card = need ∧
        last t.size) ↔
      Room env.heap last (tries env.indexMask count draws) 16 ∅ need := by
  have start := SetBits.refines_init env.memory
  have exact := @tryLoop_exact env.heap _ (tries env.indexMask count draws) last start.inside need
    some (by rw [start.members, Finset.sdiff_empty]; exact enough)
  rw [start.members, Finset.card_empty, Nat.zero_add] at exact
  refine Iff.trans ?_ exact
  rw [drawLoop_eq]
  apply Iff.intro
  · rintro ⟨t, drawn, holds⟩
    obtain ⟨⟨isDone, i, bits⟩, ends, done⟩ := Option.bind_eq_some_iff.mp drawn
    cases isDone with
    | false => cases done
    | true =>
        obtain rfl := Option.some.inj done
        exact ⟨i, bits, ends, holds⟩
  · rintro ⟨i, t, ends, holds⟩
    exact ⟨t, by rw [ends]; rfl, holds⟩

/-- The bits choose the items, which are all below the count. -/
theorem sample_drawn {s : Sample} (fewer : n < count) (other : n ≠ 1)
    (sampled : sample env count draws n = some s) :
    s.useBits = true ∧ s.maxcnt = 0 ∧ s.start = 0 ∧ ∀ m ∈ s.bits.members, m < count := by
  rw [sample_eq fewer other, Option.bind_eq_some_iff] at sampled
  obtain ⟨bits, drawn, sampled⟩ := sampled
  obtain ⟨inside, below, _⟩ := drawLoop_bound (Nat.zero_lt_of_lt fewer) drawn
  split at sampled
  · rcases @flip_cases env.heap bits count inside below with works | refused
    · obtain ⟨_, t, flipped, complement⟩ := works
      rw [flipped] at sampled
      obtain rfl := Option.some.inj sampled
      refine ⟨rfl, rfl, rfl, fun m found => ?_⟩
      rw [complement, Finset.mem_sdiff, Finset.mem_range] at found
      exact found.1
    · rcases refused.2 with undefined | refused
      · rw [undefined] at sampled
        cases sampled
      · rw [refused] at sampled
        obtain rfl := Option.some.inj sampled
        exact ⟨rfl, rfl, rfl, below⟩
  · obtain rfl := Option.some.inj sampled
    exact ⟨rfl, rfl, rfl, below⟩

/-- As many bits as items are set if the tries and the complement have room, and only then. -/
theorem sample_exact (more : 1 < n) (fewer : n < count)
    (enough : needed count n ≤ (tries env.indexMask count draws).toFinset.card) :
    (∃ s, sample env count draws n = some s ∧ s.bits.members.card = n) ↔
      Room env.heap (FlipRoom env.heap count n) (tries env.indexMask count draws) 16 ∅
        (needed count n) := by
  have positive : 0 < needed count n := by
    rw [needed]
    split <;> omega
  rw [← drawLoop_exact _ positive enough, sample_eq fewer (by omega)]
  by_cases flips : count / 2 < n
  · have isNeed : needed count n = count - n := if_pos flips
    simp only [if_pos flips]
    apply Iff.intro
    · rintro ⟨s, sampled, full⟩
      obtain ⟨bits, drawn, sampled⟩ := Option.bind_eq_some_iff.mp sampled
      obtain ⟨inside, below, few⟩ := drawLoop_bound (Nat.zero_lt_of_lt fewer) drawn
      rcases @flip_cases env.heap bits count inside below with works | refused
      · obtain ⟨room, t, flipped, complement⟩ := works
        rw [flipped] at sampled
        obtain rfl := Option.some.inj sampled
        have within : bits.members ⊆ Finset.range count := fun m found =>
          Finset.mem_range.mpr (below m found)
        rw [complement, Finset.card_sdiff_of_subset within, Finset.card_range] at full
        exact ⟨bits, drawn, by omega, fun _ => room⟩
      · rcases refused.2 with undefined | refused
        · rw [undefined] at sampled
          cases sampled
        · rw [refused] at sampled
          obtain rfl := Option.some.inj sampled
          dsimp only at full
          omega
    · rintro ⟨bits, drawn, full, room⟩
      obtain ⟨inside, below, _⟩ := drawLoop_bound (Nat.zero_lt_of_lt fewer) drawn
      rcases @flip_cases env.heap bits count inside below with works | refused
      · obtain ⟨_, t, flipped, complement⟩ := works
        refine ⟨{ useBits := true, bits := t }, by rw [drawn]; simp [flipped], ?_⟩
        have within : bits.members ⊆ Finset.range count := fun m found =>
          Finset.mem_range.mpr (below m found)
        rw [complement, Finset.card_sdiff_of_subset within, Finset.card_range]
        omega
      · exact absurd (room flips) refused.1
  · have isNeed : needed count n = n := if_neg flips
    simp only [if_neg flips, isNeed]
    apply Iff.intro
    · rintro ⟨s, sampled, full⟩
      obtain ⟨bits, drawn, sampled⟩ := Option.bind_eq_some_iff.mp sampled
      obtain rfl := Option.some.inj sampled
      exact ⟨bits, drawn, full, fun half => absurd half flips⟩
    · rintro ⟨bits, drawn, full, _⟩
      exact ⟨{ useBits := true, bits := bits }, by rw [drawn]; rfl, full⟩

end Drawn

section Spec

variable (env : SampleEnv) (cmd : SampleCmd) (msg : CommandMsg) (arg0 : Bytes)
  (draws : List (BitVec 64)) (entry : Option (Entry SetData)) (n : Nat)

/-- The members of the set of a key. -/
def membersOf (entry : Option (Entry SetData)) : List Bytes :=
  match live env.table entry with
  | some e => e.data.members
  | none => []

/-- The cardinality of the set of a key. -/
def cardinality : Nat := (membersOf env entry).length

/-- The items have left the set, and the other members are in it. A set that is left keeps its type
and its expiry, and a set that has lost its last member is deleted. -/
structure Popped (items : List Bytes) (after : Option (Entry SetData)) : Prop where
  members : ∀ m, m ∈ membersOf env after ↔ m ∈ membersOf env entry ∧ m ∉ items
  kept : ∀ e', live env.table after = some e' →
    ∃ e, live env.table entry = some e ∧ e'.type = e.type ∧ e'.exp = e.exp ∧
      (e'.data.members = [] → items = [])

/-- The reply holds as many distinct members as there are, at most the number, and SPOP leaves the
others while SRANDMEMBER leaves the set unchanged. -/
def SamplesWhole : Prop :=
  ∃ run items, doSmultiscan env cmd msg draws entry = some run ∧
    run.reply arg0 = sendArray items ∧ items.Nodup ∧ (∀ m ∈ items, m ∈ membersOf env entry) ∧
    items.length = min n (cardinality env entry) ∧
    match cmd with
    | .spop => Popped env entry items (run.settle .set)
    | .srandmember => live env.table (run.settle .set) = live env.table entry

/-- The random numbers give enough distinct tries. -/
def DrawsEnough : Prop :=
  (if cardinality env entry ≤ n then 0 else needed (cardinality env entry) n) ≤
    (tries env.indexMask (cardinality env entry) draws).toFinset.card

/-- All members are taken, or one is drawn, or each try finds its word until as many bits as are
needed are set, and so does their complement. -/
def SampleCondition : Prop :=
  cardinality env entry ≤ n ∨ n = 1 ∨
    1 < n ∧ Room env.heap (FlipRoom env.heap (cardinality env entry) n)
      (tries env.indexMask (cardinality env entry) draws) 16 ∅
      (needed (cardinality env entry) n)

end Spec

section Reply

/-- The header of an array tells the number of its items. -/
theorem length_of_sendArray {items others : List Bytes}
    (same : sendArray items = sendArray others) : items.length = others.length :=
  (numberLine_injective (List.tail_eq_of_cons_eq same)).1

variable {env : SampleEnv} {cmd : SampleCmd} {msg : CommandMsg} {draws : List (BitVec 64)}
  {entry : Option (Entry SetData)} {e : Entry SetData} {n : Nat} {s : Sample}

/-- The items that are read. -/
def readItems (e : Entry SetData) (s : Sample) : Nat × List Bytes :=
  scanLoop e.data s e.data.hcount s.start []

/-- The entry behind a command that works. -/
def leftEntry (cmd : SampleCmd) (e : Entry SetData) (s : Sample) : Option (Entry SetData) :=
  match cmd with
  | .srandmember => some e
  | .spop =>
      if (readItems e s).2.isEmpty then some e
      else
        let x := popItems e.data s (readItems e s).1 (readItems e s).2.length
        if x.hcount = 0 then none else some { e with data := x }

/-- A sampling of a set that is there replies with the items. -/
theorem doSmultiscan_some (works : env.table.Works) (tombstoned : env.tombstoned = true)
    (accepted : optionalInt msg 2 1 = some (n : Int)) (found : live env.table entry = some e)
    (isSet : e.type = .set) (nonempty : e.data.hcount ≠ 0) (arg0 : Bytes) :
    doSmultiscan env cmd msg draws entry = none ∧ sample env e.data.hcount draws n = none ∨
    ∃ s run, sample env e.data.hcount draws n = some s ∧
      doSmultiscan env cmd msg draws entry = some run ∧
      run.reply arg0 = sendArray (readItems e s).2 ∧ run.settle .set = leftEntry cmd e s := by
  have runs : doSmultiscan env cmd msg draws entry =
      sampleMembers env cmd draws n ⟨some .keyOk, some e, false, .set⟩ e := by
    rw [doSmultiscan, accepted]
    cases cmd with
    | spop =>
        dsimp only
        rw [getKeyWrite_works works, found]
        simp [isSet, works.valued]
    | srandmember =>
        dsimp only
        rw [getKeyRead_works works, found]
        simp [isSet, works.valued]
  rw [runs, sampleMembers, if_neg nonempty]
  cases sampled : sample env e.data.hcount draws n with
  | none => exact .inl ⟨rfl, rfl⟩
  | some s =>
      refine .inr ⟨s, _, rfl, rfl, ?_⟩
      cases cmd with
      | srandmember =>
          simp [sampleRead, works.validated, KeyRun.reply, Fetched.read, Fetched.stop, sendStatus,
            KeyRun.settle, readItems, leftEntry]
      | spop =>
          dsimp only
          rw [← readItems, samplePop, leftEntry]
          by_cases empty : (readItems e s).2.isEmpty = true
          · simp [empty, KeyRun.reply, Fetched.stop, sendStatus, KeyRun.settle]
          · by_cases last : (popItems e.data s (readItems e s).1 (readItems e s).2.length).hcount = 0
            · simp [empty, last, tombstoned, KeyRun.reply, Fetched.stop, sendStatus, KeyRun.settle]
            · simp [empty, last, KeyRun.reply, Fetched.stop, sendStatus, KeyRun.settle]

/-- The items are distinct members, as many as there are and at most the number, and exactly they
leave the set that is popped. -/
structure ItemsWhole (e : Entry SetData) (s : Sample) (n : Nat) : Prop where
  nodup : (readItems e s).2.Nodup
  members : ∀ m ∈ (readItems e s).2, m ∈ e.data.members
  length : (readItems e s).2.length = min n e.data.hcount
  popped : ∀ m, m ∈ (popItems e.data s (readItems e s).1 (readItems e s).2.length).members ↔
    m ∈ e.data.members ∧ m ∉ (readItems e s).2

/-- All members are the items. -/
theorem itemsWhole_all (all : e.data.hcount ≤ n)
    (sampled : sample env e.data.hcount draws n = some s) : ItemsWhole e s n := by
  rw [sample.eq_def, if_pos (.inr (by omega))] at sampled
  obtain rfl := Option.some.inj sampled
  have items : readItems e { bits := .init env.memory } = (e.data.hcount, e.data.members) :=
    scanLoop_all rfl rfl (by simp) (Nat.zero_le _)
  have whole : e.data.members.length = e.data.hcount := rfl
  refine ⟨?_, ?_, ?_, ?_⟩ <;> rw [items]
  · exact e.data.nodup
  · exact fun m found => found
  · rw [Nat.min_eq_right all, whole]
  · intro m
    dsimp only
    rw [whole, popItems]
    split
    · rename_i single
      rw [single, mem_spopn e.data 0]
      obtain ⟨member, only⟩ := List.length_eq_one_iff.mp single
      rw [only]
      simp [eq_comm]
    · rw [if_pos rfl]
      simp [SetData.spopall, SetData.empty]

/-- One member is the item. -/
theorem itemsWhole_one (more : 1 < e.data.hcount)
    (sampled : sample env e.data.hcount draws (1 : Nat) = some s) : ItemsWhole e s 1 := by
  rw [sample.eq_def, if_neg (by omega), if_pos (by rfl)] at sampled
  cases draws with
  | nil => cases sampled
  | cons draw draws =>
      obtain rfl := Option.some.inj sampled
      have inside := belowCount_lt (Nat.zero_lt_of_lt more) (draw.toNat &&& env.indexMask)
      obtain ⟨i, isStart⟩ : ∃ i, i = belowCount e.data.hcount (draw.toNat &&& env.indexMask) :=
        ⟨_, rfl⟩
      rw [← isStart] at inside ⊢
      have items : readItems e { start := i, maxcnt := 1, bits := .init env.memory } =
          (i + 1, [e.data.memberAt i]) := scanLoop_one rfl rfl inside
      refine ⟨?_, ?_, ?_, ?_⟩ <;> rw [items]
      · exact List.nodup_singleton _
      · intro m found
        rw [List.mem_singleton.mp found]
        exact memberAt_mem inside
      · rw [Nat.min_eq_left (Nat.le_of_lt more)]
        rfl
      · intro m
        have here : e.data.members[i]? = some (e.data.memberAt i) := lindex_succ inside
        dsimp only
        rw [List.length_singleton, popItems, if_pos rfl, mem_spopn, List.mem_singleton, here, ne_eq,
          Option.some.injEq]
        exact and_congr_right fun _ => not_congr eq_comm

/-- The members that are drawn, or those that are not drawn, are the items. -/
theorem itemsWhole_drawn (more : 1 < n) (fewer : n < e.data.hcount)
    (sampled : sample env e.data.hcount draws n = some s) (full : s.bits.members.card = n) :
    ItemsWhole e s n := by
  obtain ⟨useBits, free, start, below⟩ := sample_drawn fewer (by omega) sampled
  have items : (readItems e s).2 = (s.bits.members.sort (· ≤ ·)).map e.data.memberAt := by
    rw [readItems, start]
    exact scanLoop_drawn useBits free below
  have length : (readItems e s).2.length = n := by
    rw [items, List.length_map, Finset.length_sort, full]
  refine ⟨?_, ?_, ?_, ?_⟩
  · rw [items]
    apply List.Nodup.map_on _ (Finset.sort_nodup _ _)
    intro i first j second same
    exact memberAt_injective (below i ((Finset.mem_sort _).mp first))
      (below j ((Finset.mem_sort _).mp second)) same
  · intro m found
    rw [items] at found
    obtain ⟨i, drawn, rfl⟩ := List.mem_map.mp found
    exact memberAt_mem (below i ((Finset.mem_sort _).mp drawn))
  · rw [length, Nat.min_eq_left (Nat.le_of_lt fewer)]
  · intro m
    rw [length, popItems, if_neg (by omega), if_neg (by omega), items]
    exact mem_popLoop (full ▸ fewer) below m

/-- The members that were not popped are left, and an empty set is deleted. -/
theorem popped_leftEntry (found : live env.table entry = some e) {n : Nat} (positive : 0 < n)
    (nonempty : e.data.hcount ≠ 0) (whole : ItemsWhole e s n) :
    Popped env entry (readItems e s).2 (leftEntry .spop e s) := by
  have some : (readItems e s).2.isEmpty = false := by
    have length := whole.length
    rw [List.isEmpty_eq_false_iff_exists_mem]
    exact List.exists_mem_of_length_pos (by omega)
  obtain ⟨x, isLeft⟩ : ∃ x, x = popItems e.data s (readItems e s).1 (readItems e s).2.length :=
    ⟨_, rfl⟩
  have left : leftEntry .spop e s = if x.hcount = 0 then none else .some { e with data := x } := by
    rw [leftEntry, some, isLeft]
    rfl
  have stays : live env.table (.some { e with data := x }) = .some { e with data := x } := by
    have notOver := found
    rw [live, Option.filter_eq_some_iff] at notOver
    rw [live, Option.filter_some, if_pos notOver.2]
  have members : membersOf env (leftEntry .spop e s) = x.members := by
    rw [left, membersOf]
    split
    · rename_i here
      split at here
      · cases here
      · rw [stays] at here
        rw [← Option.some.inj here]
    · rename_i gone
      split at gone
      · rename_i empty
        exact (List.length_eq_zero_iff.mp empty).symm
      · rw [stays] at gone
        cases gone
  refine ⟨fun m => ?_, fun e' isThere => ?_⟩
  · rw [members, isLeft, whole.popped m, membersOf, found]
  · rw [left] at isThere
    split at isThere
    · cases isThere
    · rename_i rest
      rw [stays] at isThere
      obtain rfl := Option.some.inj isThere
      refine ⟨e, found, rfl, rfl, fun empty => absurd ?_ rest⟩
      exact List.length_eq_zero_iff.mpr empty

/-- Nothing leaves a set that is the same. -/
theorem popped_nothing {after : Option (Entry SetData)}
    (same : live env.table after = live env.table entry) : Popped env entry [] after := by
  refine ⟨fun m => ?_, fun e' isThere => ?_⟩
  · rw [membersOf, membersOf, same]
    simp
  · exact ⟨e', same ▸ isThere, rfl, rfl, fun _ => rfl⟩

/-- A set without members is sampled with no items. -/
theorem samplesWhole_nothing (works : env.table.Works)
    (accepted : optionalInt msg 2 1 = some (n : Int))
    (isSet : ∀ e, live env.table entry = some e → e.type = .set)
    (empty : membersOf env entry = []) (arg0 : Bytes) :
    SamplesWhole env cmd msg arg0 draws entry n := by
  have none : cardinality env entry = 0 := by rw [cardinality, empty, List.length_nil]
  have replies : ∃ run, doSmultiscan env cmd msg draws entry = some run ∧
      run.reply arg0 = sendArray [] ∧ run.settle .set = live env.table entry := by
    cases found : live env.table entry with
    | none =>
        cases cmd with
        | spop =>
            rw [doSmultiscan, accepted]
            dsimp only
            rw [getKeyWrite_works works, found]
            exact ⟨_, rfl, by simp [sampleNone, KeyRun.reply, Fetched.stop, sendStatus], rfl⟩
        | srandmember =>
            rw [doSmultiscan, accepted]
            dsimp only
            rw [getKeyRead_works works, found]
            refine ⟨_, rfl, ?_⟩
            simp [sampleNone, sampleRead, works.validated, KeyRun.reply, Fetched.read, Fetched.stop,
              sendStatus, KeyRun.settle]
    | some e =>
        have type := isSet e found
        have noMember : e.data.hcount = 0 := by
          rw [membersOf, found] at empty
          exact List.length_eq_zero_iff.mpr empty
        cases cmd with
        | spop =>
            rw [doSmultiscan, accepted]
            dsimp only
            rw [getKeyWrite_works works, found]
            simp [type, works.valued, sampleMembers, noMember, sampleNone, KeyRun.reply,
              Fetched.stop, sendStatus, KeyRun.settle]
        | srandmember =>
            rw [doSmultiscan, accepted]
            dsimp only
            rw [getKeyRead_works works, found]
            simp [type, works.valued, sampleMembers, noMember, sampleNone, sampleRead,
              works.validated, KeyRun.reply, Fetched.read, Fetched.stop, sendStatus, KeyRun.settle]
  obtain ⟨run, ran, reply, settled⟩ := replies
  refine ⟨run, [], ran, reply, List.nodup_nil, by simp, by simp [none], ?_⟩
  have same : live env.table (run.settle .set) = live env.table entry := by
    rw [settled, live_live]
  cases cmd with
  | spop => exact popped_nothing same
  | srandmember => exact same

/-- Without a number the tries go on for ever. -/
theorem not_samplesWhole_zero (works : env.table.Works) (tombstoned : env.tombstoned = true)
    (accepted : optionalInt msg 2 1 = some ((0 : Nat) : Int))
    (found : live env.table entry = some e) (isSet : e.type = .set)
    (nonempty : e.data.hcount ≠ 0) (arg0 : Bytes) :
    ¬SamplesWhole env cmd msg arg0 draws entry 0 := by
  rintro ⟨run, items, ran, _⟩
  rcases @doSmultiscan_some env cmd msg draws entry e 0 works tombstoned accepted found isSet
    nonempty arg0 with refused | replied
  · rw [ran] at refused
    cases refused.1
  · obtain ⟨s, _, sampled, _⟩ := replied
    rw [sample_eq (by omega) (by decide), Option.bind_eq_some_iff] at sampled
    obtain ⟨bits, drawn, _⟩ := sampled
    rw [drawLoop_eq, Option.bind_eq_some_iff] at drawn
    obtain ⟨r, ends, done⟩ := drawn
    have none : needed e.data.hcount 0 = 0 := by rw [needed, if_neg (by omega)]
    rw [none] at ends
    rw [tryLoop_endless (by simp) _ r ends] at done
    cases done

end Reply

/-- SPOP with a number. -/
def spopMsg (n : Nat) : CommandMsg :=
  ⟨[mkStr (text "spop"), mkStr (text "k"), mkStr (int64ToString n)], by simp⟩

theorem spopMsg_number {n : Nat} (fits : n < 2 ^ 63) :
    optionalInt (spopMsg n) 2 1 = some (n : Int) := by
  rw [optionalInt, if_pos (show 2 < (spopMsg n).argc from Nat.lt_succ_self 2)]
  exact getArgInt_int64ToString rfl fits

/-- A set of three members. -/
def threeMembers : Entry SetData := ⟨.set, ⟨[[1], [2], [3]], by decide⟩, 0⟩

/-- A sampling meets its number under this condition only. -/
theorem doSmultiscan_exact {env : SampleEnv} (cmd : SampleCmd) (msg : CommandMsg) (arg0 : Bytes)
    (draws : List (BitVec 64)) (entry : Option (Entry SetData)) (n : Nat)
    (works : env.table.Works) (tombstoned : env.tombstoned = true)
    (accepted : optionalInt msg 2 1 = some (n : Int))
    (isSet : ∀ e, live env.table entry = some e → e.type = .set)
    (enough : DrawsEnough env draws entry n) :
    SamplesWhole env cmd msg arg0 draws entry n ↔ SampleCondition env draws entry n := by
  by_cases empty : membersOf env entry = []
  · have none : cardinality env entry = 0 := by rw [cardinality, empty, List.length_nil]
    refine iff_of_true (samplesWhole_nothing works accepted isSet empty arg0) (.inl ?_)
    rw [none]
    exact Nat.zero_le n
  · obtain ⟨e, found⟩ : ∃ e, live env.table entry = some e := by
      cases found : live env.table entry with
      | none => exact absurd (by rw [membersOf, found]) empty
      | some e => exact ⟨e, rfl⟩
    have members : membersOf env entry = e.data.members := by rw [membersOf, found]
    have count : cardinality env entry = e.data.hcount := by rw [cardinality, members]; rfl
    have nonempty : e.data.hcount ≠ 0 := by
      rw [members] at empty
      exact fun none => empty (List.length_eq_zero_iff.mp none)
    -- A sampling that works has items, and items that are whole are a sampling that works.
    have whole : ∀ s, 0 < n → sample env e.data.hcount draws n = some s → ItemsWhole e s n →
        SamplesWhole env cmd msg arg0 draws entry n := by
      intro s positive sampled isWhole
      rcases @doSmultiscan_some env cmd msg draws entry e n works tombstoned accepted found
        (isSet e found) nonempty arg0 with refused | replied
      · rw [sampled] at refused
        cases refused.2
      · obtain ⟨s', run, sampled', ran, reply, settled⟩ := replied
        obtain rfl := Option.some.inj (sampled.symm.trans sampled')
        refine ⟨run, _, ran, reply, isWhole.nodup, fun m item => members ▸ isWhole.members m item,
          count ▸ isWhole.length, ?_⟩
        rw [settled]
        cases cmd with
        | spop => exact popped_leftEntry found positive nonempty isWhole
        | srandmember =>
            dsimp only
            rw [leftEntry, ← found, live_live]
    rw [SampleCondition, count]
    rw [DrawsEnough, count] at enough
    by_cases all : e.data.hcount ≤ n
    · obtain ⟨s, sampled⟩ : ∃ s, sample env e.data.hcount draws n = some s :=
        ⟨_, by rw [sample.eq_def, if_pos (.inr (by omega))]⟩
      exact iff_of_true (whole s (by omega) sampled (itemsWhole_all all sampled)) (.inl all)
    rw [if_neg all] at enough
    by_cases one : n = 1
    · refine iff_of_true ?_ (.inr (.inl one))
      cases draws with
      | nil =>
          have need : 0 < needed e.data.hcount n := by
            rw [needed]
            split <;> omega
          have noTries : (tries env.indexMask e.data.hcount []).toFinset.card = 0 := rfl
          omega
      | cons draw draws =>
          obtain ⟨s, sampled⟩ : ∃ s, sample env e.data.hcount (draw :: draws) n = some s :=
            ⟨_, by rw [sample.eq_def, if_neg (by omega), if_pos (by omega)]⟩
          apply whole s (by omega) sampled
          rw [one] at sampled ⊢
          exact itemsWhole_one (by omega) sampled
    rw [or_iff_right all, or_iff_right one]
    by_cases more : 1 < n
    · rw [and_iff_right more, ← sample_exact more (by omega) enough]
      apply Iff.intro
      · rintro ⟨run, items, ran, reply, _, _, length, _⟩
        rcases @doSmultiscan_some env cmd msg draws entry e n works tombstoned accepted found
          (isSet e found) nonempty arg0 with refused | replied
        · rw [ran] at refused
          cases refused.1
        · obtain ⟨s, run', sampled, ran', reply', _⟩ := replied
          obtain rfl := Option.some.inj (ran.symm.trans ran')
          obtain ⟨useBits, free, start, below⟩ := sample_drawn (by omega) one sampled
          have same := length_of_sendArray (reply.symm.trans reply')
          refine ⟨s, sampled, ?_⟩
          rw [readItems, start, scanLoop_drawn useBits free below, List.length_map,
            Finset.length_sort] at same
          omega
      · rintro ⟨s, sampled, full⟩
        exact whole s (by omega) sampled (itemsWhole_drawn more (by omega) sampled full)
    · have zero : n = 0 := by omega
      refine iff_of_false ?_ fun both => more both.1
      rw [zero] at accepted ⊢
      exact not_samplesWhole_zero works tombstoned accepted found (isSet e found) nonempty arg0

/-- Two of three members leave when the complement of one try is taken. -/
theorem doSmultiscan_exact_complement :
    SamplesWhole { indexMask := 3 } .spop (spopMsg 2) [] [2#64] (some threeMembers) 2 := by
  have count : cardinality { indexMask := 3 } (some threeMembers) = 3 := rfl
  have below : belowCount 3 2 = 2 := by rw [belowCount, if_neg (by decide)]
  have isTry : ∃ js, tries 3 3 [2#64] = 2 :: js := by
    rw [tries, List.flatMap_cons, wordTries]
    exact ⟨_, by rw [show (2#64).toNat &&& 3 = 2 from rfl, below]; rfl⟩
  obtain ⟨js, isTries⟩ := isTry
  apply (doSmultiscan_exact .spop (spopMsg 2) [] [2#64] (some threeMembers) 2 quietEnv_works rfl
    (spopMsg_number (by decide)) (by decide) ?_).mpr
  · refine .inr (.inr ⟨by decide, ?_⟩)
    rw [count, isTries, show needed 3 2 = 1 from rfl, Room, if_neg (by decide),
      if_neg (Finset.notMem_empty 2), room_zero]
    exact ⟨.inl (by decide), fun _ => ⟨.inl (by decide), by decide⟩⟩
  · rw [DrawsEnough, count, isTries, if_neg (by decide), show needed 3 2 = 1 from rfl]
    exact Finset.card_pos.mpr ⟨2, by simp⟩

/-- A number of zero makes SPOP go on for ever. -/
theorem not_doSmultiscan_exact :
    ¬∃ draws, SamplesWhole { indexMask := 3 } .spop (spopMsg 0) [] draws (some threeMembers) 0 := by
  intro given
  obtain ⟨draws, whole⟩ := given
  exact not_samplesWhole_zero quietEnv_works rfl (spopMsg_number (by decide)) rfl rfl (by decide) [] whole

end Raids.Key
