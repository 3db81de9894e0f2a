import Raids.Construction.Memcached.Merge
import Raids.Proof.Memcached.Reassembly

namespace Raids.Memcached

section Scan

variable {α : Type} {id : UInt16}

/-- The scan takes the first frame of the request with the number. -/
theorem takeSeqno_fst (seqno : Nat) (entries : List (UdpEntry α)) :
    (takeSeqno id seqno entries).1 =
      (idFrames id (unnamed entries)).find? fun f => f.number = seqno := by
  induction entries with
  | nil => rfl
  | cons e entries ih =>
      cases e with
      | none => exact ih
      | some e =>
          obtain ⟨a, f⟩ := e
          rw [takeSeqno, unnamed_some]
          rcases Decidable.em (f.reqId = id) with own | other
          · rw [idFrames_own own]
            rcases Decidable.em (f.number = seqno) with here | apart
            · rw [if_pos ⟨own, here⟩, List.find?_cons_of_pos (by simpa using here)]
            · rw [if_neg fun both => apart both.2, List.find?_cons_of_neg (by simpa using apart),
                ← ih]
              split <;> rfl
          · rw [idFrames_other other, if_neg fun both => other both.1, ← ih]
            dsimp only
            rw [if_neg fun both => other both.1]

/-- The scan leaves the frames with greater numbers. -/
theorem takeSeqno_find {seqno k : Nat} (greater : seqno < k) (entries : List (UdpEntry α)) :
    (idFrames id (unnamed (takeSeqno id seqno entries).2)).find? (fun f => f.number = k) =
      (idFrames id (unnamed entries)).find? fun f => f.number = k := by
  induction entries with
  | nil => rfl
  | cons e entries ih =>
      cases e with
      | none => exact ih
      | some e =>
          obtain ⟨a, f⟩ := e
          rw [takeSeqno, unnamed_some]
          rcases Decidable.em (f.reqId = id) with own | other
          · rw [idFrames_own own]
            rcases Nat.lt_or_ge seqno f.number with above | low
            · rw [if_neg (fun both => Nat.ne_of_gt above both.2)]
              dsimp only
              rw [if_neg (fun both => Nat.lt_asymm above both.2), unnamed_some, idFrames_own own]
              rcases Decidable.em (f.number = k) with here | apart
              · rw [List.find?_cons_of_pos (by simpa using here),
                  List.find?_cons_of_pos (by simpa using here)]
              · rw [List.find?_cons_of_neg (by simpa using apart),
                  List.find?_cons_of_neg (by simpa using apart), ih]
            · rw [List.find?_cons_of_neg (by simp; omega)]
              rcases Nat.eq_or_lt_of_le low with here | below
              · rw [if_pos ⟨own, here⟩]
                rfl
              · rw [if_neg (fun both => Nat.ne_of_lt below both.2)]
                dsimp only
                rw [if_pos ⟨own, below⟩]
                exact ih
          · rw [idFrames_other other, if_neg fun both => other both.1]
            dsimp only
            rw [if_neg (fun both => other both.1), unnamed_some, idFrames_other other, ih]

/-- A second scan for a number that is not there changes nothing. -/
theorem takeSeqno_again {seqno : Nat} {entries : List (UdpEntry α)}
    (absent : (takeSeqno id seqno entries).1 = none) :
    takeSeqno id seqno (takeSeqno id seqno entries).2 = (none, (takeSeqno id seqno entries).2) := by
  induction entries with
  | nil => rfl
  | cons e entries ih =>
      cases e with
      | none =>
          rw [takeSeqno] at absent ⊢
          rw [takeSeqno, ih absent]
      | some e =>
          obtain ⟨a, f⟩ := e
          rw [takeSeqno] at absent ⊢
          rcases Decidable.em (f.reqId = id ∧ f.seqno.toNat = seqno) with here | apart
          · rw [if_pos here] at absent
            cases absent
          · rw [if_neg apart] at absent ⊢
            dsimp only at absent ⊢
            rcases Decidable.em (f.reqId = id ∧ f.seqno.toNat < seqno) with below | kept
            · rw [if_pos below] at absent ⊢
              rw [takeSeqno, ih absent]
            · rw [if_neg kept] at absent ⊢
              rw [takeSeqno, if_neg apart, ih absent]
              dsimp only
              rw [if_neg kept]

theorem length_takeSeqno (seqno : Nat) (entries : List (UdpEntry α)) :
    (takeSeqno id seqno entries).2.length = entries.length := by
  induction entries with
  | nil => rfl
  | cons e entries ih =>
      cases e with
      | none => exact congrArg Nat.succ ih
      | some e =>
          rw [takeSeqno]
          dsimp only
          split
          · rfl
          · split <;> exact congrArg Nat.succ ih

end Scan

section Loop

variable {α : Type} {id : UInt16} {sav : Saved} {spare : Bool} {size : Nat}

/-- Neither the batch nor the save area has a frame with this number. -/
structure Missing (id : UInt16) (sav : Saved) (entries : List (UdpEntry α)) (n : Nat) : Prop where
  batch : ((idFrames id (unnamed entries)).find? fun f => f.number = n) = none
  saved : n < sav.savLen → ∃ slots, sav.slots = some slots ∧ savedAt id n slots = none

/-- A frame of the batch is found where the scan takes it. -/
theorem found_batch_iff {entries : List (UdpEntry α)} {n : Nat} {f g : MergeFrame}
    (scanned : (takeSeqno id n entries).1 = some f) :
    Found id sav spare entries n g ↔ f = g := by
  rw [takeSeqno_fst] at scanned
  constructor
  · intro found
    cases found with
    | batch here => exact Option.some.inj (scanned.symm.trans here)
    | saved absent => exact absurd (scanned.symm.trans absent) (by simp)
  · rintro rfl
    exact .batch scanned

/-- Behind a scan without a frame, only the save area has one. -/
theorem found_saved_iff {entries : List (UdpEntry α)} {n : Nat} {g : MergeFrame}
    (scanned : (takeSeqno id n entries).1 = none) :
    Found id sav spare entries n g ↔ n < sav.savLen ∧ spare = true ∧
      ∃ slots, sav.slots = some slots ∧ savedAt id n slots = some g := by
  rw [takeSeqno_fst] at scanned
  constructor
  · intro found
    cases found with
    | batch here => exact absurd (scanned.symm.trans here) (by simp)
    | saved absent inside array here room => exact ⟨inside, room, _, array, here⟩
  · intro given
    obtain ⟨inside, room, slots, array, here⟩ := given
    exact .saved scanned inside array here room

/-- The loop clears entries but removes none, and a merged frame is the one of one. -/
def LoopEnd.Keeps (length : Nat) : LoopEnd α → Prop
  | .merged m entries => m.total = 1 ∧ entries.length = length
  | .failed entries => entries.length = length
  | .stop _ => True

/-- The frame in front of the others, if there is one, is the one of one. -/
def Single (buf : Option MergeFrame) : Prop := ∀ m, buf = some m → m.total = 1

theorem single_append {buf : Option MergeFrame} (single : Single buf) (f : MergeFrame) :
    (MergeFrame.append buf f).total = 1 := by
  cases buf with
  | none => rfl
  | some m => exact single m rfl

/-- What one pass of the loop does with its number: no frame has it, and the pass is repeated; or
the loop ends; or a frame is put behind the others. -/
inductive Pass (id : UInt16) (sav : Saved) (spare : Bool) (total size : Nat) (v : MergeState α) :
    LoopEnd α ⊕ MergeState α → Prop where
  | missing (absent : Missing id sav v.entries v.seqno) :
      Pass id sav spare total size v (.inr { v with entries := (takeSeqno id v.seqno v.entries).2 })
  | ended (e : LoopEnd α) (runs : e ≠ .stop .hang) (there : ¬Missing id sav v.entries v.seqno)
      (last : ∀ f, Found id sav spare v.entries v.seqno f →
        (MergeFrame.append v.buf f).len ≤ size → v.seqno + 1 = total)
      (keeps : Single v.buf → e.Keeps v.entries.length) :
      Pass id sav spare total size v (.inl e)
  | put (f : MergeFrame) (found : Found id sav spare v.entries v.seqno f)
      (fits : (MergeFrame.append v.buf f).len ≤ size) :
      Pass id sav spare total size v (.inr ⟨v.seqno + 1, some (MergeFrame.append v.buf f),
        (takeSeqno id v.seqno v.entries).2⟩)

/-- A pass that has a frame puts it behind the others, or the loop ends. -/
theorem pass_put {total : Nat} {v : MergeState α} {f : MergeFrame} {outside : Bool}
    (found : ∀ g, Found id sav spare v.entries v.seqno g ↔ f = g ∧ outside = false)
    (there : ¬Missing id sav v.entries v.seqno) :
    Pass id sav spare total size v
      (if (MergeFrame.append v.buf f).len > size then
        .inl (.failed (takeSeqno id v.seqno v.entries).2)
      else if outside then .inl (.stop .fault)
      else if v.seqno + 1 = total ∧ (MergeFrame.append v.buf f).len = size then
        .inl (.merged (MergeFrame.append v.buf f) (takeSeqno id v.seqno v.entries).2)
      else .inr ⟨v.seqno + 1, some (MergeFrame.append v.buf f),
        (takeSeqno id v.seqno v.entries).2⟩) := by
  rcases Nat.lt_or_ge size (MergeFrame.append v.buf f).len with long | fits
  · rw [if_pos long]
    refine .ended _ (by simp) there ?_ fun _ => length_takeSeqno _ _
    intro g here fits
    rw [← ((found g).mp here).1] at fits
    omega
  · rw [if_neg (by omega)]
    cases outside with
    | true =>
        rw [if_pos rfl]
        refine .ended _ (by simp) there ?_ fun _ => trivial
        intro g here
        exact absurd ((found g).mp here).2 (by simp)
    | false =>
        rw [if_neg Bool.false_ne_true]
        split
        · next last =>
            exact .ended _ (by simp) there (fun _ _ _ => last.1) fun single =>
              ⟨single_append single f, length_takeSeqno _ _⟩
        · exact .put f ((found f).mpr ⟨rfl, rfl⟩) fits

/-- A pass below the total is one of these. -/
theorem mergeStep_pass {total : Nat} {v : MergeState α} (below : v.seqno < total) :
    Pass id sav spare total size v (mergeStep id sav spare total size v) := by
  rw [mergeStep, if_pos below]
  cases scanned : (takeSeqno id v.seqno v.entries).1 with
  | some f =>
      dsimp only
      rw [scanned]
      have here := scanned
      rw [takeSeqno_fst] at here
      have found : ∀ g, Found id sav spare v.entries v.seqno g ↔ f = g ∧ false = false :=
        fun g => (found_batch_iff scanned).trans (by simp)
      exact pass_put found
        fun absent => absurd (here.symm.trans absent.batch) (by simp)
  | none =>
      dsimp only
      rw [scanned]
      have absent := scanned
      rw [takeSeqno_fst] at absent
      dsimp only
      rcases Nat.lt_or_ge v.seqno sav.savLen with inside | behind
      · rw [if_pos inside]
        cases array : sav.slots with
        | none =>
            refine .ended _ (by simp) ?_ ?_ fun _ => trivial
            · intro missing
              obtain ⟨slots, held, _⟩ := missing.saved inside
              exact absurd (array.symm.trans held) (by simp)
            · intro f found
              obtain ⟨_, _, slots, held, _⟩ := (found_saved_iff scanned).mp found
              exact absurd (array.symm.trans held) (by simp)
        | some slots =>
            dsimp only
            cases here : savedAt id v.seqno slots with
            | none => exact .missing ⟨absent, fun _ => ⟨slots, array, here⟩⟩
            | some f =>
                apply pass_put
                · intro g
                  rw [found_saved_iff scanned]
                  simp only [array, Option.some.injEq, exists_eq_left', here]
                  simp [inside, and_comm]
                · intro missing
                  obtain ⟨slots', held, none⟩ := missing.saved inside
                  obtain rfl := Option.some.inj (array.symm.trans held)
                  exact absurd (here.symm.trans none) (by simp)
      · rw [if_neg (by omega)]
        exact .missing ⟨absent, fun inside => absurd inside (by omega)⟩

/-- What follows a pass of the loop. -/
def followUp (id : UInt16) (sav : Saved) (spare : Bool) (size left seqno : Nat) :
    LoopEnd α ⊕ MergeState α → LoopEnd α
  | .inl e => e
  | .inr w =>
      if w.seqno = seqno then .stop .hang
      else mergeLoop id sav spare size left w.seqno w.buf w.entries

/-- The loop does its passes one behind the other. -/
theorem mergeLoop_succ {left total : Nat} {v : MergeState α} (sum : v.seqno + (left + 1) = total) :
    mergeLoop id sav spare size (left + 1) v.seqno v.buf v.entries =
      followUp id sav spare size left v.seqno (mergeStep id sav spare total size v) := by
  have put : ∀ f outside,
      (if (MergeFrame.append v.buf f).len > size then
        LoopEnd.failed (takeSeqno id v.seqno v.entries).2
      else if outside = true then .stop .fault
      else if left = 0 ∧ (MergeFrame.append v.buf f).len = size then
        .merged (MergeFrame.append v.buf f) (takeSeqno id v.seqno v.entries).2
      else mergeLoop id sav spare size left (v.seqno + 1) (some (MergeFrame.append v.buf f))
        (takeSeqno id v.seqno v.entries).2) =
      followUp id sav spare size left v.seqno
        (if (MergeFrame.append v.buf f).len > size then
          .inl (.failed (takeSeqno id v.seqno v.entries).2)
        else if outside = true then .inl (.stop .fault)
        else if v.seqno + 1 = total ∧ (MergeFrame.append v.buf f).len = size then
          .inl (.merged (MergeFrame.append v.buf f) (takeSeqno id v.seqno v.entries).2)
        else .inr ⟨v.seqno + 1, some (MergeFrame.append v.buf f),
          (takeSeqno id v.seqno v.entries).2⟩) := by
    intro f outside
    simp only [show (left = 0) = (v.seqno + 1 = total) from propext (by omega)]
    split
    · rfl
    · split
      · rfl
      · split
        · rfl
        · rw [followUp, if_neg (by simp)]
  rw [mergeLoop, mergeStep, if_pos (show v.seqno < total by omega)]
  dsimp only
  cases (takeSeqno id v.seqno v.entries).1 with
  | some f => exact put f false
  | none =>
      dsimp only
      split
      · cases sav.slots with
        | none => rfl
        | some slots =>
            dsimp only
            cases savedAt id v.seqno slots with
            | none =>
                dsimp only
                rw [followUp, if_pos rfl]
            | some f => exact put f !spare
      · rw [followUp, if_pos rfl]

/-- The loop comes to a number that is missing: it has found a frame for each number before, and
these frames fit. -/
def GapFrom (id : UInt16) (sav : Saved) (spare : Bool) (entries : List (UdpEntry α))
    (first left room : Nat) : Prop :=
  ∃ k < left, Missing id sav entries (first + k) ∧ ∃ pieces,
    List.Forall₂ (Found id sav spare entries) (List.range' first k) pieces ∧ sumOf pieces ≤ room

/-- A frame that is found is the only one. -/
theorem Found.unique {entries : List (UdpEntry α)} {n : Nat} {f g : MergeFrame}
    (first : Found id sav spare entries n f) (second : Found id sav spare entries n g) : f = g := by
  cases scanned : (takeSeqno id n entries).1 with
  | some h =>
      rw [← (found_batch_iff scanned).mp first]
      exact (found_batch_iff scanned).mp second
  | none =>
      obtain ⟨_, _, slots, array, here⟩ := (found_saved_iff scanned).mp first
      obtain ⟨_, _, slots', array', here'⟩ := (found_saved_iff scanned).mp second
      obtain rfl := Option.some.inj (array.symm.trans array')
      exact Option.some.inj (here.symm.trans here')

/-- A number without a frame has none. -/
theorem Missing.not_found {entries : List (UdpEntry α)} {n : Nat} {f : MergeFrame}
    (absent : Missing id sav entries n) : ¬Found id sav spare entries n f := by
  intro found
  cases found with
  | batch here => exact absurd (absent.batch.symm.trans here) (by simp)
  | saved _ inside array here =>
      obtain ⟨slots, held, none⟩ := absent.saved inside
      obtain rfl := Option.some.inj (array.symm.trans held)
      exact absurd (none.symm.trans here) (by simp)

/-- The frames with greater numbers are found after a scan too. -/
theorem found_takeSeqno {entries : List (UdpEntry α)} {seqno n : Nat} (greater : seqno < n)
    {f : MergeFrame} :
    Found id sav spare (takeSeqno id seqno entries).2 n f ↔ Found id sav spare entries n f := by
  have same := @takeSeqno_find _ id _ _ greater entries
  constructor
  · intro found
    cases found with
    | batch here => exact .batch (same.symm.trans here)
    | saved absent inside array here room =>
        exact .saved (same.symm.trans absent) inside array here room
  · intro found
    cases found with
    | batch here => exact .batch (same.trans here)
    | saved absent inside array here room => exact .saved (same.trans absent) inside array here room

theorem missing_takeSeqno {entries : List (UdpEntry α)} {seqno n : Nat} (greater : seqno < n) :
    Missing id sav (takeSeqno id seqno entries).2 n ↔ Missing id sav entries n := by
  have same := @takeSeqno_find _ id _ _ greater entries
  constructor
  · intro absent
    exact ⟨same.symm.trans absent.batch, absent.saved⟩
  · intro absent
    exact ⟨same.trans absent.batch, absent.saved⟩

/-- The frames of greater numbers are found after a scan too. -/
theorem forall₂_takeSeqno {entries : List (UdpEntry α)} {seqno first k : Nat}
    (greater : seqno < first) {pieces : List MergeFrame} :
    List.Forall₂ (Found id sav spare (takeSeqno id seqno entries).2) (List.range' first k) pieces ↔
      List.Forall₂ (Found id sav spare entries) (List.range' first k) pieces := by
  induction k generalizing first pieces with
  | zero => simp
  | succ k ih =>
      rw [List.range'_succ]
      cases pieces with
      | nil => simp
      | cons f pieces =>
          rw [List.forall₂_cons, List.forall₂_cons, found_takeSeqno greater, ih (by omega)]

/-- A gap behind a frame that was put is a gap of the rest. -/
theorem gapFrom_put {v : MergeState α} {f : MergeFrame} {left : Nat}
    (found : Found id sav spare v.entries v.seqno f)
    (fits : (MergeFrame.append v.buf f).len ≤ size) :
    GapFrom id sav spare v.entries v.seqno (left + 1) (size - bufLen v.buf) ↔
      GapFrom id sav spare (takeSeqno id v.seqno v.entries).2 (v.seqno + 1) left
        (size - (MergeFrame.append v.buf f).len) := by
  have length := len_append v.buf f
  constructor
  · intro given
    obtain ⟨k, below, absent, pieces, all, room⟩ := given
    cases k with
    | zero => exact absurd found absent.not_found
    | succ k =>
        rw [List.range'_succ] at all
        cases all with
        | cons first all =>
            rename_i g pieces
            obtain rfl := first.unique found
            refine ⟨k, by omega, ?_, pieces,
              (forall₂_takeSeqno (Nat.lt_succ_self _)).mpr all, ?_⟩
            · rw [missing_takeSeqno (by omega), show v.seqno + 1 + k = v.seqno + (k + 1) by omega]
              exact absent
            · simp only [sumOf, List.map_cons, List.sum_cons] at room ⊢
              omega
  · intro given
    obtain ⟨k, below, absent, pieces, all, room⟩ := given
    rw [missing_takeSeqno (by omega)] at absent
    refine ⟨k + 1, by omega, ?_, f :: pieces, ?_, ?_⟩
    · rw [show v.seqno + (k + 1) = v.seqno + 1 + k by omega]
      exact absent
    · rw [List.range'_succ]
      exact .cons found ((forall₂_takeSeqno (Nat.lt_succ_self _)).mp all)
    · simp only [sumOf, List.map_cons, List.sum_cons] at room ⊢
      omega

/-- The loop over the numbers hangs when it comes to a gap. -/
theorem mergeLoop_hang_iff {left : Nat} {v : MergeState α} (room : bufLen v.buf ≤ size) :
    mergeLoop id sav spare size left v.seqno v.buf v.entries = .stop .hang ↔
      GapFrom id sav spare v.entries v.seqno left (size - bufLen v.buf) := by
  induction left generalizing v with
  | zero =>
      constructor
      · intro hang
        cases hang
      · intro given
        obtain ⟨k, below, _⟩ := given
        exact absurd below (Nat.not_lt_zero k)
  | succ left ih =>
      rw [mergeLoop_succ rfl]
      have pass := @mergeStep_pass _ id sav spare size (v.seqno + (left + 1)) v (by omega)
      generalize mergeStep id sav spare (v.seqno + (left + 1)) size v = result at pass
      cases pass with
      | missing absent =>
          rw [followUp, if_pos rfl]
          constructor
          · intro _
            exact ⟨0, Nat.succ_pos left, absent, [], .nil, Nat.zero_le _⟩
          · intro _
            rfl
      | ended e runs there last _ =>
          constructor
          · intro hang
            exact absurd hang runs
          · intro given
            obtain ⟨k, below, absent, pieces, all, fits⟩ := given
            cases k with
            | zero => exact absurd absent there
            | succ k =>
                rw [List.range'_succ] at all
                cases all with
                | cons first all =>
                    rename_i f pieces
                    have length := len_append v.buf f
                    simp only [sumOf, List.map_cons, List.sum_cons] at fits
                    have end' := last f first (by omega)
                    omega
      | put f found fits =>
          rw [followUp, if_neg (by simp), gapFrom_put found fits]
          exact ih fits

/-- A missing number is not advanced. -/
theorem mergeStep_missing {total : Nat} {v : MergeState α} (below : v.seqno < total)
    (absent : Missing id sav v.entries v.seqno) :
    mergeStep id sav spare total size v =
      .inr { v with entries := (takeSeqno id v.seqno v.entries).2 } := by
  have pass := @mergeStep_pass _ id sav spare size total v below
  generalize mergeStep id sav spare total size v = result at pass
  cases pass with
  | missing => rfl
  | ended e runs there => exact absurd absent there
  | put f found => exact absurd found absent.not_found

/-- A second pass for a missing number changes nothing. -/
theorem mergeStep_again {total : Nat} {v : MergeState α} (below : v.seqno < total)
    (absent : Missing id sav v.entries v.seqno) :
    mergeStep id sav spare total size { v with entries := (takeSeqno id v.seqno v.entries).2 } =
      .inr { v with entries := (takeSeqno id v.seqno v.entries).2 } := by
  have again := takeSeqno_again ((@takeSeqno_fst _ id v.seqno v.entries).trans absent.batch)
  have still : Missing id sav (takeSeqno id v.seqno v.entries).2 v.seqno := by
    apply Missing.mk _ absent.saved
    rw [← takeSeqno_fst, again]
  have pass := @mergeStep_missing _ id sav spare size total
    ⟨v.seqno, v.buf, (takeSeqno id v.seqno v.entries).2⟩ below still
  dsimp only at pass
  rw [pass, again]

/-- The loop over the numbers removes no entries. -/
theorem mergeLoop_keeps {left : Nat} {v : MergeState α} (single : Single v.buf) :
    (mergeLoop id sav spare size left v.seqno v.buf v.entries).Keeps v.entries.length := by
  induction left generalizing v with
  | zero => exact rfl
  | succ left ih =>
      rw [mergeLoop_succ rfl]
      have pass := @mergeStep_pass _ id sav spare size (v.seqno + (left + 1)) v (by omega)
      generalize mergeStep id sav spare (v.seqno + (left + 1)) size v = result at pass
      cases pass with
      | missing absent =>
          rw [followUp, if_pos rfl]
          trivial
      | ended e _ _ _ keeps => exact keeps single
      | put f found fits =>
          rw [followUp, if_neg (by simp)]
          have kept := @ih ⟨v.seqno + 1, some (MergeFrame.append v.buf f),
            (takeSeqno id v.seqno v.entries).2⟩ (by
              intro m merged
              rw [← Option.some.inj merged]
              exact single_append single f)
          dsimp only at kept
          rwa [length_takeSeqno] at kept

end Loop

section Frames

variable {α : Type} {sav : Saved} {spare : Bool} {a : α} {f : MergeFrame}
  {rest : List (UdpEntry α)}

/-- The frames of a request that count. The saved ones count when the batch has too few. -/
def countedFrames (sav : Saved) (f : MergeFrame) (entries : List (UdpEntry α)) :
    List MergeFrame :=
  let batch := idFrames f.reqId (unnamed entries)
  if batch.length < f.total.toNat then batch ++ idFrames f.reqId (slotsOf sav) else batch

/-- As many frames of a request as its total are there, but a number is missing, and the frames
before it fit. -/
def Gap (sav : Saved) (spare : Bool) (f : MergeFrame) (entries : List (UdpEntry α)) : Prop :=
  f.total.toNat ≤ (countedFrames sav f entries).length ∧
    GapFrom f.reqId sav spare entries 0 f.total.toNat (sumOf (countedFrames sav f entries))

/-- The loop over the numbers runs behind the count. -/
theorem mergeFrames_eq (sav : Saved) (spare : Bool) (f : MergeFrame)
    (entries : List (UdpEntry α)) :
    mergeFrames sav spare f entries =
      (mergeCount sav f entries).elim (.stop .fault) fun count =>
        if f.total.toNat ≤ count.1 then
          (mergeLoop f.reqId sav spare count.2 f.total.toNat 0 none entries).mergeEnd f.reqId
            f.total.toNat sav
        else mergeSave f.reqId f.total.toNat sav entries := by
  rw [mergeFrames, mergeCount]
  generalize (if (countRequest f.reqId (List.map (Option.map Prod.snd) entries.tail) 1 f.len).1 <
    f.total.toNat then _ else _) = counted
  cases counted with
  | none => rfl
  | some count =>
      rw [Option.elim_some]
      dsimp only
      split
      · cases mergeLoop f.reqId sav spare count.2 f.total.toNat 0 none entries <;> rfl
      · rfl

/-- The count is the number and the size of the counted frames. A freed save area is not read. -/
theorem mergeCount_eq :
    mergeCount sav f (some (a, f) :: rest) =
      if (idFrames f.reqId (unnamed (some (a, f) :: rest))).length < f.total.toNat ∧
        sav.slots = none then none
      else some ((countedFrames sav f (some (a, f) :: rest)).length,
        mcHdrSize + sumOf (countedFrames sav f (some (a, f) :: rest))) := by
  rw [mergeCount, List.tail_cons, count_batch (a := a), countedFrames]
  dsimp only
  rcases Decidable.em ((idFrames f.reqId (unnamed (some (a, f) :: rest))).length <
    f.total.toNat) with fewer | enough
  · rw [if_pos fewer, if_pos fewer]
    cases array : sav.slots with
    | none => rw [if_pos ⟨fewer, rfl⟩, Option.map_none]
    | some slots =>
        rw [if_neg (by simp), Option.map_some, countRequest_eq, slotsOf, array, Option.getD_some,
          List.length_append]
        simp only [sumOf, List.map_append, List.sum_append, Nat.add_assoc]
  · rw [if_neg enough, if_neg enough, if_neg fun both => enough both.1]

/-- The frames are saved without a loop. -/
theorem mergeSave_runs (id : UInt16) (total : Nat) (sav : Saved) (entries : List (UdpEntry α)) :
    mergeSave id total sav entries ≠ .stop .hang := by
  cases sav with
  | null => simp [mergeSave]
  | array slots =>
      rw [mergeSave]
      dsimp only
      split <;> simp
  | dangling n => simp [mergeSave]

/-- The merge hangs at a gap. -/
theorem mergeFrames_hang_iff :
    mergeFrames sav spare f (some (a, f) :: rest) = .stop .hang ↔
      Gap sav spare f (some (a, f) :: rest) := by
  rw [mergeFrames_eq, mergeCount_eq, Gap]
  rcases Decidable.em ((idFrames f.reqId (unnamed (some (a, f) :: rest))).length <
    f.total.toNat ∧ sav.slots = none) with freed | kept
  · rw [if_pos freed, Option.elim_none]
    constructor
    · intro hang
      cases hang
    · intro given
      obtain ⟨enough, _⟩ := given
      rw [countedFrames, if_pos freed.1, slotsOf, freed.2, Option.getD_none, idFrames_nil,
        List.append_nil] at enough
      exact absurd freed.1 (by omega)
  · rw [if_neg kept, Option.elim_some]
    dsimp only
    have loop := @mergeLoop_hang_iff α f.reqId sav spare
      (mcHdrSize + sumOf (countedFrames sav f (some (a, f) :: rest))) f.total.toNat
      ⟨0, none, some (a, f) :: rest⟩ (Nat.le_add_right _ _)
    rw [bufLen, Nat.add_sub_cancel_left] at loop
    dsimp only at loop
    rw [← loop]
    split
    · next enough =>
        cases mergeLoop f.reqId sav spare
          (mcHdrSize + sumOf (countedFrames sav f (some (a, f) :: rest))) f.total.toNat 0 none
          (some (a, f) :: rest) with
        | merged m entries => simp [LoopEnd.mergeEnd]
        | failed entries => simp [LoopEnd.mergeEnd, mergeSave_runs]
        | stop reason => simp [LoopEnd.mergeEnd, enough]
    · next few => simp [mergeSave_runs, few]

end Frames

section Process

variable {α : Type} {s : UdpState α} {a : α} {f : MergeFrame} {rest : List (UdpEntry α)}

/-- The code is not in the loop over the sequence numbers. -/
def UdpProcess.OutsideMerge : UdpProcess α → Prop
  | .merge .. => False
  | _ => True

/-- The loop over the numbers comes to its end unless it hangs. -/
theorem merge_halts_iff {Q : UdpProcess α → Prop}
    (inside : ∀ s a f size v, ¬Q (.merge s a f size v)) {size left : Nat} {v : MergeState α}
    (sum : v.seqno + left = f.total.toNat) :
    Halts UdpProcess.step Q (.merge s a f size v) ↔
      mergeLoop f.reqId s.sav s.spare size left v.seqno v.buf v.entries ≠ .stop .hang ∧
        Halts UdpProcess.step Q
          (s.after a ((mergeLoop f.reqId s.sav s.spare size left v.seqno v.buf v.entries).mergeEnd
            f.reqId f.total.toNat s.sav)).goOn := by
  induction left generalizing v with
  | zero =>
      rw [Halts.step_iff (inside s a f size v), UdpProcess.step, mergeStep, if_neg (by omega)]
      simp [mergeLoop]
  | succ left ih =>
      have below : v.seqno < f.total.toNat := by omega
      rw [mergeLoop_succ sum, Halts.step_iff (inside s a f size v), UdpProcess.step]
      have pass := @mergeStep_pass _ f.reqId s.sav s.spare size _ v below
      generalize same : mergeStep f.reqId s.sav s.spare f.total.toNat size v = result at pass
      cases pass with
      | missing absent =>
          rw [followUp, if_pos rfl]
          constructor
          · intro halts
            refine absurd halts (Halts.not_of_fixed (inside s a f size _) ?_)
            rw [UdpProcess.step, mergeStep_again below absent]
          · intro given
            obtain ⟨runs, _⟩ := given
            exact absurd rfl runs
      | ended e runs =>
          rw [followUp]
          exact ⟨fun halts => ⟨runs, halts⟩, fun both => both.2⟩
      | put g found fits =>
          rw [followUp, if_neg (by simp)]
          exact ih (by dsimp only; omega)

/-- At a frame of several the merge is next. -/
theorem batch_halts_several {Q : UdpProcess α → Prop}
    (inside : ∀ s a f size v, ¬Q (.merge s a f size v))
    (first : s.entries = some (a, f) :: rest) (several : f.total ≠ 1) :
    Halts UdpProcess.step Q (UdpProcess.step (.batch s)) ↔
      ¬Gap s.sav s.spare f s.entries ∧
        Halts UdpProcess.step Q (s.after a (mergeFrames s.sav s.spare f s.entries)).goOn := by
  rw [first, ← mergeFrames_hang_iff, UdpProcess.step, first]
  dsimp only
  rw [if_neg several, mergeFrames_eq]
  cases mergeCount s.sav f (some (a, f) :: rest) with
  | none =>
      rw [Option.elim_none]
      simp [UdpState.after, UdpState.goOn, first]
  | some count =>
      rw [Option.elim_some]
      dsimp only
      split
      · rw [merge_halts_iff inside (Nat.zero_add f.total.toNat)]
        dsimp only
        apply and_congr_left
        intro _
        rw [not_iff_not]
        cases mergeLoop f.reqId s.sav s.spare count.2 f.total.toNat 0 none
          (some (a, f) :: rest) with
        | merged m entries => simp [LoopEnd.mergeEnd]
        | failed entries => simp [LoopEnd.mergeEnd, mergeSave_runs]
        | stop reason => simp [LoopEnd.mergeEnd]
      · simp [mergeSave_runs]

/-- A round of the loop over the batch finds no gap. -/
def GapFree (s : UdpState α) : Prop :=
  ∀ a f rest, s.stop = none → s.entries = some (a, f) :: rest → f.total ≠ 1 →
    ¬Gap s.sav s.spare f s.entries

/-- A read without datagrams. -/
def idle (α : Type) : Batch α := ⟨[], 0, Nat.le_refl 0⟩

/-- The state behind one round of the loop over the batch. -/
def UdpState.round (s : UdpState α) : UdpState α := (processNext s (idle α)).2

/-- The rounds that are left at most: a merged frame has one more, and so has one of several. -/
def UdpState.lag (s : UdpState α) : Nat :=
  if s.stop.isSome then 0
  else
    match s.entries with
    | some (_, f) :: rest => if f.total = 1 then 2 * rest.length + 2 else 2 * rest.length + 3
    | entries => 2 * entries.length

theorem lag_le (s : UdpState α) : s.lag ≤ 2 * s.entries.length + 1 := by
  rw [UdpState.lag]
  split
  · omega
  · split
    · next same =>
        rw [same, List.length_cons]
        split <;> omega
    · omega

/-- A merge removes no entries, and a merged frame is the one of one. -/
def MergeEnd.Keeps (length : Nat) : MergeEnd α → Prop
  | .complete m entries => m.total = 1 ∧ entries.length = length
  | .incomplete _ entries => entries.length = length
  | .stop _ => True

theorem mergeSave_keeps (id : UInt16) (total : Nat) (sav : Saved) (entries : List (UdpEntry α)) :
    (mergeSave id total sav entries).Keeps entries.length := by
  cases sav with
  | null => simp [mergeSave, MergeEnd.Keeps, saveFrames_eq, clear]
  | array slots =>
      rw [mergeSave]
      dsimp only
      split
      · rfl
      · simp [MergeEnd.Keeps, saveFrames_eq, clear]
  | dangling n => trivial

theorem mergeFrames_keeps (sav : Saved) (spare : Bool) (f : MergeFrame)
    (entries : List (UdpEntry α)) :
    (mergeFrames sav spare f entries).Keeps entries.length := by
  rw [mergeFrames_eq]
  cases mergeCount sav f entries with
  | none => trivial
  | some count =>
      rw [Option.elim_some]
      split
      · have kept := @mergeLoop_keeps α f.reqId sav spare count.2 f.total.toNat
          ⟨0, none, entries⟩ (by
            intro m merged
            cases merged)
        dsimp only at kept
        cases same : mergeLoop f.reqId sav spare count.2 f.total.toNat 0 none entries with
        | merged m entries' =>
            rw [same] at kept
            exact kept
        | failed entries' =>
            rw [same] at kept
            rw [LoopEnd.mergeEnd, ← show entries'.length = entries.length from kept]
            exact mergeSave_keeps f.reqId f.total.toNat sav entries'
        | stop reason => trivial
      · exact mergeSave_keeps f.reqId f.total.toNat sav entries

/-- A round with a frame of several is one merge. -/
theorem round_several (runs : s.stop = none) (first : s.entries = some (a, f) :: rest)
    (several : f.total ≠ 1) :
    s.round = s.after a (mergeFrames s.sav s.spare f s.entries) := by
  obtain ⟨sav, entries, spare, stop⟩ := s
  dsimp only at runs first ⊢
  subst runs first
  rw [UdpState.round, processNext, if_neg (by simp)]
  dsimp only
  rw [if_neg several]
  cases mergeFrames sav spare f (some (a, f) :: rest) <;> rfl

/-- A round with another entry leaves it behind. -/
theorem round_other {e : UdpEntry α} (runs : s.stop = none) (first : s.entries = e :: rest)
    (other : ∀ a f, e = some (a, f) → f.total = 1) : s.round = { s with entries := rest } := by
  obtain ⟨sav, entries, spare, stop⟩ := s
  dsimp only at runs first ⊢
  subst runs first
  rw [UdpState.round, processNext, if_neg (by simp)]
  cases e with
  | none => rfl
  | some e =>
      dsimp only
      rw [if_pos (other e.1 e.2 rfl)]

/-- A round of a process that goes on has fewer rounds left. -/
theorem lag_several (runs : s.stop = none) (first : s.entries = some (a, f) :: rest)
    (several : f.total ≠ 1) : s.round.lag < s.lag := by
  have now : s.lag = 2 * rest.length + 3 := by
    rw [UdpState.lag, runs, if_neg (by simp), first]
    dsimp only
    rw [if_neg several]
  rw [round_several runs first several, now]
  have kept := mergeFrames_keeps s.sav s.spare f s.entries
  cases merged : mergeFrames s.sav s.spare f s.entries with
  | complete m entries =>
      rw [merged, first] at kept
      have size : entries.tail.length = rest.length := by
        rw [List.length_tail, kept.2, List.length_cons, Nat.add_sub_cancel]
      rw [UdpState.after, UdpState.lag, runs, if_neg (by simp)]
      dsimp only
      rw [if_pos kept.1]
      omega
  | incomplete sav entries =>
      rw [merged, first] at kept
      have size : entries.tail.length = rest.length := by
        rw [List.length_tail, show entries.length = _ from kept, List.length_cons,
          Nat.add_sub_cancel]
      have low := lag_le (s.after a (.incomplete sav entries))
      rw [UdpState.after] at low ⊢
      dsimp only at low
      omega
  | stop reason =>
      rw [UdpState.after, UdpState.lag, if_pos (by simp)]
      omega

theorem lag_other {e : UdpEntry α} (runs : s.stop = none) (first : s.entries = e :: rest)
    (other : ∀ a f, e = some (a, f) → f.total = 1) : s.round.lag < s.lag := by
  have now : s.lag = 2 * rest.length + 2 := by
    rw [UdpState.lag, runs, if_neg (by simp), first]
    cases e with
    | none => rfl
    | some e =>
        dsimp only
        rw [if_pos (other e.1 e.2 rfl)]
  rw [round_other runs first other, now]
  have low := lag_le { s with entries := rest }
  dsimp only at low
  omega

/-- Behind the end of the batch nothing is left. -/
theorem round_nil (done : s.entries = []) : s.round.entries = [] := by
  rw [UdpState.round, processNext]
  split
  · exact done
  · rw [done]
    rfl

/-- Behind the end of the batch no round finds a gap. -/
theorem gapFree_of_nil (done : s.entries = []) (k : Nat) : GapFree (UdpState.round^[k] s) := by
  have still : (UdpState.round^[k] s).entries = [] := by
    induction k with
    | zero => exact done
    | succ k ih =>
        rw [Function.iterate_succ_apply']
        exact round_nil ih
  intro a f rest _ first
  rw [still] at first
  cases first

/-- A process that stopped finds no gap. -/
theorem gapFree_of_stop (stopped : s.stop.isSome) (k : Nat) : GapFree (UdpState.round^[k] s) := by
  have fixed : s.round = s := by
    rw [UdpState.round, processNext, if_pos stopped]
  rw [Function.iterate_fixed fixed]
  intro a f rest runs
  rw [runs] at stopped
  cases stopped

/-- The process comes to its end when no round finds a gap. -/
theorem goOn_terminates_iff (s : UdpState α) :
    s.goOn.Terminates ↔ ∀ k, GapFree (UdpState.round^[k] s) := by
  have inside : ∀ (s : UdpState α) a f size v, ¬UdpProcess.Finished (.merge s a f size v) :=
    fun _ _ _ _ _ finished => finished
  have going : ∀ s : UdpState α, ¬UdpProcess.Finished (.batch s) := fun _ finished => finished
  generalize size : s.lag = lag
  induction lag using Nat.strong_induction_on generalizing s with
  | _ lag ih =>
      rw [UdpState.goOn]
      cases runs : s.stop with
      | some reason =>
          rw [if_pos (by simp)]
          exact ⟨fun _ => gapFree_of_stop (by simp [runs]), fun _ => .of_final trivial⟩
      | none =>
          rw [if_neg (by simp), UdpProcess.Terminates, Halts.step_iff (going s)]
          cases first : s.entries with
          | nil =>
              constructor
              · intro _
                exact gapFree_of_nil first
              · intro _
                rw [UdpProcess.step, first]
                exact .of_final trivial
          | cons e rest =>
              rw [forall_iterate_iff]
              rcases Classical.em (∀ a f, e = some (a, f) → f.total = 1) with other | several
              · have next := ih s.round.lag (size ▸ lag_other runs first other) s.round rfl
                have free : GapFree s := by
                  intro a f rest' _ here several
                  rw [first] at here
                  exact absurd (other a f (List.cons.inj here).1) several
                have stepped : UdpProcess.step (.batch s) = s.round.goOn := by
                  rw [round_other runs first other, UdpProcess.step, first, UdpState.goOn]
                  dsimp only
                  rw [runs, if_neg (by simp)]
                  cases e with
                  | none => rfl
                  | some e =>
                      dsimp only
                      rw [if_pos (other e.1 e.2 rfl)]
                rw [stepped, and_iff_right free]
                exact next
              · simp only [not_forall] at several
                obtain ⟨a, f, rfl, several⟩ := several
                have next := ih s.round.lag (size ▸ lag_several runs first several) s.round rfl
                have free : GapFree s ↔ ¬Gap s.sav s.spare f s.entries := by
                  constructor
                  · intro free
                    exact free a f rest runs first several
                  · intro free b g rest' _ here _
                    rw [first] at here
                    cases here
                    exact free
                rw [batch_halts_several inside first several, ← round_several runs first several,
                  free]
                exact and_congr_right fun _ => next

/-- The merge of a round comes to its end when the round finds no gap. -/
theorem merge_terminates_iff (s : UdpState α) (runs : s.stop = none) :
    Halts UdpProcess.step UdpProcess.OutsideMerge (UdpProcess.step (.batch s)) ↔ GapFree s := by
  have goOn : ∀ t : UdpState α, t.goOn.OutsideMerge := by
    intro t
    rw [UdpState.goOn]
    split <;> trivial
  have plain : (∀ a f rest, s.entries = some (a, f) :: rest → f.total = 1) →
      (UdpProcess.step (.batch s)).OutsideMerge := by
    intro single
    rw [UdpProcess.step]
    cases first : s.entries with
    | nil => trivial
    | cons e rest =>
        cases e with
        | none => trivial
        | some e =>
            dsimp only
            rw [if_pos (single e.1 e.2 rest first)]
            trivial
  rcases Classical.em (∀ a f rest, s.entries = some (a, f) :: rest → f.total = 1) with
    single | several
  · constructor
    · intro _ a f rest _ first several
      exact absurd (single a f rest first) several
    · intro _
      exact .of_final (plain single)
  · simp only [not_forall] at several
    obtain ⟨a, f, rest, first, several⟩ := several
    rw [batch_halts_several (fun _ _ _ _ _ outside => outside) first several]
    constructor
    · intro ⟨free, _⟩ b g rest' _ here _
      rw [first] at here
      cases here
      exact free
    · intro free
      exact ⟨free a f rest runs first several, .of_final (goOn _)⟩

/-- The merge of a round comes to its end unless the round finds a gap, whatever the batch, the save
area and the headers are. The process of a batch comes to its end exactly when none of its rounds
finds one. -/
theorem udpProcess_terminates_exact (sav : Saved) (spare : Bool) (entries : List (UdpEntry α)) :
    (Halts UdpProcess.step UdpProcess.OutsideMerge
        (UdpProcess.step (.batch ⟨sav, entries, spare, none⟩)) ↔
      GapFree ⟨sav, entries, spare, none⟩) ∧
      ((UdpProcess.batch ⟨sav, entries, spare, none⟩).Terminates ↔
        ∀ k, GapFree (UdpState.round^[k] ⟨sav, entries, spare, none⟩)) := by
  apply And.intro
  · exact merge_terminates_iff _ rfl
  · exact goOn_terminates_iff ⟨sav, entries, spare, none⟩

/-- Two copies of the first of two frames never come to an end. -/
theorem not_udpProcess_terminates :
    ¬∀ batch : Batch Nat, (UdpProcess.batch ⟨.null, batch.datagrams.map readFrame,
      batch.datagrams.length < batch.capacity, none⟩).Terminates := by
  intro all
  have ends := all ⟨[(1, [0, 7, 0, 0, 0, 2, 0, 0, 97]), (1, [0, 7, 0, 0, 0, 2, 0, 0, 97])], 2,
    by decide⟩
  have free := (goOn_terminates_iff ⟨.null,
    [(1, [0, 7, 0, 0, 0, 2, 0, 0, 97]), (1, [0, 7, 0, 0, 0, 2, 0, 0, 97])].map readFrame, false,
    none⟩).mp ends 0
  exact free _ _ _ rfl rfl (by decide) (mergeFrames_hang_iff.mp (by decide))

end Process

end Raids.Memcached
