import Mathlib.Data.List.ReduceOption
import Raids.Construction.Memcached.Merge

namespace Raids.Memcached
open BigEndian

/-- The frames of a request. -/
def idFrames (id : UInt16) (slots : List (Option MergeFrame)) : List MergeFrame :=
  slots.reduceOption.filter fun f => f.reqId = id

/-- The sequence number of a frame. -/
def MergeFrame.number (f : MergeFrame) : Nat := f.seqno.toNat

section Batch

variable {α : Type} {id : UInt16}

/-- The frames of the entries, without their senders. -/
def unnamed (entries : List (UdpEntry α)) : List (Option MergeFrame) :=
  entries.map (Option.map Prod.snd)

/-- The entries without the frames that are gone. -/
def clear (gone : MergeFrame → Bool) (entries : List (UdpEntry α)) : List (UdpEntry α) :=
  entries.map (Option.filter fun e => !gone e.2)

@[simp] theorem idFrames_nil : idFrames id [] = [] := rfl

@[simp] theorem idFrames_none (slots : List (Option MergeFrame)) :
    idFrames id (none :: slots) = idFrames id slots := rfl

theorem idFrames_own {f : MergeFrame} (own : f.reqId = id) (slots : List (Option MergeFrame)) :
    idFrames id (some f :: slots) = f :: idFrames id slots := by
  rw [idFrames, List.reduceOption_cons_of_some, List.filter_cons_of_pos (by simpa using own),
    idFrames]

theorem idFrames_other {f : MergeFrame} (other : f.reqId ≠ id) (slots : List (Option MergeFrame)) :
    idFrames id (some f :: slots) = idFrames id slots := by
  rw [idFrames, List.reduceOption_cons_of_some, List.filter_cons_of_neg (by simpa using other),
    idFrames]

theorem mem_idFrames {f : MergeFrame} {slots : List (Option MergeFrame)} :
    f ∈ idFrames id slots ↔ some f ∈ slots ∧ f.reqId = id := by
  simp [idFrames, List.reduceOption_mem_iff]

@[simp] theorem unnamed_nil : unnamed ([] : List (UdpEntry α)) = [] := rfl

@[simp] theorem unnamed_none (entries : List (UdpEntry α)) :
    unnamed (none :: entries) = none :: unnamed entries := rfl

@[simp] theorem unnamed_some (a : α) (f : MergeFrame) (entries : List (UdpEntry α)) :
    unnamed (some (a, f) :: entries) = some f :: unnamed entries := rfl

theorem mem_unnamed {f : MergeFrame} {entries : List (UdpEntry α)} :
    some f ∈ unnamed entries ↔ ∃ a, some (a, f) ∈ entries := by
  simp [unnamed]

@[simp] theorem clear_nil (gone : MergeFrame → Bool) :
    clear gone ([] : List (UdpEntry α)) = [] := rfl

@[simp] theorem clear_none (gone : MergeFrame → Bool) (entries : List (UdpEntry α)) :
    clear gone (none :: entries) = none :: clear gone entries := rfl

theorem clear_gone {gone : MergeFrame → Bool} {f : MergeFrame} (yes : gone f) (a : α)
    (entries : List (UdpEntry α)) :
    clear gone (some (a, f) :: entries) = none :: clear gone entries := by
  simp [clear, yes]

theorem clear_kept {gone : MergeFrame → Bool} {f : MergeFrame} (no : gone f = false) (a : α)
    (entries : List (UdpEntry α)) :
    clear gone (some (a, f) :: entries) = some (a, f) :: clear gone entries := by
  simp [clear, no]

/-- Clearing frames that are not there changes nothing. -/
theorem clear_eq_self {gone : MergeFrame → Bool} {entries : List (UdpEntry α)}
    (absent : ∀ a f, some (a, f) ∈ entries → gone f = false) : clear gone entries = entries := by
  induction entries with
  | nil => rfl
  | cons e entries ih =>
      have later := ih fun a f member => absent a f (List.mem_cons_of_mem _ member)
      cases e with
      | none => rw [clear_none, later]
      | some e => rw [clear_kept (absent e.1 e.2 List.mem_cons_self), later]

theorem clear_congr {gone gone' : MergeFrame → Bool} {entries : List (UdpEntry α)}
    (same : ∀ a f, some (a, f) ∈ entries → gone f = gone' f) :
    clear gone entries = clear gone' entries := by
  unfold clear
  apply List.map_congr_left
  intro e member
  cases e with
  | none => rfl
  | some e => simp only [Option.filter, same e.1 e.2 member]

theorem clear_clear (gone gone' : MergeFrame → Bool) (entries : List (UdpEntry α)) :
    clear gone' (clear gone entries) = clear (fun f => gone f || gone' f) entries := by
  unfold clear
  rw [List.map_map]
  apply List.map_congr_left
  intro e _
  cases e with
  | none => rfl
  | some e => cases gone e.2 <;> simp

theorem mem_clear {gone : MergeFrame → Bool} {entries : List (UdpEntry α)} {a : α} {f : MergeFrame} :
    some (a, f) ∈ clear gone entries ↔ some (a, f) ∈ entries ∧ gone f = false := by
  simp [clear, Option.filter_eq_some_iff]

theorem clear_tail (gone : MergeFrame → Bool) (entries : List (UdpEntry α)) :
    (clear gone entries).tail = clear gone entries.tail := by
  simp [clear]

/-- The count is the number of the frames of the request, the size the length of their bytes. -/
theorem countRequest_eq (slots : List (Option MergeFrame)) (cnt size : Nat) :
    countRequest id slots cnt size = (cnt + (idFrames id slots).length,
      size + ((idFrames id slots).map fun f => f.payload.length).sum) := by
  induction slots generalizing cnt size with
  | nil => rfl
  | cons slot slots ih =>
      cases slot with
      | none => exact ih cnt size
      | some f =>
          unfold countRequest
          by_cases own : f.reqId = id
          · rw [if_pos own, ih, idFrames_own own, List.length_cons, List.map_cons, List.sum_cons]
            simp only [MergeFrame.len, Prod.mk.injEq]
            omega
          · rw [if_neg own, ih, idFrames_other own]

/-- The numbers of a request in a list of slots. -/
def numbers (id : UInt16) (slots : List (Option MergeFrame)) : List Nat :=
  (idFrames id slots).map MergeFrame.number

/-- In a batch without smaller or double numbers the scan takes the one frame with the number. -/
theorem takeSeqno_eq {seqno : Nat} {entries : List (UdpEntry α)}
    (once : (numbers id (unnamed entries)).Nodup)
    (from' : ∀ n ∈ numbers id (unnamed entries), seqno ≤ n) :
    takeSeqno id seqno entries =
      ((idFrames id (unnamed entries)).find? fun f => f.number = seqno,
        clear (fun f => f.reqId = id ∧ f.number = seqno) entries) := by
  induction entries with
  | nil => rfl
  | cons e entries ih =>
      cases e with
      | none => rw [takeSeqno, ih once from', unnamed_none, idFrames_none, clear_none]
      | some e =>
          obtain ⟨a, f⟩ := e
          by_cases own : f.reqId = id
          · simp only [numbers, unnamed_some, idFrames_own own, List.map_cons, List.nodup_cons]
              at once from'
            have low := from' _ List.mem_cons_self
            have later := ih once.2 fun n member => from' n (List.mem_cons_of_mem _ member)
            rw [unnamed_some, idFrames_own own]
            unfold takeSeqno
            by_cases here : f.number = seqno
            · rw [if_pos ⟨own, here⟩, List.find?_cons_of_pos (by simpa using here),
                clear_gone (by simp [own, here]), clear_eq_self]
              intro b g member
              have other : g.reqId = id → g.number ≠ seqno := by
                intro alike equal
                apply once.1
                rw [here, ← equal]
                exact List.mem_map_of_mem (mem_idFrames.mpr ⟨mem_unnamed.mpr ⟨b, member⟩, alike⟩)
              simpa using other
            · have above : ¬ f.seqno.toNat < seqno := Nat.not_lt.mpr low
              rw [if_neg fun both => here both.2, if_neg fun both => above both.2, later,
                List.find?_cons_of_neg (by simpa using here), clear_kept (by simp [here])]
          · simp only [numbers, unnamed_some, idFrames_other own] at once from'
            rw [unnamed_some, idFrames_other own]
            unfold takeSeqno
            rw [if_neg fun both => own both.1, if_neg fun both => own both.1, ih once from',
              clear_kept (by simp [own])]

theorem idFrames_clear (gone : MergeFrame → Bool) (entries : List (UdpEntry α)) :
    idFrames id (unnamed (clear gone entries)) =
      (idFrames id (unnamed entries)).filter fun f => !gone f := by
  induction entries with
  | nil => rfl
  | cons e entries ih =>
      cases e with
      | none => exact ih
      | some e =>
          obtain ⟨a, f⟩ := e
          by_cases own : f.reqId = id
          · rw [unnamed_some, idFrames_own own]
            by_cases lost : gone f = true
            · rw [clear_gone lost, unnamed_none, idFrames_none, ih,
                List.filter_cons_of_neg (by simpa using lost)]
            · rw [Bool.not_eq_true] at lost
              rw [clear_kept lost, unnamed_some, idFrames_own own, ih,
                List.filter_cons_of_pos (by simpa using lost)]
          · rw [unnamed_some, idFrames_other own, ← ih]
            by_cases lost : gone f = true
            · rw [clear_gone lost, unnamed_none, idFrames_none]
            · rw [Bool.not_eq_true] at lost
              rw [clear_kept lost, unnamed_some, idFrames_other own]

/-- The length of the merged frame; before the first frame there is room for its header. -/
def bufLen : Option MergeFrame → Nat
  | none => mcHdrSize
  | some m => m.len

/-- The frames put behind each other. -/
def joined (buf : Option MergeFrame) (pieces : List MergeFrame) : Option MergeFrame :=
  pieces.foldl (fun buf f => some (MergeFrame.append buf f)) buf

theorem len_append (buf : Option MergeFrame) (f : MergeFrame) :
    (MergeFrame.append buf f).len = bufLen buf + f.payload.length := by
  cases buf with
  | none => rfl
  | some m => simp [MergeFrame.append, MergeFrame.len, bufLen, Nat.add_assoc]

/-- Where the loop finds the piece with a number: in the batch, or else in the save area, when
the header array has a spare entry. -/
inductive Found (id : UInt16) (sav : Saved) (spare : Bool) (entries : List (UdpEntry α)) (n : Nat)
    (f : MergeFrame) : Prop where
  | batch (here : (idFrames id (unnamed entries)).find? (fun f => f.number = n) = some f)
  | saved (absent : (idFrames id (unnamed entries)).find? (fun f => f.number = n) = none)
      (inside : n < sav.savLen) {slots : List (Option MergeFrame)} (array : sav.slots = some slots)
      (here : savedAt id n slots = some f) (room : spare = true)

theorem Found.clear {sav : Saved} {spare : Bool} {entries : List (UdpEntry α)} {n seqno : Nat}
    {f : MergeFrame} (other : n ≠ seqno) (found : Found id sav spare entries n f) :
    Found id sav spare (clear (fun f => f.reqId = id ∧ f.number = seqno) entries) n f := by
  have same : (idFrames id (unnamed
      (Memcached.clear (fun f => f.reqId = id ∧ f.number = seqno) entries))).find?
        (fun f => f.number = n) =
      (idFrames id (unnamed entries)).find? fun f => f.number = n := by
    rw [idFrames_clear, List.find?_filter]
    congr 1
    funext g
    by_cases this : g.number = n
    · simp [this, other]
    · simp [this]
  cases found with
  | batch here => exact .batch (same.trans here)
  | saved absent inside array here room => exact .saved (same.trans absent) inside array here room

/-- The loop concatenates the pieces when it finds each and the size is their size. -/
theorem mergeLoop_merged {sav : Saved} {spare : Bool} (piece : Nat → MergeFrame)
    {size left seqno : Nat} {buf : Option MergeFrame} {entries : List (UdpEntry α)}
    (found : ∀ n ∈ List.range' seqno left, Found id sav spare entries n (piece n))
    (once : (numbers id (unnamed entries)).Nodup)
    (from' : ∀ n ∈ numbers id (unnamed entries), seqno ≤ n)
    (full : size = bufLen buf +
      ((List.range' seqno left).map fun n => (piece n).payload.length).sum)
    (some' : left ≠ 0) :
    ∃ m, mergeLoop id sav spare size left seqno buf entries = .merged m
        (clear (fun f => f.reqId = id ∧ seqno ≤ f.number ∧ f.number < seqno + left) entries) ∧
      joined buf ((List.range' seqno left).map piece) = some m := by
  induction left generalizing seqno buf entries with
  | zero => exact absurd rfl some'
  | succ left ih =>
      rw [List.range'_succ, List.map_cons, List.sum_cons] at full
      have length := len_append buf (piece seqno)
      have fits : ¬ (MergeFrame.append buf (piece seqno)).len > size := by omega
      have numbers' : numbers id (unnamed
            (clear (fun f => f.reqId = id ∧ f.number = seqno) entries)) =
          (numbers id (unnamed entries)).filter fun n => n ≠ seqno := by
        rw [numbers, idFrames_clear, numbers, List.filter_map]
        congr 1
        apply List.filter_congr
        intro f member
        simp [(mem_idFrames.mp member).2]
      have put : ∃ m, (if left = 0 ∧ (MergeFrame.append buf (piece seqno)).len = size then
            LoopEnd.merged (MergeFrame.append buf (piece seqno))
              (clear (fun f => f.reqId = id ∧ f.number = seqno) entries)
          else mergeLoop id sav spare size left (seqno + 1)
            (some (MergeFrame.append buf (piece seqno)))
            (clear (fun f => f.reqId = id ∧ f.number = seqno) entries)) = .merged m
              (clear (fun f => f.reqId = id ∧ seqno ≤ f.number ∧ f.number < seqno + (left + 1))
                entries) ∧
          joined buf ((List.range' seqno (left + 1)).map piece) = some m := by
        rw [List.range'_succ, List.map_cons]
        by_cases last : left = 0
        · subst last
          rw [if_pos ⟨rfl, by simp at full; omega⟩]
          refine ⟨_, ?_, rfl⟩
          congr 2
          funext f
          congr 1
          rw [eq_iff_iff]
          apply and_congr_right
          intro _
          omega
        · rw [if_neg fun both => last both.1]
          obtain ⟨m, merged, result⟩ := @ih (seqno + 1)
            (some (MergeFrame.append buf (piece seqno)))
            (clear (fun f => f.reqId = id ∧ f.number = seqno) entries)
            (fun n member => (found n (by rw [List.range'_succ]; simp [member])).clear
              (by rw [List.mem_range'_1] at member; omega))
            (by rw [numbers']; exact once.filter _)
            (by
              rw [numbers']
              intro n member
              obtain ⟨member, other⟩ := List.mem_filter.mp member
              have low := from' n member
              simp at other
              omega)
            (by rw [bufLen, length]; omega) last
          refine ⟨m, ?_, result⟩
          rw [merged, clear_clear]
          congr 2
          funext f
          rw [Bool.eq_iff_iff]
          by_cases own : f.reqId = id
          · simp [own]
            omega
          · simp [own]
      unfold mergeLoop
      dsimp only
      rw [takeSeqno_eq once from']
      cases found seqno (by simp [List.range'_succ]) with
      | batch here =>
          rw [here]
          dsimp only
          rw [if_neg fits, if_neg Bool.false_ne_true]
          exact put
      | saved absent inside array here room =>
          rw [absent]
          dsimp only
          rw [if_pos inside, array]
          dsimp only
          rw [here, room]
          dsimp only
          rw [if_neg fits, Bool.not_true, if_neg Bool.false_ne_true]
          rw [room] at put
          exact put

end Batch

end Raids.Memcached
