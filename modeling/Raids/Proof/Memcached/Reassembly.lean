import Raids.Library.Machine
import Raids.Proof.Memcached.Merge

namespace Raids.Memcached
open BigEndian

/-- The parts that were received of a request, by their numbers. -/
abbrev Parts := Nat → Option Bytes

/-- The received parts of the requests that are not complete, by sender and request id. -/
abbrev PendingParts (α : Type) := α × UInt16 → Parts

/-- A received frame is the part with its number; behind the total it is none. -/
def arrive (total : Nat) (parts : Parts) (f : MergeFrame) : Parts :=
  if f.number < total then Function.update parts f.number (some f.payload) else parts

/-- The parts after some frames. -/
def received (total : Nat) (parts : Parts) (frames : List MergeFrame) : Parts :=
  frames.foldl (arrive total) parts

/-- Each number below the total was received. -/
def Complete (total : Nat) (parts : Parts) : Prop := ∀ n < total, parts n ≠ none

instance (total : Nat) (parts : Parts) : Decidable (Complete total parts) :=
  inferInstanceAs (Decidable (∀ n < total, parts n ≠ none))

/-- The parts in the order of their numbers. -/
def concatenation (total : Nat) (parts : Parts) : Bytes :=
  (List.range total).flatMap fun n => (parts n).getD []

section Requests

variable {α : Type} [DecidableEq α]

/-- The frames in the batch that belong to a sender's request. -/
def ownFrames (a : α) (id : UInt16) (entries : List (UdpEntry α)) : List MergeFrame :=
  (entries.reduceOption.filter fun e => e.1 = a ∧ e.2.reqId = id).map Prod.snd

/-- The batch without the frames of a sender's request. -/
def others (a : α) (id : UInt16) (entries : List (UdpEntry α)) : List (UdpEntry α) :=
  entries.map (Option.filter fun e => !decide (e.1 = a ∧ e.2.reqId = id))

/-- The parts of the request of the first frame, with all of its frames in the batch. -/
def partsOf (pending : PendingParts α) (a : α) (f : MergeFrame) (entries : List (UdpEntry α)) : Parts :=
  received f.total.toNat (pending (a, f.reqId)) (ownFrames a f.reqId entries)

/-- What is pending after a round: the round takes all frames of one request from the batch. -/
def PendingParts.next (pending : PendingParts α) (s : UdpState α) : PendingParts α :=
  match s.entries with
  | some (a, f) :: rest =>
      if f.total = 1 then pending
      else
        let parts := partsOf pending a f (some (a, f) :: rest)
        Function.update pending (a, f.reqId)
          (if Complete f.total.toNat parts then fun _ => none else parts)
  | _ => pending

/-- The save area holds each pending part in the slot of its number. -/
structure Held (pending : PendingParts α) (slots : List (Option MergeFrame)) : Prop where
  here : ∀ q n payload, pending q n = some payload →
    ∃ g : MergeFrame, slots[n]? = some (some g) ∧ g.reqId = q.2 ∧ g.payload = payload
  placed : ∀ n (g : MergeFrame), slots[n]? = some (some g) → g.number = n

/-- The slots of the save area. -/
def slotsOf (sav : Saved) : List (Option MergeFrame) := sav.slots.getD []

/-- What a round does with the first entry. -/
inductive Round (pending : PendingParts α) (b : Batch α) :
    List (UdpEntry α) → Option (Delivery α) → List (UdpEntry α) → Prop where
  | read : Round pending b [] none (b.datagrams.map readFrame)
  | skip (rest : List (UdpEntry α)) : Round pending b (none :: rest) none rest
  | deliver (a : α) (f : MergeFrame) (rest : List (UdpEntry α)) (single : f.total = 1) :
      Round pending b (some (a, f) :: rest) (some ⟨a, f.reqId, f.payload⟩) rest
  | complete (a : α) (f m : MergeFrame) (rest : List (UdpEntry α)) (several : f.total ≠ 1)
      (all : Complete f.total.toNat (partsOf pending a f (some (a, f) :: rest)))
      (single : m.total = 1) (id : m.reqId = f.reqId)
      (payload : m.payload =
        concatenation f.total.toNat (partsOf pending a f (some (a, f) :: rest))) :
      Round pending b (some (a, f) :: rest) none (some (a, m) :: others a f.reqId rest)
  | incomplete (a : α) (f : MergeFrame) (rest : List (UdpEntry α)) (several : f.total ≠ 1)
      (missing : ¬ Complete f.total.toNat (partsOf pending a f (some (a, f) :: rest))) :
      Round pending b (some (a, f) :: rest) none (others a f.reqId rest)

/-- The loop of the code beside the parts that are pending. -/
def reassemble (t : UdpState α × PendingParts α) (b : Batch α) :
    Option (Delivery α) × UdpState α × PendingParts α :=
  ((processNext t.1 b).1, (processNext t.1 b).2, t.2.next t.1)

/-- A round reassembles: it neither loops forever nor leaves its arrays, it reports the first
entry's request as complete exactly when each part was received, with the parts in order, and no
pending part is lost. -/
structure Reassembles (t : UdpState α × PendingParts α) (b : Batch α) : Prop where
  runs : (processNext t.1 b).2.stop = none
  round : Round t.2 b t.1.entries (processNext t.1 b).1 (processNext t.1 b).2.entries
  kept : Held (t.2.next t.1) (slotsOf (processNext t.1 b).2.sav)

/-- The frames of a request are unambiguous: there are fewer in the batch and the save area than
its total, and saving them destroys no pending part; or the batch has each number once; or the
batch and the save area together do, the saved ones are pending for the same sender, and the
header array has a spare entry. -/
inductive Unambiguous (t : UdpState α × PendingParts α) (a : α) (f : MergeFrame) : Prop where
  | few
      (fewer : (numbers f.reqId (unnamed t.1.entries)).length +
        (numbers f.reqId (slotsOf t.1.sav)).length < f.total.toNat)
      (below : ∀ q n, t.2 q n ≠ none → n < f.total.toNat)
      (apart : ∀ q n, t.2 q n ≠ none → q ≠ (a, f.reqId) →
        n ∉ numbers f.reqId (unnamed t.1.entries))
  | batch (each : (numbers f.reqId (unnamed t.1.entries)).Perm (List.range f.total.toNat))
  | saved
      (each : (numbers f.reqId (unnamed t.1.entries) ++ numbers f.reqId (slotsOf t.1.sav)).Perm
        (List.range f.total.toNat))
      (fewer : (numbers f.reqId (unnamed t.1.entries)).length < f.total.toNat)
      (own : ∀ g ∈ idFrames f.reqId (slotsOf t.1.sav),
        t.2 (a, f.reqId) g.number = some g.payload)
      (spare : t.1.spare = true)

/-- When a round is at a frame of several, all frames of its id are from its sender and
unambiguous. -/
def SoundRound (t : UdpState α × PendingParts α) (_ : Batch α) : Prop :=
  ∀ a f rest, t.1.entries = some (a, f) :: rest → f.total ≠ 1 →
    (∀ b g, some (b, g) ∈ t.1.entries → g.reqId = f.reqId → b = a) ∧ Unambiguous t a f

/-- The state at the start: nothing is saved and nothing pending. -/
def reassemblyStart (α : Type) : UdpState α × PendingParts α := (.init α, fun _ _ => none)

end Requests

section Received

variable {total : Nat} {parts : Parts}

theorem arrive_other {f : MergeFrame} {n : Nat} (other : f.number ≠ n) :
    arrive total parts f n = parts n := by
  unfold arrive
  split
  · rw [Function.update_of_ne (Ne.symm other)]
  · rfl

theorem arrive_self {f : MergeFrame} (below : f.number < total) :
    arrive total parts f f.number = some f.payload := by
  rw [arrive, if_pos below, Function.update_self]

/-- Numbers without a frame keep their part. -/
theorem received_other {frames : List MergeFrame} {n : Nat}
    (absent : n ∉ frames.map MergeFrame.number) : received total parts frames n = parts n := by
  induction frames generalizing parts with
  | nil => rfl
  | cons f frames ih =>
      rw [List.map_cons, List.mem_cons, not_or] at absent
      exact (ih absent.2).trans (arrive_other (Ne.symm absent.1))

/-- A number with one frame has its part. -/
theorem received_once {frames : List MergeFrame} (once : (frames.map MergeFrame.number).Nodup)
    {f : MergeFrame} (member : f ∈ frames) (below : f.number < total) :
    received total parts frames f.number = some f.payload := by
  induction frames generalizing parts with
  | nil => cases member
  | cons g frames ih =>
      rw [List.map_cons, List.nodup_cons] at once
      rcases List.mem_cons.mp member with rfl | member
      · exact (received_other once.1).trans (arrive_self below)
      · exact ih once.2 member

/-- A received part is from a frame, or was there before. -/
theorem received_from {frames : List MergeFrame} {n : Nat}
    (there : received total parts frames n ≠ none) :
    n ∈ frames.map MergeFrame.number ∨ parts n ≠ none := by
  by_cases member : n ∈ frames.map MergeFrame.number
  · exact .inl member
  · rw [received_other member] at there
    exact .inr there

end Received

/-- The merged frame has the header of the first, and the bytes of all. -/
theorem joined_some {m m' : MergeFrame} {pieces : List MergeFrame}
    (result : joined (some m) pieces = some m') :
    m'.reqId = m.reqId ∧ m'.total = m.total ∧
      m'.payload = m.payload ++ pieces.flatMap MergeFrame.payload := by
  induction pieces generalizing m with
  | nil =>
      cases result
      simp
  | cons f pieces ih =>
      obtain ⟨id, total, payload⟩ := ih result
      refine ⟨id, total, ?_⟩
      rw [payload]
      simp [MergeFrame.append]

theorem joined_none {id : UInt16} {m : MergeFrame} {pieces : List MergeFrame}
    (own : ∀ f ∈ pieces, f.reqId = id) (result : joined none pieces = some m) :
    m.reqId = id ∧ m.total = 1 ∧ m.payload = pieces.flatMap MergeFrame.payload := by
  cases pieces with
  | nil => cases result
  | cons f pieces =>
      obtain ⟨same, total, payload⟩ := joined_some result
      exact ⟨same.trans (own f List.mem_cons_self), total, payload⟩

/-- The frame with a number. -/
def pieceOf (pieces : List MergeFrame) (f : MergeFrame) (n : Nat) : MergeFrame :=
  (pieces.find? fun g => g.number = n).getD f

theorem find_number {pieces : List MergeFrame} (once : (pieces.map MergeFrame.number).Nodup)
    {g : MergeFrame} (member : g ∈ pieces) :
    (pieces.find? fun f => f.number = g.number) = some g := by
  cases result : pieces.find? fun f => f.number = g.number with
  | none => simpa using List.find?_eq_none.mp result g member
  | some f =>
      have same := List.find?_some result
      have equal := List.inj_on_of_nodup_map once (List.mem_of_find?_eq_some result) member
        (by simpa using same)
      rw [equal]

/-- Frames that have each number once are the frames with the numbers in order. -/
theorem pieces_perm {pieces : List MergeFrame} {total : Nat}
    (each : (pieces.map MergeFrame.number).Perm (List.range total)) (f : MergeFrame) :
    ((List.range total).map (pieceOf pieces f)).Perm pieces := by
  have once := each.nodup_iff.mpr List.nodup_range
  have self : (pieces.map MergeFrame.number).map (pieceOf pieces f) = pieces := by
    rw [List.map_map]
    conv_rhs => rw [← List.map_id pieces]
    apply List.map_congr_left
    intro g member
    rw [Function.comp_apply, pieceOf, find_number once member, Option.getD_some, id]
  have mapped := (each.map (pieceOf pieces f)).symm
  rwa [self] at mapped

section Save

variable {α : Type} {id : UInt16} {total : Nat}

/-- Saves one frame in its slot. -/
def store (total : Nat) (slots : List (Option MergeFrame)) (f : MergeFrame) :
    List (Option MergeFrame) :=
  if f.number < total then slots.set f.number (some f) else slots

/-- The frames of the request are stored one after the other and cleared in the batch. -/
theorem saveFrames_eq (entries : List (UdpEntry α)) (slots : List (Option MergeFrame)) :
    saveFrames id total entries slots =
      (clear (fun f => f.reqId = id) entries,
        (idFrames id (unnamed entries)).foldl (store total) slots) := by
  induction entries generalizing slots with
  | nil => rfl
  | cons e entries ih =>
      cases e with
      | none => rw [saveFrames, ih, unnamed_none, idFrames_none, clear_none]
      | some e =>
          obtain ⟨a, f⟩ := e
          unfold saveFrames
          by_cases own : f.reqId = id
          · rw [if_pos own, unnamed_some, idFrames_own own, clear_gone (by simpa using own),
              List.foldl_cons]
            dsimp only
            rw [ih]
            rfl
          · rw [if_neg own, unnamed_some, idFrames_other own, clear_kept (by simpa using own), ih]

theorem length_store (slots : List (Option MergeFrame)) (f : MergeFrame) :
    (store total slots f).length = slots.length := by
  unfold store
  split
  · exact List.length_set
  · rfl

/-- A resized save area has a slot for each number. -/
theorem length_resize (slots : List (Option MergeFrame)) :
    (Saved.resize slots total).length = total := by
  rw [Saved.resize, List.length_append, List.length_take, List.length_replicate]
  omega

/-- The slots below the total stay, the new ones are empty. -/
theorem resize_some {slots : List (Option MergeFrame)} {n : Nat} {g : MergeFrame} :
    (Saved.resize slots total)[n]? = some (some g) ↔ n < total ∧ slots[n]? = some (some g) := by
  rw [Saved.resize, List.getElem?_append, List.getElem?_take, List.length_take,
    List.getElem?_replicate]
  by_cases old : n < slots.length
  · by_cases below : n < total
    · simp [old, below]
    · simp [below]
  · rw [if_neg (by omega), List.getElem?_eq_none (Nat.not_lt.mp old)]
    split <;> simp

variable [DecidableEq α] {pending : PendingParts α} {slots : List (Option MergeFrame)} {a : α}

omit [DecidableEq α] in
/-- Resizing destroys no pending part with a number below the total. -/
theorem Held.resize (held : Held pending slots)
    (below : ∀ q n, pending q n ≠ none → n < total) :
    Held pending (Saved.resize slots total) where
  here q n payload part := by
    obtain ⟨g, slot, id, bytes⟩ := held.here q n payload part
    exact ⟨g, resize_some.mpr ⟨below q n (by simp [part]), slot⟩, id, bytes⟩
  placed n g slot := held.placed n g (resize_some.mp slot).2

/-- Storing a frame keeps the parts of other requests with other numbers. -/
theorem Held.store (held : Held pending slots) (size : slots.length = total) {f : MergeFrame}
    (own : f.reqId = id) (apart : ∀ q, pending q f.number ≠ none → q = (a, id)) :
    Held (Function.update pending (a, id) (arrive total (pending (a, id)) f))
      (store total slots f) := by
  unfold arrive Memcached.store
  by_cases below : f.number < total
  · rw [if_pos below, if_pos below]
    apply Held.mk
    · intro q n payload part
      by_cases this : q = (a, id)
      · subst this
        rw [Function.update_self] at part
        by_cases same : n = f.number
        · subst same
          rw [Function.update_self, Option.some.injEq] at part
          exact ⟨f, List.getElem?_set_self (by omega), own, part⟩
        · rw [Function.update_of_ne same] at part
          rw [List.getElem?_set_ne (Ne.symm same)]
          exact held.here _ _ _ part
      · rw [Function.update_of_ne this] at part
        have different : n ≠ f.number := by
          rintro rfl
          exact this (apart q (by simp [part]))
        rw [List.getElem?_set_ne (Ne.symm different)]
        exact held.here _ _ _ part
    · intro n g slot
      by_cases same : f.number = n
      · subst same
        rw [List.getElem?_set_self (by omega)] at slot
        cases slot
        rfl
      · rw [List.getElem?_set_ne same] at slot
        exact held.placed n g slot
  · rw [if_neg below, if_neg below, Function.update_eq_self]
    exact held

/-- Storing the frames of a request keeps the parts of the others. -/
theorem Held.received {frames : List MergeFrame} (held : Held pending slots)
    (size : slots.length = total) (own : ∀ f ∈ frames, f.reqId = id)
    (apart : ∀ q n, pending q n ≠ none → q ≠ (a, id) →
      n ∉ frames.map MergeFrame.number) :
    Held (Function.update pending (a, id) (received total (pending (a, id)) frames))
      (frames.foldl (Memcached.store total) slots) := by
  induction frames generalizing pending slots with
  | nil =>
      rw [Memcached.received, List.foldl_nil, Function.update_eq_self]
      exact held
  | cons f frames ih =>
      have first := held.store (a := a) size (own f List.mem_cons_self) fun q part => by
        by_contra different
        exact apart q _ part different List.mem_cons_self
      have later := ih first ((length_store slots f).trans size)
        (fun g member => own g (List.mem_cons_of_mem _ member)) (by
          intro q n part different member
          rw [Function.update_of_ne different] at part
          exact apart q n part different (List.mem_cons_of_mem _ member))
      rw [Function.update_self, Function.update_idem] at later
      exact later

end Save

section Round

variable {α : Type} {id : UInt16} {sav : Saved} {spare : Bool} {a : α} {f : MergeFrame}
  {rest entries : List (UdpEntry α)}

/-- The bytes of some frames. -/
def sumOf (frames : List MergeFrame) : Nat := (frames.map fun f => f.payload.length).sum

/-- The count in the batch is the number of the frames of the request. -/
theorem count_batch :
    countRequest f.reqId (rest.map (Option.map Prod.snd)) 1 f.len =
      ((idFrames f.reqId (unnamed (some (a, f) :: rest))).length,
        mcHdrSize + sumOf (idFrames f.reqId (unnamed (some (a, f) :: rest)))) := by
  rw [countRequest_eq, unnamed_some, idFrames_own rfl, List.length_cons, sumOf, List.map_cons,
    List.sum_cons, Nat.add_comm 1, MergeFrame.len, Nat.add_assoc]
  rfl

/-- With each number once the loop merges the request and clears its frames. -/
theorem mergeLoop_pieces (sav : Saved) (spare : Bool) (f : MergeFrame) {pieces : List MergeFrame} {total : Nat}
    (each : (pieces.map MergeFrame.number).Perm (List.range total))
    (own : ∀ g ∈ pieces, g.reqId = id)
    (found : ∀ n < total, Found id sav spare entries n (pieceOf pieces f n))
    (once : (numbers id (unnamed entries)).Nodup)
    (below : ∀ n ∈ numbers id (unnamed entries), n < total) (several : total ≠ 0) :
    ∃ m, mergeLoop id sav spare (mcHdrSize + sumOf pieces) total 0 none entries =
        .merged m (clear (fun f => f.reqId = id) entries) ∧
      m.reqId = id ∧ m.total = 1 ∧
      m.payload = (List.range total).flatMap fun n => (pieceOf pieces f n).payload := by
  have perm := pieces_perm each f
  have full : mcHdrSize + sumOf pieces = bufLen none +
      ((List.range' 0 total).map fun n => (pieceOf pieces f n).payload.length).sum := by
    have sums := (perm.map fun f => f.payload.length).sum_eq
    rw [List.map_map] at sums
    rw [← List.range_eq_range', bufLen, sumOf, ← sums]
    rfl
  obtain ⟨m, merged, result⟩ := mergeLoop_merged (pieceOf pieces f)
    (fun n member => found n (by simpa using member)) once (fun n _ => Nat.zero_le n) full several
  rw [← List.range_eq_range'] at result
  obtain ⟨same, single, payload⟩ :=
    joined_none (fun g member => own g (perm.mem_iff.mp member)) result
  refine ⟨m, ?_, same, single, ?_⟩
  · rw [merged]
    congr 1
    apply clear_congr
    intro b g member
    by_cases this : g.reqId = id
    · have small := below g.number (List.mem_map_of_mem
        (mem_idFrames.mpr ⟨mem_unnamed.mpr ⟨b, member⟩, this⟩))
      simp [this, small]
    · simp [this]
  · rw [payload, List.flatMap_map]

/-- With too few frames they are saved. -/
theorem mergeFrames_few {slots : List (Option MergeFrame)} (array : sav.slots = some slots)
    (fewer : (idFrames f.reqId (unnamed (some (a, f) :: rest))).length +
      (idFrames f.reqId slots).length < f.total.toNat) :
    mergeFrames sav spare f (some (a, f) :: rest) =
      mergeSave f.reqId f.total.toNat sav (some (a, f) :: rest) := by
  unfold mergeFrames
  dsimp only [List.tail_cons]
  rw [count_batch (a := a)]
  dsimp only
  rw [if_pos (by omega), array, Option.map_some, countRequest_eq]
  dsimp only
  rw [if_neg (by omega)]

/-- When the batch has each number once, the batch is merged. -/
theorem mergeFrames_batch (sav : Saved) (spare : Bool)
    (each : (numbers f.reqId (unnamed (some (a, f) :: rest))).Perm (List.range f.total.toNat)) :
    ∃ m, mergeFrames sav spare f (some (a, f) :: rest) =
        .complete m (clear (fun g => g.reqId = f.reqId) (some (a, f) :: rest)) ∧
      m.reqId = f.reqId ∧ m.total = 1 ∧ m.payload = (List.range f.total.toNat).flatMap fun n =>
        (pieceOf (idFrames f.reqId (unnamed (some (a, f) :: rest))) f n).payload := by
  have once := each.nodup_iff.mpr List.nodup_range
  have length := each.length_eq
  rw [numbers, List.length_map, List.length_range] at length
  have several : f.total.toNat ≠ 0 := by
    rw [← length, unnamed_some, idFrames_own rfl]
    exact Nat.succ_ne_zero _
  obtain ⟨m, merged, result⟩ := mergeLoop_pieces sav spare f each
    (fun g member => (mem_idFrames.mp member).2) (by
      intro n below
      obtain ⟨g, member, rfl⟩ := List.mem_map.mp (each.mem_iff.mpr (List.mem_range.mpr below))
      apply Found.batch
      rw [pieceOf, find_number once member, Option.getD_some]) once
    (fun n member => List.mem_range.mp (each.mem_iff.mp member)) several
  refine ⟨m, ?_, result⟩
  unfold mergeFrames
  dsimp only [List.tail_cons]
  rw [count_batch (a := a)]
  dsimp only
  rw [if_neg (by omega)]
  dsimp only
  rw [if_pos (Nat.le_of_eq length.symm), merged]

/-- When the batch and the save area have each number once, they are merged. -/
theorem mergeFrames_saved {slots : List (Option MergeFrame)} (array : sav.slots = some slots)
    (len : sav.savLen = slots.length)
    (placed : ∀ n (g : MergeFrame), slots[n]? = some (some g) → g.number = n)
    (each : (numbers f.reqId (unnamed (some (a, f) :: rest)) ++ numbers f.reqId slots).Perm
      (List.range f.total.toNat))
    (fewer : (numbers f.reqId (unnamed (some (a, f) :: rest))).length < f.total.toNat) :
    ∃ m, mergeFrames sav true f (some (a, f) :: rest) =
        .complete m (clear (fun g => g.reqId = f.reqId) (some (a, f) :: rest)) ∧
      m.reqId = f.reqId ∧ m.total = 1 ∧ m.payload = (List.range f.total.toNat).flatMap fun n =>
        (pieceOf (idFrames f.reqId (unnamed (some (a, f) :: rest)) ++ idFrames f.reqId slots)
          f n).payload := by
  have once := each.nodup_iff.mpr List.nodup_range
  have length := each.length_eq
  have all := each
  rw [numbers, numbers, ← List.map_append] at all
  have onceAll := all.nodup_iff.mpr List.nodup_range
  simp only [numbers, List.length_append, List.length_map, List.length_range] at length fewer
  obtain ⟨m, merged, result⟩ := mergeLoop_pieces sav true f all
    (fun g member => by
      rcases List.mem_append.mp member with member | member
      · exact (mem_idFrames.mp member).2
      · exact (mem_idFrames.mp member).2) (by
      intro n below
      obtain ⟨g, member, rfl⟩ := List.mem_map.mp (all.mem_iff.mpr (List.mem_range.mpr below))
      rw [pieceOf, find_number onceAll member, Option.getD_some]
      rcases List.mem_append.mp member with here | here
      · exact .batch (find_number (List.nodup_append.mp once).1 here)
      · obtain ⟨slot, own⟩ := mem_idFrames.mp here
        obtain ⟨i, slot⟩ := List.mem_iff_getElem?.mp slot
        have at_ := placed i g slot
        subst at_
        have inside := (List.getElem?_eq_some_iff.mp slot).1
        apply Found.saved _ (len ▸ inside) array _ rfl
        · rw [List.find?_eq_none]
          intro h there same
          apply (List.nodup_append.mp once).2.2 h.number (List.mem_map_of_mem there) g.number
            (List.mem_map_of_mem here)
          simpa using same
        · rw [savedAt, List.getD_eq_getElem?_getD, slot, Option.getD_some, Option.filter]
          simp [own, MergeFrame.number]) (List.nodup_append.mp once).1
    (fun n member => List.mem_range.mp (each.mem_iff.mp (List.mem_append_left _ member))) (by omega)
  refine ⟨m, ?_, result⟩
  unfold mergeFrames
  dsimp only [List.tail_cons]
  rw [count_batch (a := a)]
  dsimp only
  rw [if_pos (by omega), array, Option.map_some, countRequest_eq]
  dsimp only
  rw [if_pos (by omega), Nat.add_assoc]
  have sum : sumOf (idFrames f.reqId (unnamed (some (a, f) :: rest)) ++ idFrames f.reqId slots) =
      sumOf (idFrames f.reqId (unnamed (some (a, f) :: rest))) +
        ((idFrames f.reqId slots).map fun f => f.payload.length).sum := by
    rw [sumOf, List.map_append, List.sum_append, ← sumOf]
  rw [← sum, merged]

end Round

section Step

variable {α : Type} [DecidableEq α] {t : UdpState α × PendingParts α} {b : Batch α} {a : α}
  {id : UInt16} {f : MergeFrame} {rest entries : List (UdpEntry α)}

/-- When one sender uses the id, its request has all frames of the id. -/
theorem ownFrames_eq (sender : ∀ c g, some (c, g) ∈ entries → g.reqId = id → c = a) :
    ownFrames a id entries = idFrames id (unnamed entries) := by
  induction entries with
  | nil => rfl
  | cons e entries ih =>
      have later := ih fun c g member => sender c g (List.mem_cons_of_mem _ member)
      rw [ownFrames] at later ⊢
      cases e with
      | none => exact later
      | some e =>
          obtain ⟨c, g⟩ := e
          rw [List.reduceOption_cons_of_some, unnamed_some]
          by_cases own : g.reqId = id
          · rw [idFrames_own own, List.filter_cons_of_pos
              (by simp [own, sender c g List.mem_cons_self own]), List.map_cons, later]
          · rw [idFrames_other own, List.filter_cons_of_neg (by simp [own]), later]

theorem others_eq (sender : ∀ c g, some (c, g) ∈ entries → g.reqId = id → c = a) :
    others a id entries = clear (fun g => g.reqId = id) entries := by
  unfold others clear
  apply List.map_congr_left
  intro e member
  cases e with
  | none => rfl
  | some e =>
      obtain ⟨c, g⟩ := e
      by_cases own : g.reqId = id
      · simp [Option.filter, own, sender c g member own]
      · simp [Option.filter, own]

/-- Parts that are the pieces with their numbers are complete. -/
theorem complete_pieces {pieces : List MergeFrame} {total : Nat} {parts : Parts}
    (each : ∀ n < total, parts n = some (pieceOf pieces f n).payload) :
    Complete total parts ∧
      concatenation total parts =
        (List.range total).flatMap fun n => (pieceOf pieces f n).payload := by
  refine ⟨fun n below => by simp [each n below], ?_⟩
  rw [concatenation, List.flatMap_def, List.flatMap_def]
  congr 1
  apply List.map_congr_left
  intro n member
  rw [each n (List.mem_range.mp member), Option.getD_some]

omit [DecidableEq α] in
/-- With fewer frames than the total a number is missing. -/
theorem not_complete_few {slots : List (Option MergeFrame)} {pending : PendingParts α} {total : Nat}
    {frames : List MergeFrame} (held : Held pending slots)
    (fewer : (frames.map MergeFrame.number).length + (numbers id slots).length < total) :
    ¬ Complete total (received total (pending (a, id)) frames) := by
  intro all
  have inside : List.range total ⊆ frames.map MergeFrame.number ++ numbers id slots := by
    intro n member
    rw [List.mem_append]
    rcases received_from (all n (List.mem_range.mp member)) with here | before
    · exact .inl here
    · obtain ⟨payload, part⟩ := Option.ne_none_iff_exists'.mp before
      obtain ⟨g, slot, own, _⟩ := held.here _ _ _ part
      right
      rw [← held.placed n g slot]
      exact List.mem_map_of_mem (mem_idFrames.mpr ⟨List.mem_of_getElem? slot, own⟩)
  have bound := (List.nodup_range.subperm inside).length_le
  rw [List.length_range, List.length_append] at bound
  omega

/-- The invariant of the loop: it has not stopped, the save area is not freed, and it holds the
pending parts. -/
structure Reassembling (t : UdpState α × PendingParts α) : Prop where
  runs : t.1.stop = none
  live : ∀ n, t.1.sav ≠ .dangling n
  held : Held t.2 (slotsOf t.1.sav)

omit [DecidableEq α] in
/-- A save area that is not freed has its slots. -/
theorem Reassembling.slots (inv : Reassembling t) :
    t.1.sav.slots = some (slotsOf t.1.sav) ∧ t.1.sav.savLen = (slotsOf t.1.sav).length := by
  have live := inv.live
  unfold slotsOf
  cases same : t.1.sav with
  | null => exact ⟨rfl, rfl⟩
  | array slots => exact ⟨rfl, rfl⟩
  | dangling n => exact absurd same (live n)

omit [DecidableEq α] in
theorem processNext_several (runs : t.1.stop = none) (first : t.1.entries = some (a, f) :: rest)
    (several : f.total ≠ 1) :
    processNext t.1 b = (none, match mergeFrames t.1.sav t.1.spare f (some (a, f) :: rest) with
      | .complete m entries => { t.1 with entries := some (a, m) :: entries.tail }
      | .incomplete sav entries => { t.1 with sav := sav, entries := entries.tail }
      | .stop reason => { t.1 with stop := reason }) := by
  obtain ⟨⟨sav, entries, spare, stop⟩, pending⟩ := t
  dsimp only at runs first ⊢
  subst runs first
  unfold processNext
  dsimp only
  rw [if_neg (by simp), if_neg several]
  cases mergeFrames sav spare f (some (a, f) :: rest) <;> rfl

/-- A round that merges the request reassembles. -/
theorem reassembles_merged (inv : Reassembling t) (first : t.1.entries = some (a, f) :: rest)
    (several : f.total ≠ 1)
    (sender : ∀ c g, some (c, g) ∈ t.1.entries → g.reqId = f.reqId → c = a)
    {pieces : List MergeFrame} {m : MergeFrame}
    (merged : mergeFrames t.1.sav t.1.spare f (some (a, f) :: rest) =
      .complete m (clear (fun g => g.reqId = f.reqId) (some (a, f) :: rest)))
    (id : m.reqId = f.reqId) (single : m.total = 1)
    (payload : m.payload =
      (List.range f.total.toNat).flatMap fun n => (pieceOf pieces f n).payload)
    (each : ∀ n < f.total.toNat, partsOf t.2 a f (some (a, f) :: rest) n =
      some (pieceOf pieces f n).payload) :
    Reassembles t b ∧ Reassembling (reassemble t b).2 := by
  obtain ⟨all, content⟩ := complete_pieces each
  have next : processNext t.1 b =
      (none, { t.1 with entries := some (a, m) :: others a f.reqId rest }) := by
    rw [processNext_several inv.runs first several, merged]
    dsimp only
    rw [clear_tail, List.tail_cons, ← others_eq fun c g member =>
      sender c g (first ▸ List.mem_cons_of_mem _ member)]
  have held : Held (t.2.next t.1) (slotsOf t.1.sav) := by
    rw [PendingParts.next, first]
    dsimp only
    rw [if_neg several, if_pos all]
    apply Held.mk
    · intro q n payload part
      by_cases this : q = (a, f.reqId)
      · subst this
        rw [Function.update_self] at part
        cases part
      · rw [Function.update_of_ne this] at part
        exact inv.held.here q n payload part
    · exact inv.held.placed
  apply And.intro
  · apply Reassembles.mk
    · rw [next]
      exact inv.runs
    · rw [next, first]
      exact .complete a f m rest several all single id (payload.trans content.symm)
    · rw [next]
      exact held
  · rw [reassemble, next]
    exact ⟨inv.runs, inv.live, held⟩

/-- A round that saves the request reassembles. -/
theorem reassembles_saved (inv : Reassembling t) (first : t.1.entries = some (a, f) :: rest)
    (several : f.total ≠ 1)
    (sender : ∀ c g, some (c, g) ∈ t.1.entries → g.reqId = f.reqId → c = a)
    (fewer : (numbers f.reqId (unnamed t.1.entries)).length +
      (numbers f.reqId (slotsOf t.1.sav)).length < f.total.toNat)
    (below : ∀ q n, t.2 q n ≠ none → n < f.total.toNat)
    (apart : ∀ q n, t.2 q n ≠ none → q ≠ (a, f.reqId) →
      n ∉ numbers f.reqId (unnamed t.1.entries)) :
    Reassembles t b ∧ Reassembling (reassemble t b).2 := by
  have own := ownFrames_eq sender
  rw [first] at fewer apart own
  have missing : ¬ Complete f.total.toNat (partsOf t.2 a f (some (a, f) :: rest)) := by
    rw [partsOf, own]
    exact not_complete_few inv.held fewer
  have saved := inv.held.resize below |>.received (a := a) (length_resize _)
    (fun g member => (mem_idFrames.mp member).2) apart
  have few : mergeFrames t.1.sav t.1.spare f (some (a, f) :: rest) =
      mergeSave f.reqId f.total.toNat t.1.sav (some (a, f) :: rest) := by
    apply mergeFrames_few inv.slots.1
    simpa only [numbers, List.length_map] using fewer
  obtain ⟨sav, kept, live, slots⟩ : ∃ sav,
      mergeFrames t.1.sav t.1.spare f (some (a, f) :: rest) =
        .incomplete sav (clear (fun g => g.reqId = f.reqId) (some (a, f) :: rest)) ∧
      (∀ n, sav ≠ .dangling n) ∧
      slotsOf sav = (idFrames f.reqId (unnamed (some (a, f) :: rest))).foldl
        (store f.total.toNat) (Saved.resize (slotsOf t.1.sav) f.total.toNat) := by
    refine ⟨.array _, ?_, fun n => Saved.noConfusion, rfl⟩
    have array := inv.live
    rw [few]
    unfold mergeSave slotsOf
    cases same : t.1.sav with
    | null =>
        dsimp only
        rw [saveFrames_eq]
        rfl
    | array slots =>
        dsimp only
        rw [if_neg (by omega), saveFrames_eq]
        rfl
    | dangling n => exact absurd same (array n)
  have next : processNext t.1 b =
      (none, { t.1 with sav := sav, entries := others a f.reqId rest }) := by
    rw [processNext_several inv.runs first several, kept]
    dsimp only
    rw [clear_tail, List.tail_cons, ← others_eq fun c g member =>
      sender c g (first ▸ List.mem_cons_of_mem _ member)]
  have held : Held (t.2.next t.1) (slotsOf sav) := by
    rw [PendingParts.next, first]
    dsimp only
    rw [if_neg several, if_neg missing, slots, partsOf, own]
    exact saved
  apply And.intro
  · apply Reassembles.mk
    · rw [next]
      exact inv.runs
    · rw [next, first]
      exact .incomplete a f rest several missing
    · rw [next]
      exact held
  · rw [reassemble, next]
    exact ⟨inv.runs, live, held⟩

/-- A sound round reassembles and keeps the invariant. -/
theorem reassembles_step (inv : Reassembling t) (sound : SoundRound t b) :
    Reassembles t b ∧ Reassembling (reassemble t b).2 := by
  have calm : t.1.stop.isSome = false := by rw [inv.runs]; rfl
  cases first : t.1.entries with
  | nil =>
      have next : processNext t.1 b = (none, { t.1 with
          entries := b.datagrams.map readFrame
          spare := b.datagrams.length < b.capacity }) := by
        rw [processNext, calm, if_neg Bool.false_ne_true, first]
      have pending : t.2.next t.1 = t.2 := by rw [PendingParts.next, first]
      refine ⟨⟨?_, ?_, ?_⟩, ?_⟩
      · rw [next]
        exact inv.runs
      · rw [next, first]
        exact .read
      · rw [next, pending]
        exact inv.held
      · rw [reassemble, next, pending]
        exact ⟨inv.runs, inv.live, inv.held⟩
  | cons e rest =>
      cases e with
      | none =>
          have next : processNext t.1 b = (none, { t.1 with entries := rest }) := by
            rw [processNext, calm, if_neg Bool.false_ne_true, first]
          have pending : t.2.next t.1 = t.2 := by rw [PendingParts.next, first]
          refine ⟨⟨?_, ?_, ?_⟩, ?_⟩
          · rw [next]
            exact inv.runs
          · rw [next, first]
            exact .skip rest
          · rw [next, pending]
            exact inv.held
          · rw [reassemble, next, pending]
            exact ⟨inv.runs, inv.live, inv.held⟩
      | some e =>
          obtain ⟨a, f⟩ := e
          by_cases single : f.total = 1
          · have next : processNext t.1 b =
                (some ⟨a, f.reqId, f.payload⟩, { t.1 with entries := rest }) := by
              rw [processNext, calm, if_neg Bool.false_ne_true, first]
              dsimp only
              rw [if_pos single]
            have pending : t.2.next t.1 = t.2 := by
              rw [PendingParts.next, first]
              dsimp only
              rw [if_pos single]
            refine ⟨⟨?_, ?_, ?_⟩, ?_⟩
            · rw [next]
              exact inv.runs
            · rw [next, first]
              exact .deliver a f rest single
            · rw [next, pending]
              exact inv.held
            · rw [reassemble, next, pending]
              exact ⟨inv.runs, inv.live, inv.held⟩
          · obtain ⟨sender, unambiguous⟩ := sound a f rest first single
            have own := ownFrames_eq sender
            rw [first] at own
            cases unambiguous with
            | few fewer below apart =>
                exact reassembles_saved inv first single sender fewer below apart
            | batch each =>
                rw [first] at each
                obtain ⟨m, merged, id, total, payload⟩ :=
                  mergeFrames_batch t.1.sav t.1.spare each
                apply reassembles_merged inv first single sender merged id total payload
                intro n below
                have once := each.nodup_iff.mpr List.nodup_range
                obtain ⟨g, member, rfl⟩ :=
                  List.mem_map.mp (each.mem_iff.mpr (List.mem_range.mpr below))
                rw [partsOf, own, received_once once member below, pieceOf,
                  find_number once member, Option.getD_some]
            | saved each fewer pending spare =>
                rw [first] at each fewer
                obtain ⟨m, merged, id, total, payload⟩ :=
                  mergeFrames_saved inv.slots.1 inv.slots.2 inv.held.placed each fewer
                rw [← spare] at merged
                apply reassembles_merged inv first single sender merged id total payload
                intro n below
                have once := each.nodup_iff.mpr List.nodup_range
                have both := once
                rw [numbers, numbers, ← List.map_append] at both
                obtain ⟨g, member, rfl⟩ :
                    ∃ g ∈ idFrames f.reqId (unnamed (some (a, f) :: rest)) ++
                      idFrames f.reqId (slotsOf t.1.sav), g.number = n := by
                  rw [numbers, numbers, ← List.map_append] at each
                  exact List.mem_map.mp (each.mem_iff.mpr (List.mem_range.mpr below))
                rw [pieceOf, find_number both member, Option.getD_some, partsOf, own]
                rcases List.mem_append.mp member with here | there
                · exact received_once (List.nodup_append.mp once).1 here below
                · rw [received_other, pending g there]
                  intro here
                  exact (List.nodup_append.mp once).2.2 _ here _ (List.mem_map_of_mem there) rfl

/-- In a run whose rounds are sound every round reassembles: the datagrams of any senders and
batches, in any order, become requests exactly when all parts have arrived. -/
theorem memcachedReassembly (batches : List (Batch α))
    (sound : Machine.Along reassemble SoundRound (reassemblyStart α) batches) :
    Machine.Along reassemble Reassembles (reassemblyStart α) batches := by
  have start : Reassembling (reassemblyStart α) := by
    refine ⟨rfl, fun n => Saved.noConfusion, ?_, ?_⟩
    · intro q n payload part
      cases part
    · intro n g slot
      cases slot
  exact Machine.along_of_inv (fun t b inv good => (reassembles_step inv good).2)
    (fun t b inv good => (reassembles_step inv good).1) start sound

end Step

section Runs

/-- Two reads bring the two frames of a request, the second one first. -/
theorem memcachedReassembly_twoReads :
    Machine.Along reassemble Reassembles (reassemblyStart Nat)
      [⟨[(1, [0, 7, 0, 1, 0, 2, 0, 0, 98])], 2, by decide⟩, ⟨[], 1, by decide⟩,
        ⟨[(1, [0, 7, 0, 0, 0, 2, 0, 0, 97])], 2, by decide⟩, ⟨[], 1, by decide⟩,
        ⟨[], 1, by decide⟩] := by
  apply memcachedReassembly
  refine ⟨?_, ?_, ?_, ?_, ?_, trivial⟩
  · intro a f rest first
    cases first
  · intro a f rest first several
    cases first
    refine ⟨?_, .few (by decide) ?_ ?_⟩
    · intro b g member _
      cases List.mem_singleton.mp member
      rfl
    · intro q n part
      exact absurd rfl part
    · intro q n part
      exact absurd rfl part
  · intro a f rest first
    cases first
  · intro a f rest first several
    cases first
    refine ⟨?_, .saved (by decide) (by decide) (by decide) rfl⟩
    intro b g member _
    cases List.mem_singleton.mp member
    rfl
  · intro a f rest first several
    cases first
    exact absurd rfl several

/-- A duplicate beside a missing frame makes the loop over the sequence numbers endless. -/
theorem not_memcachedReassembly_duplicate :
    ¬ ∀ batches : List (Batch Nat),
      Machine.Along reassemble Reassembles (reassemblyStart Nat) batches := by
  intro all
  have endless := (all
    [⟨[(1, [0, 7, 0, 0, 0, 2, 0, 0, 97]), (1, [0, 7, 0, 0, 0, 2, 0, 0, 97])], 2, by decide⟩,
      ⟨[], 1, by decide⟩]).2.1.runs
  exact absurd endless (by decide)

end Runs

end Raids.Memcached
