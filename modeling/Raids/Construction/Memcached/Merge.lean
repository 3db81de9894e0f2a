import Raids.Construction.Memcached.Segment
import Raids.Library.Halting

namespace Raids.Memcached
open BigEndian

/-- A received datagram that is longer than its header. -/
structure MergeFrame where
  reqId : UInt16
  seqno : UInt16
  total : UInt16
  reserved : UInt16
  payload : Bytes
  body : payload ≠ []
  deriving DecidableEq, Repr

namespace MergeFrame

/-- The length of the datagram. -/
def len (f : MergeFrame) : Nat := mcHdrSize + f.payload.length

/-- Puts a frame behind the merged ones: the first keeps its header, as number zero of one, the
headers of the others are tossed. -/
def append : Option MergeFrame → MergeFrame → MergeFrame
  | none, f => { f with seqno := 0, total := 1 }
  | some m, f => { m with payload := m.payload ++ f.payload, body := by simp [m.body] }

end MergeFrame

/-- An entry of the header array: the sender and its frame, or `none` when its length is at most
the header's. -/
abbrev UdpEntry (α : Type) := Option (α × MergeFrame)

/-- Reads the header of a datagram. -/
def readFrame {α : Type} (datagram : α × Bytes) : UdpEntry α :=
  let word (i : Nat) := UInt16.ofNat (value ((datagram.2.drop i).take 2))
  if body : datagram.2.drop mcHdrSize ≠ [] then
    some (datagram.1, ⟨word 0, word 2, word 4, word 6, datagram.2.drop mcHdrSize, body⟩)
  else none

/-- The save area `sav_mhdr`. After `realloc( p, 0 )` it is a freed array whose length is kept. -/
inductive Saved where
  | null
  | array (slots : List (Option MergeFrame))
  | dangling (savLen : Nat)
  deriving DecidableEq, Repr

namespace Saved

def savLen : Saved → Nat
  | null => 0
  | array slots => slots.length
  | dangling savLen => savLen

/-- The slots that a loop up to `savLen` reads; reading a freed slot is a fault. -/
def slots : Saved → Option (List (Option MergeFrame))
  | null => some []
  | array slots => some slots
  | dangling savLen => if savLen = 0 then some [] else none

/-- Resizes the array: the slots from `total` on are released, new ones are empty. -/
def resize (slots : List (Option MergeFrame)) (total : Nat) : List (Option MergeFrame) :=
  slots.take total ++ List.replicate (total - slots.length) none

end Saved

/-- The count and the size of the frames of a request in a list of frames. -/
def countRequest (id : UInt16) : List (Option MergeFrame) → (cnt size : Nat) → Nat × Nat
  | [], cnt, size => (cnt, size)
  | none :: rest, cnt, size => countRequest id rest cnt size
  | some f :: rest, cnt, size =>
      if f.reqId = id then countRequest id rest (cnt + 1) (size + (f.len - mcHdrSize))
      else countRequest id rest cnt size

/-- The scan for the next sequence number: it clears the frames of the request that are passed
and stops at the first with this number. -/
def takeSeqno {α : Type} (id : UInt16) (seqno : Nat) :
    List (UdpEntry α) → Option MergeFrame × List (UdpEntry α)
  | [] => (none, [])
  | none :: rest =>
      let later := takeSeqno id seqno rest
      (later.1, none :: later.2)
  | some (a, f) :: rest =>
      if f.reqId = id ∧ f.seqno.toNat = seqno then (some f, none :: rest)
      else
        let later := takeSeqno id seqno rest
        if f.reqId = id ∧ f.seqno.toNat < seqno then (later.1, none :: later.2)
        else (later.1, some (a, f) :: later.2)

/-- The saved frame of the request with this sequence number. -/
def savedAt (id : UInt16) (seqno : Nat) (slots : List (Option MergeFrame)) : Option MergeFrame :=
  (slots.getD seqno none).filter fun f => f.reqId = id ∧ f.seqno.toNat = seqno

/-- How a run of the code ends other than by its return: it loops forever, or it reads or writes
memory outside of its arrays. -/
inductive Stop where
  | hang
  | fault
  deriving DecidableEq, Repr

/-- The end of the loop that concatenates the frames. -/
inductive LoopEnd (α : Type) where
  | merged (m : MergeFrame) (entries : List (UdpEntry α))
  | failed (entries : List (UdpEntry α))
  | stop (reason : Stop)
  deriving DecidableEq, Repr

/-- The loop over the sequence numbers. A number that neither the batch nor the save area has
leaves the loop where it is, forever. A frame from the save area leaves `j` at `nmsgs`, and the
entry behind the received ones is cleared; `spare` says that the array has one. -/
def mergeLoop {α : Type} (id : UInt16) (sav : Saved) (spare : Bool) (size : Nat) :
    Nat → (seqno : Nat) → Option MergeFrame → List (UdpEntry α) → LoopEnd α
  | 0, _, _, entries => .failed entries
  | left + 1, seqno, buf, entries =>
      let scan := takeSeqno id seqno entries
      let put (f : MergeFrame) (outside : Bool) : LoopEnd α :=
        let m := MergeFrame.append buf f
        if m.len > size then .failed scan.2
        else if outside then .stop .fault
        else if left = 0 ∧ m.len = size then .merged m scan.2
        else mergeLoop id sav spare size left (seqno + 1) (some m) scan.2
      if let some f := scan.1 then put f false
      else if seqno < sav.savLen then
        if let some slots := sav.slots then
          if let some f := savedAt id seqno slots then put f !spare
          else .stop .hang
        else .stop .fault
      else .stop .hang

/-- Copies the frames of the request to their slots and clears them in the batch. -/
def saveFrames {α : Type} (id : UInt16) (total : Nat) :
    List (UdpEntry α) → List (Option MergeFrame) → List (UdpEntry α) × List (Option MergeFrame)
  | [], slots => ([], slots)
  | none :: rest, slots =>
      let later := saveFrames id total rest slots
      (none :: later.1, later.2)
  | some (a, f) :: rest, slots =>
      if f.reqId = id then
        let slots := if f.seqno.toNat < total then slots.set f.seqno.toNat (some f) else slots
        let later := saveFrames id total rest slots
        (none :: later.1, later.2)
      else
        let later := saveFrames id total rest slots
        (some (a, f) :: later.1, later.2)

/-- The result of `merge_frames`: the merged frame, or the new save area, each with the batch. -/
inductive MergeEnd (α : Type) where
  | complete (m : MergeFrame) (entries : List (UdpEntry α))
  | incomplete (sav : Saved) (entries : List (UdpEntry α))
  | stop (reason : Stop)
  deriving DecidableEq, Repr

/-- The part of `merge_frames` that saves the frames for later. -/
def mergeSave {α : Type} (id : UInt16) (total : Nat) (sav : Saved) (entries : List (UdpEntry α)) :
    MergeEnd α :=
  let keep (slots : List (Option MergeFrame)) : MergeEnd α :=
    let kept := saveFrames id total entries (Saved.resize slots total)
    .incomplete (.array kept.2) kept.1
  match sav with
  | .null => keep []
  | .array slots => if total = 0 then .incomplete (.dangling slots.length) entries else keep slots
  | .dangling _ => .stop .fault

/-- `EvMemcachedMerge::merge_frames` for the first entry, the frame `f`; the entries start at
index `idx` of the header array. -/
def mergeFrames {α : Type} (sav : Saved) (spare : Bool) (f : MergeFrame)
    (entries : List (UdpEntry α)) : MergeEnd α :=
  let total := f.total.toNat
  let later := entries.tail.map (Option.map Prod.snd)
  let batch := countRequest f.reqId later 1 f.len
  let counted : Option (Nat × Nat) :=
    if batch.1 < total then
      sav.slots.map fun slots => countRequest f.reqId slots batch.1 batch.2
    else some batch
  if let some count := counted then
    if count.1 ≥ total then
      match mergeLoop f.reqId sav spare count.2 total 0 none entries with
      | .merged m entries => .complete m entries
      | .failed entries => mergeSave f.reqId total sav entries
      | .stop reason => .stop reason
    else mergeSave f.reqId total sav entries
  else .stop .fault

/-- What a read returns: at least as many headers as datagrams. -/
structure Batch (α : Type) where
  datagrams : List (α × Bytes)
  capacity : Nat
  fits : datagrams.length ≤ capacity

/-- A request that is complete: its sender, its id and its bytes. -/
structure Delivery (α : Type) where
  sender : α
  reqId : UInt16
  payload : Bytes
  deriving DecidableEq, Repr

/-- The state of `EvMemcachedUdp` between two rounds of its loop: the save area, the entries from
`in_moff` on, whether the header array has an entry behind them, and whether the loop stopped. -/
structure UdpState (α : Type) where
  sav : Saved
  entries : List (UdpEntry α)
  spare : Bool
  stop : Option Stop
  deriving DecidableEq, Repr

def UdpState.init (α : Type) : UdpState α := ⟨.null, [], false, none⟩

/-- One round of the loop of `EvMemcachedUdp::process`. A complete request is at the index of the
first of its frames, with a total of one, and the next round delivers it. -/
def processNext {α : Type} (s : UdpState α) (b : Batch α) : Option (Delivery α) × UdpState α :=
  if s.stop.isSome then (none, s)
  else
    match s.entries with
    | [] => (none, { s with
        entries := b.datagrams.map readFrame
        spare := b.datagrams.length < b.capacity })
    | none :: rest => (none, { s with entries := rest })
    | some (a, f) :: rest =>
        if f.total = 1 then (some ⟨a, f.reqId, f.payload⟩, { s with entries := rest })
        else
          match mergeFrames s.sav s.spare f s.entries with
          | .complete m entries => (none, { s with entries := some (a, m) :: entries.tail })
          | .incomplete sav entries => (none, { s with sav := sav, entries := entries.tail })
          | .stop reason => (none, { s with stop := reason })

/-- The variables of the loop over the sequence numbers: the next number, the frames that are put
together, and the batch. -/
structure MergeState (α : Type) where
  seqno : Nat
  buf : Option MergeFrame
  entries : List (UdpEntry α)
  deriving DecidableEq, Repr

section Step

variable {α : Type}

/-- One pass of the loop over the sequence numbers. The loop ends, or it goes on with its variables.
A number without a frame is not advanced. -/
def mergeStep (id : UInt16) (sav : Saved) (spare : Bool) (total size : Nat) (v : MergeState α) :
    LoopEnd α ⊕ MergeState α :=
  if v.seqno < total then
    let scan := takeSeqno id v.seqno v.entries
    let put (f : MergeFrame) (outside : Bool) : LoopEnd α ⊕ MergeState α :=
      let m := MergeFrame.append v.buf f
      if m.len > size then .inl (.failed scan.2)
      else if outside then .inl (.stop .fault)
      else if v.seqno + 1 = total ∧ m.len = size then .inl (.merged m scan.2)
      else .inr ⟨v.seqno + 1, some m, scan.2⟩
    if let some f := scan.1 then put f false
    else if v.seqno < sav.savLen then
      if let some slots := sav.slots then
        if let some f := savedAt id v.seqno slots then put f !spare
        else .inr { v with entries := scan.2 }
      else .inl (.stop .fault)
    else .inr { v with entries := scan.2 }
  else .inl (.failed v.entries)

/-- The count and the size of the frames of a request. The save area is counted when the batch has
too few. -/
def mergeCount (sav : Saved) (f : MergeFrame) (entries : List (UdpEntry α)) : Option (Nat × Nat) :=
  let batch := countRequest f.reqId (entries.tail.map (Option.map Prod.snd)) 1 f.len
  if batch.1 < f.total.toNat then
    sav.slots.map fun slots => countRequest f.reqId slots batch.1 batch.2
  else some batch

/-- What follows the loop over the sequence numbers. -/
def LoopEnd.mergeEnd (id : UInt16) (total : Nat) (sav : Saved) : LoopEnd α → MergeEnd α
  | .merged m entries => .complete m entries
  | .failed entries => mergeSave id total sav entries
  | .stop reason => .stop reason

/-- What follows `merge_frames`. -/
def UdpState.after (s : UdpState α) (a : α) : MergeEnd α → UdpState α
  | .complete m entries => { s with entries := some (a, m) :: entries.tail }
  | .incomplete sav entries => { s with sav := sav, entries := entries.tail }
  | .stop reason => { s with stop := reason }

/-- Where the code of `EvMemcachedUdp::process` is: at its loop over the batch, in the loop of
`merge_frames` over the sequence numbers, or at its end. -/
inductive UdpProcess (α : Type) where
  | batch (s : UdpState α)
  | merge (s : UdpState α) (a : α) (f : MergeFrame) (size : Nat) (v : MergeState α)
  | finished (s : UdpState α)

/-- The loop goes on unless memory outside of the arrays was read or written. -/
def UdpState.goOn (s : UdpState α) : UdpProcess α :=
  if s.stop.isSome then .finished s else .batch s

/-- One round of one of the two loops. -/
def UdpProcess.step : UdpProcess α → UdpProcess α
  | .finished s => .finished s
  | .batch s =>
      match s.entries with
      | [] => .finished s
      | none :: rest => .batch { s with entries := rest }
      | some (a, f) :: rest =>
          if f.total = 1 then .batch { s with entries := rest }
          else
            match mergeCount s.sav f (some (a, f) :: rest) with
            | none => .finished { s with stop := some .fault }
            | some count =>
                if f.total.toNat ≤ count.1 then
                  .merge s a f count.2 ⟨0, none, some (a, f) :: rest⟩
                else
                  (s.after a (mergeSave f.reqId f.total.toNat s.sav (some (a, f) :: rest))).goOn
  | .merge s a f size v =>
      match mergeStep f.reqId s.sav s.spare f.total.toNat size v with
      | .inl ended => (s.after a (ended.mergeEnd f.reqId f.total.toNat s.sav)).goOn
      | .inr v => .merge s a f size v

/-- The code is at the end of the batch. -/
def UdpProcess.Finished : UdpProcess α → Prop
  | .finished _ => True
  | _ => False

/-- The code comes to the end of the batch. -/
def UdpProcess.Terminates (p : UdpProcess α) : Prop := Halts UdpProcess.step UdpProcess.Finished p

end Step

end Raids.Memcached
