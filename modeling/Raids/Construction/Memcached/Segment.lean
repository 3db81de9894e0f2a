import Raids.Construction.Msg.Basic
import Raids.Library.Endian

namespace Raids.Memcached
open BigEndian

/-- The header of a datagram: request id, sequence number, total and an opaque word. -/
def mcHdrSize : Nat := 8

/-- The size of a full datagram; it holds a header and fits in a UDP datagram. -/
structure FrameSize where
  size : Nat
  header : mcHdrSize < size
  datagram : size < 2 ^ 16

/-- The frame size of both callers. -/
def frameSize : FrameSize := ⟨1400, by decide, by decide⟩

/-- The response to one request: the address it goes to and its buffers. The first buffer starts
with a header whose sequence number is zero and whose total is one. -/
structure Response (α : Type) where
  name : α
  iov : List Bytes
  header : ∀ first ∈ iov.head?, mcHdrSize ≤ first.length ∧ (first.drop 2).take 4 = [0, 0, 0, 1]

/-- A datagram with its scatter list. -/
structure Mmsghdr (α : Type) where
  name : α
  iov : List Bytes
  deriving DecidableEq, Repr

/-- The counts of the first pass: datagrams, scatter list entries, and whether a response needs
more than one datagram. -/
structure FrameCount where
  outNmsgs : Nat
  iovCnt : Nat
  needSplit : Bool
  deriving DecidableEq, Repr

/-- The first pass over the buffers of a response. The offset is a 32 bit word; where it wraps
around, the steps do not suffice and there is no result. -/
def countLoop (fs : Nat) :
    Nat → List Bytes → (off len next : Nat) → FrameCount → Option FrameCount
  | _, [], _, _, _, c => some c
  | 0, _ :: _, _, _, _, _ => none
  | fuel + 1, b :: rest, off, len, next, c =>
      let c := if len = 0 ∧ next = fs - mcHdrSize then
        { c with outNmsgs := c.outNmsgs + 1, iovCnt := c.iovCnt + 1, needSplit := true } else c
      let c := { c with iovCnt := c.iovCnt + 1 }
      if b.length - off + len < next then
        countLoop fs fuel rest 0 (len + (b.length - off)) next c
      else
        let off := (off + (next - len)) % 2 ^ 32
        if b.length = off then countLoop fs fuel rest 0 0 (fs - mcHdrSize) c
        else countLoop fs fuel (b :: rest) off 0 (fs - mcHdrSize) c

/-- Each step takes a buffer or some bytes of one. -/
def steps (iov : List Bytes) : Nat := iov.length + iov.flatten.length

def countFrames {α : Type} (fs : Nat) : List (Response α) → FrameCount → Option FrameCount
  | [], c => some c
  | r :: rs, c =>
      if r.iov = [] then countFrames fs rs c
      else
        (countLoop fs (steps r.iov) r.iov 0 0 fs { c with outNmsgs := c.outNmsgs + 1 }).bind
          (countFrames fs rs)

/-- The second pass: the entries that go to the current datagram, and the later datagrams, which
start with a new header. -/
def splitLoop (fs : Nat) :
    Nat → List Bytes → (off len next : Nat) → Option (List Bytes × List (List Bytes))
  | _, [], _, _, _ => some ([], [])
  | 0, _ :: _, _, _, _ => none
  | fuel + 1, b :: rest, off, len, next =>
      let emit (sz : Nat) (later : List Bytes × List (List Bytes)) :=
        let entries := (b.drop off).take sz :: later.1
        if len = 0 ∧ next = fs - mcHdrSize then ([], entries :: later.2) else (entries, later.2)
      if b.length - off + len < next then
        (splitLoop fs fuel rest 0 (len + (b.length - off)) next).map (emit (b.length - off))
      else
        let sz := next - len
        let off' := (off + sz) % 2 ^ 32
        if b.length = off' then (splitLoop fs fuel rest 0 0 (fs - mcHdrSize)).map (emit sz)
        else (splitLoop fs fuel (b :: rest) off' 0 (fs - mcHdrSize)).map (emit sz)

/-- The number of scatter list entries of a response; each later datagram has one for its header. -/
def entryCount (frames : List Bytes × List (List Bytes)) : Nat :=
  frames.1.length + (frames.2.map fun entries => entries.length + 1).sum

/-- The fields of a header are 16 bit words, the high byte first. -/
def setTotal (h : Bytes) (total : Nat) : Bytes := h.take 4 ++ digits 2 total ++ h.drop 6

def setSeqno (h : Bytes) (seqno : Nat) : Bytes := h.take 2 ++ digits 2 seqno ++ h.drop 4

/-- The first header gets the total and is the pattern of the others, which get their numbers. -/
def fixHeaders {α : Type} (name : α) (frames : List Bytes × List (List Bytes)) :
    List (Mmsghdr α) :=
  if entryCount frames ≤ 1 then [⟨name, frames.1⟩]
  else
    let h := setTotal (frames.1.headD []) (frames.2.length + 1)
    ⟨name, h :: frames.1.tail⟩ ::
      frames.2.mapIdx fun x entries => ⟨name, setSeqno (h.take mcHdrSize) (x + 1) :: entries⟩

/-- The datagrams of one response; an empty response has none. -/
def splitFrames {α : Type} (fs : Nat) (r : Response α) : Option (List (Mmsghdr α)) :=
  if r.iov = [] then some []
  else (splitLoop fs (steps r.iov) r.iov 0 0 fs).map (fixHeaders r.name)

/-- The buffers of a response are its datagram when nothing needs a split. -/
def wholeFrames {α : Type} (r : Response α) : List (Mmsghdr α) :=
  if r.iov = [] then [] else [⟨r.name, r.iov⟩]

/-- The counts of the first pass and the datagrams of each response, one after another. -/
def constructFrames {α : Type} (fs : FrameSize) (rs : List (Response α)) :
    Option (FrameCount × List (List (Mmsghdr α))) :=
  (countFrames fs.size rs ⟨0, 0, false⟩).bind fun c =>
    if c.needSplit then (rs.mapM (splitFrames fs.size)).map (c, ·)
    else some (c, rs.map wholeFrames)

end Raids.Memcached
