import Raids.Construction.WebSocket.Input
import Raids.Construction.Msg.Pack

namespace Raids

/-- The output of an upgraded connection: the bytes that the peer has got and their count, the
buffers that are to be sent and their count, the tail buffer, and the place up to which the stream
is framed. -/
structure WsStream where
  sent : Bytes
  bytesSent : Nat
  iov : List Bytes
  wrPending : Nat
  out : Bytes
  websockOff : Nat
  deriving DecidableEq, Repr

namespace WsStream

/-- The bytes that are not sent yet. -/
def bytes (s : WsStream) : Bytes := s.iov.flatten ++ s.out

def pending (s : WsStream) : Nat := s.wrPending + s.out.length

end WsStream

/-- The operations of the event library; the number is what the library and the socket choose. -/
structure StreamOps where
  flush : WsStream → WsStream
  append : Nat → WsStream → Bytes → WsStream
  send : Nat → WsStream → WsStream

/-- What the framing relies on: the tail buffer is moved behind the others, bytes that are appended
go behind the stream and leave its buffers, and some bytes at the front of the stream are sent. -/
structure StreamOps.Lawful (ops : StreamOps) : Prop where
  flush : ∀ s, ops.flush s =
    { s with
      iov := s.iov ++ [s.out]
      wrPending := s.wrPending + s.out.length
      out := [] }
  append : ∀ choice s bytes, ∃ iov out, s.iov <+: iov ∧ iov.flatten ++ out = s.bytes ++ bytes ∧
    ops.append choice s bytes =
      { s with
        iov := iov
        wrPending := s.wrPending + (iov.flatten.length - s.iov.flatten.length)
        out := out }
  send : ∀ choice s, ∃ count iov, count ≤ s.bytes.length ∧ iov.flatten = s.bytes.drop count ∧
    ops.send choice s =
      { s with
        sent := s.sent ++ s.bytes.take count
        bytesSent := s.bytesSent + count
        iov := iov
        wrPending := s.pending - count
        out := [] }

def atSign : UInt8 := 64

def wsText (size : Nat) : WebSocketFrame := ⟨UInt64.ofNat size, 0, 1, true⟩

def wsPongFrame (size : Nat) : WebSocketFrame := ⟨UInt64.ofNat size, 0, wsPong, true⟩

/-- A payload in a frame of text. -/
def textFrame (payload : Bytes) : Bytes := (wsText payload.length).encode ++ payload

def pongFrame (payload : Bytes) : Bytes := (wsPongFrame payload.length).encode ++ payload

/-- The item at the front of the output: the size of its payload, its own size, and its message
unless it is a literal. -/
structure WsItemSize where
  size : Nat
  msgsize : Nat
  msg : Option RedisMsg

/-- An at sign and a length are in front of a literal, anything else is a message. -/
def measureItem (wrk : ScratchMem) (buf : Bytes) : Option WsItemSize :=
  if 2 < buf.length ∧ buf.head? = some atSign then
    let size := (buf.getD 1 0).toNat
    if buf.length < size + 2 then none else some ⟨size, size + 2, none⟩
  else
    match unpack wrk buf with
    | .ok (msg, msgsize) => some ⟨msg.toAlmostJsonSize false + crlf.length, msgsize, some msg⟩
    | .error _ => none

/-- The size of the frame of an item. -/
def WsItemSize.framed (item : WsItemSize) : Nat := item.size + (wsText item.size).hdrSize.toNat

/-- The first pass adds the sizes up, and keeps the last item. -/
def measureItems (wrk : ScratchMem) : Nat → Bytes → Option (Nat × WsItemSize)
  | 0, _ => none
  | fuel + 1, buf =>
      match measureItem wrk buf with
      | none => none
      | some item =>
          if item.msgsize = buf.length then some (item.framed, item)
          else
            (measureItems wrk fuel (buf.drop item.msgsize)).map fun (totsize, last) =>
              (item.framed + totsize, last)

/-- The frame of an item; the line end is written at the end of its payload. -/
def encodeItem (buf : Bytes) (item : WsItemSize) : Bytes :=
  (wsText item.size).encode ++
    match item.msg with
    | none => (buf.drop 2).take item.size
    | some msg => (msg.toAlmostJson false).take (item.size - crlf.length) ++ crlf

/-- The second pass reads the items again, up to the size that the first one has found. -/
def encodeItems (wrk : ScratchMem) : Nat → Nat → Bytes → Bytes
  | 0, _, _ => []
  | fuel + 1, totsize, buf =>
      match measureItem wrk buf with
      | none => []
      | some item =>
          let frame := encodeItem buf item
          if frame.length = totsize then frame
          else frame ++ encodeItems wrk fuel (totsize - frame.length) (buf.drop item.msgsize)

/-- The first buffer with a byte behind the framed ones. -/
def findOff (websockOff : Nat) : Nat → List Bytes → Nat
  | _, [] => 0
  | nbytes, b :: iov =>
      if websockOff < nbytes + b.length then 0 else findOff websockOff (nbytes + b.length) iov + 1

section Service

variable (ops : StreamOps) (wrk : ScratchMem)

/-- The output behind the framed bytes is replaced by its frames. -/
def frameWebsock2 (s : WsStream) : Bool × WsStream :=
  let s := if s.out.isEmpty then s else ops.flush s
  let off := findOff s.websockOff s.bytesSent s.iov
  if off = s.iov.length then (true, s)
  else
    let buf := (s.iov.drop off).flatten
    let s := { s with iov := s.iov.take off ++ [buf] }
    match measureItems wrk buf.length buf with
    | none => (false, s)
    | some (totsize, last) =>
        if 0 < totsize then
          let newbuf :=
            if totsize = last.framed then encodeItem buf last
            else encodeItems wrk buf.length totsize buf
          (true,
            { s with
              iov := s.iov.take off ++ [newbuf]
              wrPending :=
                if buf.length ≤ totsize then s.wrPending + (totsize - buf.length)
                else s.wrPending - (buf.length - totsize)
              websockOff := s.websockOff + totsize })
        else (true, s)

/-- The largest literal. -/
def maxLiteral : Nat := 255

/-- The chunks of the output of the terminal. -/
def termChunks : Nat → Bytes → List Bytes
  | 0, _ => []
  | fuel + 1, buf =>
      if buf.isEmpty then [] else buf.take maxLiteral :: termChunks fuel (buf.drop maxLiteral)

/-- A literal as it is put into the output. -/
def literalText (chunk : Bytes) : Bytes := atSign :: UInt8.ofNat chunk.length :: chunk

def flushTerm (choice : Nat) (s : WsStream) (buf : Bytes) : WsStream :=
  (termChunks buf.length buf).foldl (fun s chunk => ops.append choice s (literalText chunk)) s

/-- A prompt may follow the messages, and is framed as well. -/
def frameWebsock (choice : Nat) (prompt : Bytes) (s : WsStream) : Bool × WsStream :=
  let (framed, s) := frameWebsock2 ops wrk s
  if prompt.isEmpty then (framed, s)
  else (framed, (frameWebsock2 ops wrk (flushTerm ops choice s prompt)).2)

/-- New output is framed before it is sent. -/
def writeWebsock (choice : Nat) (prompt : Bytes) (s : WsStream) : WsStream :=
  if s.websockOff ≠ 0 ∧ s.websockOff < s.bytesSent + s.pending then
    let (framed, s) := frameWebsock ops wrk choice prompt s
    if framed then ops.send choice s else s
  else ops.send choice s

/-- What a connection puts into its output: replies and published messages, and answers to
pings. -/
inductive WsOutput where
  | reply (msg : RedisMsg)
  | literal (chunk : Bytes)
  | pong (payload : Bytes)

/-- The bytes that are appended. -/
def WsOutput.text : WsOutput → Bytes
  | .reply msg => msg.pack
  | .literal chunk => literalText chunk
  | .pong payload => pongFrame payload

/-- The frame that the peer is to get. -/
def WsOutput.frame : WsOutput → Bytes
  | .reply msg => textFrame (msg.toAlmostJson false ++ crlf)
  | .literal chunk => textFrame chunk
  | .pong payload => pongFrame payload

/-- Something is put into the output, the terminal shows some bytes, or the output is written. -/
inductive WsAction where
  | put (choice : Nat) (output : WsOutput)
  | terminal (choice : Nat) (buf : Bytes)
  | write (choice : Nat) (prompt : Bytes)

def WsStream.act (s : WsStream) : WsAction → WsStream
  | .put choice output => ops.append choice s output.text
  | .terminal choice buf => flushTerm ops choice s buf
  | .write choice prompt => writeWebsock ops wrk choice prompt s

/-- A connection that has taken some actions. -/
def WsStream.after (s : WsStream) (actions : List WsAction) : WsStream :=
  actions.foldl (WsStream.act ops wrk) s

end Service

end Raids
