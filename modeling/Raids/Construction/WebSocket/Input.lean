import Raids.Construction.WebSocket.Frame
import Raids.Construction.Msg.Json

namespace Raids
open IncrementalParser

def wsPing : UInt8 := 9

def wsPong : UInt8 := 10

/-- A block of 64 bytes is masked word by word. -/
def maskBlock (mask : UInt32) (block : Bytes) : Bytes :=
  block.zipWith (· ^^^ ·) (List.replicate 16 (maskBytes mask)).flatten

/-- The blocks of the payload, and the bytes behind them. -/
def applyMaskFuel (mask : UInt32) : Nat → Bytes → Bytes
  | fuel + 1, p =>
      if 64 ≤ p.length then maskBlock mask (p.take 64) ++ applyMaskFuel mask fuel (p.drop 64)
      else maskBlock mask p
  | 0, p => p

def applyMask (mask : UInt32) (p : Bytes) : Bytes := applyMaskFuel mask (p.length + 1) p

/-- A frame without a mask is taken as it is. -/
def WebSocketFrame.unmask (ws : WebSocketFrame) (p : Bytes) : Bytes :=
  if ws.mask ≠ 0 then applyMask ws.mask p else p

/-- The used part of the message buffer, its start offset and its allocated size. -/
structure WsBuffer where
  wsbuf : Bytes
  wsoff : Nat
  wsalloc : Nat
  inside : wsoff ≤ wsbuf.length
  fits : wsbuf.length ≤ wsalloc

namespace WsBuffer

def empty : WsBuffer := ⟨[], 0, 0, le_rfl, le_rfl⟩

/-- The bytes that are not taken yet. -/
def unread (b : WsBuffer) : Bytes := b.wsbuf.drop b.wsoff

/-- A size is rounded up to a multiple of 1024. -/
def align (size : Nat) : Nat := (size + 1023) / 1024 * 1024

theorem le_align (size : Nat) : size ≤ align size := by
  unfold align
  omega

/-- The payload goes behind the used part, once the buffer is compacted or grown; the memory may be
refused. -/
def put (realloc : Nat → Bool) : Nat → WsBuffer → Bytes → Option WsBuffer
  | 0, _, _ => none
  | fuel + 1, b, payload =>
      if fits : b.wsbuf.length + payload.length ≤ b.wsalloc then
        some ⟨b.wsbuf ++ payload, b.wsoff, b.wsalloc,
          by rw [List.length_append]; exact Nat.le_add_right_of_le b.inside,
          by rw [List.length_append]; exact fits⟩
      else if 0 < b.wsoff then
        put realloc fuel ⟨b.unread, 0, b.wsalloc, Nat.zero_le _,
          Nat.le_trans (List.drop_sublist _ _).length_le b.fits⟩ payload
      else
        let size := align (b.wsbuf.length + payload.length)
        if realloc size then
          put realloc fuel ⟨b.wsbuf, b.wsoff, size, b.inside,
            Nat.le_trans (Nat.le_add_right _ _) (le_align _)⟩ payload
        else none

/-- The loop has one round to compact, one to grow and one to copy. -/
def append (realloc : Nat → Bool) (b : WsBuffer) (payload : Bytes) : Option WsBuffer :=
  b.put realloc 3 payload

/-- The offset goes to the bytes that are left. -/
def leave (b : WsBuffer) (rest : Bytes) : WsBuffer :=
  { b with wsoff := b.wsbuf.length - rest.length, inside := Nat.sub_le _ _ }

end WsBuffer

/-- The white space in front of a command. -/
def isBlank (c : UInt8) : Bool := c = 10 || c = 32 || c = 9 || c = 13

/-- The bytes that start a command that is possibly JSON. -/
def startsJson (c : UInt8) : Bool :=
  c = doubleQuote || c = singleQuote || c = openBracket || (48 ≤ c && c ≤ 57)

/-- The first byte selects the parser. -/
def readCommand (mem : JsonMem) (c : UInt8) (rest : Bytes) :
    Except RedisMsgStatus (RedisMsg × Nat) :=
  if startsJson c then unpackJson mem (c :: rest) else unpack mem.wrk (c :: rest)

/-- The loop over the commands of a buffer: the commands and errors, and the bytes that are left.
An error takes the whole buffer. -/
def processWsmsgFuel (mem : JsonMem) :
    Nat → Bytes → List (Event RedisMsg RedisMsgStatus) × Bytes
  | fuel + 1, c :: rest =>
      if isBlank c then processWsmsgFuel mem fuel rest
      else
        match readCommand mem c rest with
        | .error .partialValue => ([], c :: rest)
        | .error status => ([.error status], [])
        | .ok (msg, size) =>
            let done := processWsmsgFuel mem fuel ((c :: rest).drop size)
            (.message msg :: done.1, done.2)
  | _, p => ([], p)

/-- Each round takes at least one byte. -/
def processWsmsg (mem : JsonMem) (p : Bytes) : List (Event RedisMsg RedisMsgStatus) × Bytes :=
  processWsmsgFuel mem p.length p

/-- The memory of a connection. -/
structure WsMem where
  msg : JsonMem
  realloc : Nat → Bool

/-- A connection behind its upgrade: the bytes that are not decoded yet, the message buffer, the
commands and errors so far, and the payloads that were sent back. -/
structure WsConnection where
  recv : Bytes := []
  buf : WsBuffer := .empty
  closed : Bool := false
  events : List (Event RedisMsg RedisMsgStatus) := []
  pongs : List Bytes := []

/-- The largest payload. -/
def maxPayload : Nat := 10 * 1024 * 1024

/-- Any frame; the decoder sets all of its fields that are used. -/
def anyFrame : WebSocketFrame := ⟨0, 0, 0, false⟩

/-- The size of the frame at the front of the data, or 0 when it is not complete, or 1 when the
connection is closed. -/
def recvWsframe (mem : WsMem) (conn : WsConnection) : Nat × WsConnection :=
  let (hdrsize, ws) := WebSocketFrame.decode anyFrame conn.recv
  if hdrsize ≤ 1 then (hdrsize, conn)
  else if maxPayload < ws.payloadLen.toNat then (1, conn)
  else
    let size := ws.payloadLen.toNat
    let p := conn.recv.drop hdrsize
    if p.length < size then (0, conn)
    else
      let payload := ws.unmask (p.take size)
      if ws.opcode = wsPing then (hdrsize + size, { conn with pongs := conn.pongs ++ [payload] })
      else if ws.opcode = wsPong then (hdrsize + size, conn)
      else
        match conn.buf.append mem.realloc payload with
        | none => (1, conn)
        | some buf => (hdrsize + size, { conn with buf := buf })

/-- The commands in the message buffer are executed. -/
def WsConnection.execute (mem : WsMem) (conn : WsConnection) : WsConnection :=
  let done := processWsmsg mem.msg conn.buf.unread
  { conn with buf := conn.buf.leave done.2, events := conn.events ++ done.1 }

/-- The loop over the frames. -/
def processWebsockFuel (mem : WsMem) : Nat → WsConnection → WsConnection
  | 0, conn => conn
  | fuel + 1, conn =>
      if conn.recv.isEmpty then conn
      else
        let (used, conn) := recvWsframe mem conn
        if used = 0 then conn
        else if used = 1 then { conn with closed := true }
        else
          processWebsockFuel mem fuel
            (WsConnection.execute mem { conn with recv := conn.recv.drop used })

/-- Each frame has at least two bytes. -/
def processWebsock (mem : WsMem) (conn : WsConnection) : WsConnection :=
  processWebsockFuel mem (conn.recv.length + 1) conn

/-- Bytes arrive behind the received ones. -/
def receiveWebsock (mem : WsMem) (conn : WsConnection) (bytes : Bytes) : WsConnection :=
  if conn.closed then conn else processWebsock mem { conn with recv := conn.recv ++ bytes }

/-- A connection that has received some chunks. -/
def websockAfter (mem : WsMem) (chunks : List Bytes) : WsConnection :=
  chunks.foldl (receiveWebsock mem) {}

/-- A chunk that starts inside a block of 64 bytes is copied to the end of a block, masked there and
copied back. The blocks and the bytes behind them follow, and their number is the next start. -/
def applyMask2 (mask : UInt32) (p : Bytes) (j : Nat) : Bytes × Nat :=
  let i := if 0 < j then min (64 - j) p.length else 0
  let x := 64 - i
  let front :=
    if 0 < j then (maskBlock mask (List.replicate x 0 ++ p.take i)).drop x else []
  (front ++ applyMask mask (p.drop i), (p.length - i) % 64)

/-- The chunks of a payload are masked one behind the other. -/
def applyMaskChunks (mask : UInt32) : Nat → List Bytes → List Bytes
  | _, [] => []
  | j, p :: chunks =>
      let (masked, j) := applyMask2 mask p j
      masked :: applyMaskChunks mask j chunks

end Raids
