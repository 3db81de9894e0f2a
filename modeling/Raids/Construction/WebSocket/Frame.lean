import Raids.Construction.Msg.Basic
import Raids.Library.Endian

namespace Raids
open BigEndian

/-- The header of a frame. A frame without a mask has the mask zero. -/
structure WebSocketFrame where
  payloadLen : UInt64
  mask : UInt32
  opcode : UInt8
  fin : Bool
  deriving DecidableEq, Repr

def wsClose : UInt8 := 8

/-- The bytes of the mask in memory, the low byte first. -/
def maskBytes (mask : UInt32) : Bytes := (digits 4 mask.toNat).reverse

def maskOfBytes (buf : Bytes) : UInt32 := UInt32.ofNat (value buf.reverse)

namespace WebSocketFrame

def hdrSize (ws : WebSocketFrame) : UInt32 :=
  let sz : UInt32 := if ws.mask ≠ 0 then 4 else 0
  if ws.opcode = wsClose then 1
  else sz + if ws.payloadLen < 126 then 2 else if ws.payloadLen ≤ 0xffff then 4 else 10

def frameSize (ws : WebSocketFrame) : UInt64 := ws.hdrSize.toUInt64 + ws.payloadLen

/-- The mask follows the length when its bit was set. -/
def decodeMask (ws : WebSocketFrame) (buf : Bytes) (i : Nat) : Nat × WebSocketFrame :=
  if ws.mask ≠ 0 then
    if buf.length < i + 4 then (0, ws)
    else (i + 4, { ws with mask := maskOfBytes ((buf.drop i).take 4) })
  else (i, ws)

/-- The number of header bytes, or zero when the buffer ends before the header does. -/
def decode (ws : WebSocketFrame) (buf : Bytes) : Nat × WebSocketFrame :=
  match buf with
  | [] => (0, ws)
  | x :: rest =>
      let ws := { ws with fin := x &&& 0x80 ≠ 0, opcode := x &&& 0xf }
      if ws.opcode = wsClose then (1, ws)
      else
        match rest with
        | [] => (0, ws)
        | y :: _ =>
            let ws := { ws with mask := if y &&& 0x80 ≠ 0 then 1 else 0 }
            if y &&& 0x7f = 126 then
              if buf.length < 2 + 2 then (0, ws)
              else
                let len := value ((buf.drop 2).take 2)
                decodeMask { ws with payloadLen := UInt64.ofNat len } buf 4
            else if y &&& 0x7f = 127 then
              if buf.length < 2 + 8 then (0, ws)
              else
                let len := value ((buf.drop 2).take 8)
                decodeMask { ws with payloadLen := UInt64.ofNat len } buf 10
            else decodeMask { ws with payloadLen := (y &&& 0x7f).toUInt64 } buf 2

/-- The longest length form has eight bytes, of which the first three are zero. -/
def encode (ws : WebSocketFrame) : Bytes :=
  let first := (if ws.fin then 0x80 else 0) ||| ws.opcode
  let bit : UInt8 := if ws.mask ≠ 0 then 0x80 else 0
  let len := ws.payloadLen
  let mask := if ws.mask ≠ 0 then maskBytes ws.mask else []
  if ws.opcode = wsClose then [first]
  else if len < 126 then [first, len.toUInt8 ||| bit] ++ mask
  else if len ≤ 0xffff then
    [first, 126 ||| bit, ((len >>> 8) &&& 0xff).toUInt8, (len &&& 0xff).toUInt8] ++ mask
  else
    [first, 127 ||| bit, 0, 0, 0, ((len >>> 32) &&& 0xff).toUInt8,
      ((len >>> 24) &&& 0xff).toUInt8, ((len >>> 16) &&& 0xff).toUInt8,
      ((len >>> 8) &&& 0xff).toUInt8, (len &&& 0xff).toUInt8] ++ mask

end WebSocketFrame

end Raids
