import Raids.Construction.Cmd.KeyGeometry
import Raids.Construction.Msg.Pack
import Raids.Library.Block

namespace Raids.Pubsub

/-- The output of a command: the buffers that are to be sent, the bytes of the tail buffer, and what
is in memory behind the buffers. -/
structure Output where
  iov : List Bytes
  out : Bytes
  behind : Nat → Nat → UInt8

namespace Output

/-- The bytes that are not sent yet. -/
def bytes (strm : Output) : Bytes := strm.iov.flatten ++ strm.out

def pending (strm : Output) : Nat := strm.bytes.length

/-- A tail buffer with bytes is flushed. -/
def flushed (strm : Output) : List Bytes :=
  if 0 < strm.out.length then strm.iov ++ [strm.out] else strm.iov

/-- The bytes from a place of a buffer on, which may go on behind it. -/
def readFrom (strm : Output) (k : Nat) (base : Bytes) (i n : Nat) : Bytes :=
  (List.range n).map fun t => (base[i + t]?).getD (strm.behind k (i + t - base.length))

end Output

/-- The buffers from the start mark on are copied. The one with the mark inside it is read from the
place that has the number of the buffer. -/
def copyResult (strm : Output) (result start : Nat) :
    List Bytes → Nat → Nat → Block UInt8 → Block UInt8
  | [], _, _, msg => msg
  | base :: iov, i, off, msg =>
      let len := base.length
      let msg :=
        if start ≤ off then msg.copy (result + (off - start)) base
        else if start < off + len then
          let j := off + len - start
          msg.copy result (strm.readFrom i base i (len - j))
        else msg
      copyResult strm result start iov (i + 1) (off + len) msg

/-- An output with the mark where the reply of the command starts. -/
structure Reply extends Output where
  start : Nat
  started : start ≤ toOutput.pending

/-- The sizes of the result and of the message are counted before anything is written. -/
def Reply.size (strm : Reply) : Nat := strm.pending - strm.start

def monitorSize (strm : Reply) (cmd : RedisMsg) : Nat :=
  4 + cmd.packSize + (if strm.size ≠ 0 then strm.size else 5) + (3 + 2) + (17 + 2)

/-- The message of a command for the monitors: the command, the bytes of its result behind the start
mark, and the time, where all digits of the microseconds show. -/
def fwdMonitor (strm : Reply) (cmd : RedisMsg) (us : Nat) : Block UInt8 :=
  let msg := Block.alloc (monitorSize strm cmd)
  let msg := msg.copy 0 (text "*3\r\n")
  let msg := msg.copy 4 cmd.pack
  let result := 4 + cmd.packSize
  let msg :=
    if strm.size = 0 then msg.copy result (text "*-1\r\n")
    else copyResult strm.toOutput result strm.start strm.flushed 0 0 msg
  let stamp := result + if strm.size = 0 then 5 else strm.size
  let msg := msg.copy stamp (text "$17\r\n")
  let msg := msg.copy (stamp + 5) (uint64ToString (us / 1000000))
  let msg := msg.copy (stamp + 15) (uint64ToString (us % 1000000 + 1000000))
  let msg := msg.copy (stamp + 15) [46]
  msg.copy (stamp + 22) crlf

end Raids.Pubsub
