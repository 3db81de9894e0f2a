import Raids.Construction.Msg.Number
import Raids.Library.Endian

namespace Raids.Memcached
open BigEndian

/-- The results of `MemcachedStatus`. -/
inductive MemcachedStatus where
  | ok
  | msgPartial
  | empty
  | setupOk
  | success
  | depends
  | continue
  | quit
  | version
  | allocFail
  | badCmd
  | badArgs
  | intOverflow
  | badInt
  | badIncr
  | errKv
  | badType
  | notImpl
  | badPad
  | badBinArgs
  | badBinCmd
  | badResult
  deriving DecidableEq, Repr

/-- The commands of `MemcachedCmd`. -/
inductive MemcachedCmd where
  | none
  | set
  | add
  | replace
  | append
  | prepend
  | cas
  | get
  | gets
  | delete
  | incr
  | decr
  | touch
  | gat
  | gats
  | slabs
  | lru
  | lruCrawler
  | watch
  | stats
  | flushAll
  | cacheMemlimit
  | version
  | quit
  | noOp
  | verbosity
  deriving DecidableEq, Repr

/-- An argument is a pointer into the buffer and the bytes it points to. -/
structure MemcachedArgs where
  start : Nat
  str : Bytes
  deriving DecidableEq, Repr

/-- A request, text or binary. The command byte is split into its command and its three flags. -/
structure MemcachedMsg where
  args : List MemcachedArgs
  keycnt : Nat
  first : Nat
  flags : Nat
  ttl : Nat
  cas : Nat
  msglen : Nat
  inc : Nat
  msg : Option MemcachedArgs
  command : MemcachedCmd
  quiet : Bool
  wantsKey : Bool
  binary : Bool
  opcode : UInt8
  res : MemcachedStatus
  opaqueBytes : Bytes
  ini : Nat
  deriving DecidableEq, Repr

namespace MemcachedMsg

/-- A new message has no keys; the fields that no parser sets stay zero. -/
def fresh : MemcachedMsg where
  args := []
  keycnt := 0
  first := 0
  flags := 0
  ttl := 0
  cas := 0
  msglen := 0
  inc := 0
  msg := none
  command := .none
  quiet := false
  wantsKey := false
  binary := false
  opcode := 0
  res := .ok
  opaqueBytes := [0, 0, 0, 0]
  ini := 0

def argcnt (m : MemcachedMsg) : Nat := m.args.length

def keys (m : MemcachedMsg) : List MemcachedArgs := (m.args.drop m.first).take m.keycnt

/-- The bytes of an argument; there are none behind the last one. -/
def arg (m : MemcachedMsg) (i : Nat) : Bytes := (m.args.map (·.str)).getD i []

end MemcachedMsg

/-- The fields of the 24 byte header that the parsers read. -/
structure MemcachedBinHdr where
  opcode : UInt8
  keylen : Nat
  extralen : Nat
  datalen : Nat
  opaqueBytes : Bytes
  cas : Nat
  deriving DecidableEq, Repr

def MemcachedBinHdr.size : Nat := 24

/-- The first byte of a binary request. -/
def binMagic : UInt8 := 0x80

def readBinHdr (b : Bytes) : MemcachedBinHdr where
  opcode := b.getD 1 0
  keylen := value ((b.drop 2).take 2)
  extralen := (b.getD 4 0).toNat
  datalen := value ((b.drop 8).take 4)
  opaqueBytes := (b.drop 12).take 4
  cas := value ((b.drop 16).take 8)

end Raids.Memcached
