import Raids.Construction.Cmd.KeyGeometry
import Raids.Construction.Exec.Request
import Raids.Construction.Memcached.Msg

namespace Raids.Memcached
open BigEndian

/-- The statuses of a binary response that the commands send. -/
inductive MemcachedBinStatus where
  | ok
  | notFound
  | exists
  | badArgs
  | notStored
  | badIncrValue
  | unknownCommand
  | allocFail
  | notSupported
  | internalError
  deriving DecidableEq, Repr

def MemcachedBinStatus.code : MemcachedBinStatus → Nat
  | .ok => 0
  | .notFound => 1
  | .exists => 2
  | .badArgs => 4
  | .notStored => 5
  | .badIncrValue => 6
  | .unknownCommand => 129
  | .allocFail => 130
  | .notSupported => 131
  | .internalError => 132

/-- The text of a status is the body of its response. -/
def MemcachedBinStatus.text : MemcachedBinStatus → Bytes
  | .ok => Raids.text "Ok"
  | .notFound => Raids.text "Not found"
  | .exists => Raids.text "Data exists for key."
  | .badArgs => Raids.text "Invalid arguments"
  | .notStored => Raids.text "Not stored."
  | .badIncrValue => Raids.text "Non-numeric server-side value for incr or decr"
  | .unknownCommand => Raids.text "Unknown command"
  | .allocFail => Raids.text "Out of memory"
  | .notSupported => Raids.text "Not supported"
  | .internalError => Raids.text "Internal error"

/-- The first byte of a binary response. -/
def binResponseMagic : UInt8 := 0x81

/-- The header of a binary response. The lengths are words of their width. -/
def binHdr (m : MemcachedMsg) (keylen extralen status datalen cas : Nat) : Bytes :=
  [binResponseMagic, m.opcode] ++ digits 2 keylen ++ [UInt8.ofNat extralen, 0] ++
    digits 2 status ++ digits 4 datalen ++ m.opaqueBytes ++ digits 8 cas

/-- A line of text ends with carriage return and line feed. -/
def sendString (s : Bytes) : Bytes := s ++ [cr, lf]

/-- An empty text stands for itself: the length of a text without one is measured. -/
def sendBinStatus (m : MemcachedMsg) (status : MemcachedBinStatus) (s : Bytes) : Bytes :=
  binHdr m 0 0 status.code s.length 0 ++ s

def sendBinStatusKey (m : MemcachedMsg) (status : MemcachedBinStatus) (key : Bytes) : Bytes :=
  binHdr m key.length 0 status.code key.length 0 ++ key

/-- The block of a value; the last block is followed by the end line. -/
def formatValue (key : Bytes) (flags : Nat) (data : Bytes) (cas : Nat) (isEnd : Bool) : Bytes :=
  text "VALUE " ++ key ++ text " " ++ uint64ToString flags ++ text " " ++
    uint64ToString data.length ++ (if cas ≠ 0 then text " " ++ uint64ToString cas else []) ++
    [cr, lf] ++ data ++ (if isEnd then [cr, lf] ++ text "END" else []) ++ [cr, lf]

/-- The response of a binary retrieval: flags, perhaps the key, and the value. The length in the
header leaves the key out. -/
def sendBinValue (m : MemcachedMsg) (key : Bytes) (flags cas : Nat) (data : Bytes) : Bytes :=
  let key := if m.wantsKey then key else []
  binHdr m key.length 4 0 (data.length + 4) cas ++ digits 4 flags ++ key ++ data

end Raids.Memcached
