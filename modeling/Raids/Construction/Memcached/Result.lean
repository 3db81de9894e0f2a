import Raids.Construction.Memcached.Reply
import Raids.Construction.Memcached.Unpack

namespace Raids.Memcached

/-- The results of `MemcachedResult`. -/
inductive MemcachedResult where
  | mrNone
  | mrEnd
  | mrDeleted
  | mrStored
  | mrValue
  | mrInt
  | mrTouched
  | mrNotFound
  | mrNotStored
  | mrExists
  | mrError
  | mrClientError
  | mrServerError
  | mrBusy
  | mrBadclass
  | mrNospare
  | mrNotfull
  | mrUnsafe
  | mrSame
  | mrOk
  | mrStat
  | mrVersion
  deriving DecidableEq, Repr

/-- The first four letters tell the result. -/
def resultKeywords : List (Bytes × MemcachedResult) :=
  [ ("DELE", .mrDeleted), ("STOR", .mrStored), ("VALU", .mrValue), ("TOUC", .mrTouched),
    ("EXIS", .mrExists), ("ERRO", .mrError), ("CLIE", .mrClientError), ("SERV", .mrServerError),
    ("BUSY", .mrBusy), ("BADC", .mrBadclass), ("NOSP", .mrNospare), ("NOTF", .mrNotfull),
    ("UNSA", .mrUnsafe), ("SAME", .mrSame), ("STAT", .mrStat), ("VERS", .mrVersion)
  ].map fun (word, result) => (c4Kw (text word), result)

/-- A line of `sz` bytes whose first byte is not below zero and whose second is not above nine is a
number. The type `char` is signed. -/
def startsInt (s : Bytes) (sz : Nat) : Bool :=
  0 < sz ∧ 48 ≤ s.getD 0 0 ∧ s.getD 0 0 < 128 ∧ (s.getD 1 0 ≤ 57 ∨ 128 ≤ s.getD 1 0)

/-- The result of the line of `sz` bytes at the front of the buffer. -/
def strToResult (s : Bytes) (sz : Nat) : MemcachedResult :=
  if startsInt s sz then .mrInt
  else if sz < 4 then
    if sz = 2 ∧ c4Kw (s.take 2) = c4Kw (text "OK") then .mrOk
    else if sz = 3 ∧ c4Kw (s.take 3) = c4Kw (text "END") then .mrEnd
    else .mrNone
  else if c4Kw s = c4Kw (text "NOT_") then
    if s.getD 4 0 = 70 ∨ s.getD 4 0 = 102 then .mrNotFound else .mrNotStored
  else (resultKeywords.lookup (c4Kw s)).getD .mrNone

/-- A response. The key is an argument whose length is a word of 16 bits. -/
structure MemcachedRes where
  args : List MemcachedArgs := []
  flags : Nat := 0
  ival : Nat := 0
  cas : Nat := 0
  msglen : Nat := 0
  msg : Option MemcachedArgs := none
  key : Option MemcachedArgs := none
  res : MemcachedResult := .mrNone
  isErr : Bool := false
  deriving DecidableEq, Repr

namespace MemcachedRes

/-- The bytes of an argument; there are none behind the last one. -/
def arg (m : MemcachedRes) (i : Nat) : Bytes := (m.args.map (·.str)).getD i []

/-- The first argument with the low bits of its length. -/
def keyOf (m : MemcachedRes) : Option MemcachedArgs :=
  m.args.head?.map fun key => { key with str := key.str.take (key.str.length % 2 ^ 16) }

/-- Key, flags, length and perhaps the serial number. The status of a serial number takes the place
of an earlier failure. -/
def parseValueResult (m : MemcachedRes) : MemcachedStatus × MemcachedRes :=
  if m.args.length ≠ 3 ∧ m.args.length ≠ 4 then (.badArgs, m)
  else
    let m := { m with key := m.keyOf }
    let (r, m) :=
      match getU32 (m.arg 1) with
      | .error status => (status, m)
      | .ok flags =>
          match getU64 (m.arg 2) with
          | .error status => (status, { m with flags })
          | .ok msglen => (.ok, { m with flags, msglen })
    if m.args.length = 4 then
      match getU64 (m.arg 3) with
      | .error status => (status, m)
      | .ok cas => (.ok, { m with cas })
    else (r, m)

end MemcachedRes

/-- What `unpack` returns: its status, the consumed length, and the response. -/
structure UnpackedRes where
  status : MemcachedStatus
  length : Nat
  res : MemcachedRes
  deriving DecidableEq, Repr

/-- The first byte behind the word of a result and its blank. -/
def argsFrom (line : Bytes) : Nat := 4 + ((line.drop 4).takeWhile (· ≠ space)).length + 1

/-- The value of a response stands behind its line, with a line end behind it. -/
def unpackValue (buf : Bytes) (j : Nat) (m : MemcachedRes) : UnpackedRes :=
  match m.parseValueResult with
  | (.ok, m) =>
      let next := (j + m.msglen + 2) % 2 ^ 64
      if buf.length < next then ⟨.msgPartial, buf.length, m⟩
      else ⟨.ok, next, { m with msg := some ⟨j, (buf.drop j).take m.msglen⟩ }⟩
  | (status, m) => ⟨status, j, m⟩

/-- One response at the front of the buffer. -/
def unpackRes (room : Nat → Bool) (buf : Bytes) : UnpackedRes :=
  if eol buf = buf.length then ⟨.msgPartial, buf.length, {}⟩
  else
    let line := commandLine buf
    let j := eol buf + 1
    let m : MemcachedRes := { res := strToResult buf line.length }
    match m.res with
    | .mrNone => ⟨.badResult, j, {}⟩
    | .mrValue =>
        unpackValue buf j
          { m with args := parseMcargs room (argsFrom line) (line.drop (argsFrom line)) }
    | .mrStat | .mrVersion =>
        ⟨.ok, j, { m with args := parseMcargs room (argsFrom line) (line.drop (argsFrom line)) }⟩
    | .mrInt =>
        match getU64 line with
        | .error status => ⟨status, j, m⟩
        | .ok ival => ⟨.ok, j, { m with ival }⟩
    | .mrError | .mrClientError | .mrServerError => ⟨.ok, j, { m with isErr := true }⟩
    | _ => ⟨.ok, j, m⟩

end Raids.Memcached
