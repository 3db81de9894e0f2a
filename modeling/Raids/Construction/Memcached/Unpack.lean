import Raids.Construction.Cmd.KeyGeometry
import Raids.Construction.Memcached.Msg
import Raids.Library.IncrementalParser

namespace Raids.Memcached

/-- The blank between two words. -/
def space : UInt8 := 32

/-- The type `char` is signed, so the bytes from 128 on are below the blank as well. -/
def isControl (c : UInt8) : Bool := c < 32 ∨ 128 ≤ c

/-- The words of a line and where they start; `start` is the start of an open word. -/
def wordsFrom : Option MemcachedArgs → Nat → Bytes → List MemcachedArgs
  | start, _, [] => start.toList
  | start, pos, c :: line =>
      if c = space then start.toList ++ wordsFrom none (pos + 1) line
      else
        match start with
        | none => wordsFrom (some ⟨pos, [c]⟩) (pos + 1) line
        | some word => wordsFrom (some ⟨word.start, word.str ++ [c]⟩) (pos + 1) line

/-- One argument fits in the message; `room` tells whether memory for more is there. -/
def parseMcargs (room : Nat → Bool) (pos : Nat) (line : Bytes) : List MemcachedArgs :=
  let args := wordsFrom none pos line
  if args.length ≤ 1 ∨ room args.length then args else []

def getU64 (str : Bytes) : Except MemcachedStatus Nat :=
  match stringToUint str with
  | .ok val => .ok val
  | .error .intOverflow => .error .intOverflow
  | .error .badInt => .error .badInt
  | .error _ => .ok 0

def getU32 (str : Bytes) : Except MemcachedStatus Nat :=
  match getU64 str with
  | .ok val => if 0xffffffff < val then .error .intOverflow else .ok val
  | .error status => .error status

namespace MemcachedMsg

/-- SET, ADD, REPLACE, APPEND and PREPEND: key, flags, ttl, length and `noreply`. -/
def parseStore (m : MemcachedMsg) : Except MemcachedStatus MemcachedMsg :=
  if m.argcnt ≠ 4 ∧ m.argcnt ≠ 5 then .error .badArgs
  else do
    let flags ← getU32 (m.arg 1)
    let ttl ← getU64 (m.arg 2)
    let msglen ← getU64 (m.arg 3)
    .ok { m with flags, ttl, msglen, keycnt := 1, first := 0, quiet := m.argcnt = 5,
                 cas := 0, inc := 0, msg := none }

/-- CAS has the number to compare in front of `noreply`. -/
def parseCas (m : MemcachedMsg) : Except MemcachedStatus MemcachedMsg :=
  if m.argcnt ≠ 5 ∧ m.argcnt ≠ 6 then .error .badArgs
  else do
    let flags ← getU32 (m.arg 1)
    let ttl ← getU64 (m.arg 2)
    let msglen ← getU64 (m.arg 3)
    let cas ← getU64 (m.arg 4)
    .ok { m with flags, ttl, msglen, cas, keycnt := 1, first := 0, inc := 0, msg := none,
                 quiet := m.argcnt = 6 }

/-- GET and GETS: all arguments are keys. -/
def parseRetr (m : MemcachedMsg) : Except MemcachedStatus MemcachedMsg :=
  if m.argcnt = 0 then .error .badArgs
  else .ok { m with keycnt := m.argcnt, first := 0, ttl := 0, cas := 0, msglen := 0, inc := 0,
                    msg := none }

/-- GAT and GATS: the ttl comes before the keys. -/
def parseGat (m : MemcachedMsg) : Except MemcachedStatus MemcachedMsg :=
  if m.argcnt ≤ 1 then .error .badArgs
  else do
    let ttl ← getU64 (m.arg 0)
    .ok { m with ttl, keycnt := m.argcnt - 1, first := 1, cas := 0, msglen := 0, inc := 0,
                 msg := none }

def parseDel (m : MemcachedMsg) : Except MemcachedStatus MemcachedMsg :=
  if m.argcnt ≠ 1 ∧ m.argcnt ≠ 2 then .error .badArgs
  else .ok { m with keycnt := 1, first := 0, ttl := 0, cas := 0, msglen := 0, inc := 0,
                    msg := none, quiet := m.argcnt = 2 }

def parseIncr (m : MemcachedMsg) : Except MemcachedStatus MemcachedMsg :=
  if m.argcnt ≠ 2 ∧ m.argcnt ≠ 3 then .error .badArgs
  else do
    let inc ← getU64 (m.arg 1)
    .ok { m with inc, keycnt := 1, first := 0, cas := 0, ttl := 0, msglen := 0, msg := none,
                 quiet := m.argcnt = 3 }

def parseTouch (m : MemcachedMsg) : Except MemcachedStatus MemcachedMsg :=
  if m.argcnt ≠ 2 ∧ m.argcnt ≠ 3 then .error .badArgs
  else do
    let ttl ← getU64 (m.arg 1)
    .ok { m with ttl, keycnt := 1, first := 0, cas := 0, msglen := 0, inc := 0, msg := none,
                 quiet := m.argcnt = 3 }

end MemcachedMsg

/-- A parser of a binary body returns its status and the number of bytes it takes;
no number means that the body is not complete. -/
structure BinBody where
  length : Nat
  result : Except MemcachedStatus MemcachedMsg

namespace MemcachedMsg

/-- The key of a binary request stands behind its extras. -/
def binKey (m : MemcachedMsg) (b : MemcachedBinHdr) (ptr : Nat) (body : Bytes) : MemcachedMsg :=
  { m with args := [⟨ptr, body.take b.keylen⟩], keycnt := 1, first := 0 }

/-- SET, ADD and REPLACE: the extras are flags and ttl. -/
def parseBinStore (m : MemcachedMsg) (b : MemcachedBinHdr) (ptr : Nat) (body : Bytes) :
    Option BinBody :=
  if body.length < b.datalen then none
  else some ⟨b.datalen,
    if b.datalen < b.keylen + b.extralen ∨ b.keylen = 0 ∨ b.extralen ≠ 8 then .error .badBinArgs
    else
      let msglen := b.datalen - (b.extralen + b.keylen)
      .ok { m.binKey b (ptr + 8) (body.drop 8) with
            flags := BigEndian.value (body.take 4)
            ttl := BigEndian.value ((body.drop 4).take 4)
            cas := b.cas
            msglen
            inc := 0
            msg := some ⟨ptr + 8 + b.keylen, (body.drop (8 + b.keylen)).take msglen⟩ }⟩

/-- APPEND and PREPEND have no extras. -/
def parseBinPend (m : MemcachedMsg) (b : MemcachedBinHdr) (ptr : Nat) (body : Bytes) :
    Option BinBody :=
  if body.length < b.datalen then none
  else some ⟨b.datalen,
    if b.datalen < b.keylen ∨ b.keylen = 0 ∨ b.extralen ≠ 0 then .error .badBinArgs
    else
      let msglen := b.datalen - b.keylen
      .ok { m.binKey b ptr body with
            flags := 0
            ttl := 0
            cas := 0
            msglen
            inc := 0
            msg := some ⟨ptr + b.keylen, (body.drop b.keylen).take msglen⟩ }⟩

/-- DELETE and the four forms of GET take the length of the key. -/
def parseBinRetr (m : MemcachedMsg) (b : MemcachedBinHdr) (ptr : Nat) (body : Bytes) :
    Option BinBody :=
  if body.length < b.datalen then none
  else some ⟨b.keylen,
    if b.datalen ≠ b.keylen ∨ b.keylen = 0 ∨ b.extralen ≠ 0 then .error .badBinArgs
    else .ok { m.binKey b ptr body with
               flags := 0
               ttl := 0
               cas := 0
               msglen := 0
               inc := 0
               msg := none }⟩

/-- TOUCH and GAT: the extra is the ttl. -/
def parseBinTouch (m : MemcachedMsg) (b : MemcachedBinHdr) (ptr : Nat) (body : Bytes) :
    Option BinBody :=
  if body.length < b.datalen then none
  else some ⟨b.datalen,
    if b.datalen ≠ b.keylen + b.extralen ∨ b.keylen = 0 ∨ b.extralen ≠ 4 then .error .badBinArgs
    else .ok { m.binKey b (ptr + 4) (body.drop 4) with
               flags := 0
               ttl := BigEndian.value (body.take 4)
               cas := 0
               msglen := 0
               inc := 0
               msg := none }⟩

/-- INCR and DECR: the extras are the amount, the initial value and the ttl. -/
def parseBinIncr (m : MemcachedMsg) (b : MemcachedBinHdr) (ptr : Nat) (body : Bytes) :
    Option BinBody :=
  if body.length < b.datalen then none
  else some ⟨b.datalen,
    if b.datalen ≠ b.keylen + b.extralen ∨ b.keylen = 0 ∨ b.extralen ≠ 20 then .error .badBinArgs
    else .ok { m.binKey b (ptr + 20) (body.drop 20) with
               flags := 0
               inc := BigEndian.value (body.take 8)
               ini := BigEndian.value ((body.drop 8).take 8)
               ttl := BigEndian.value ((body.drop 16).take 4)
               msglen := 0
               msg := none }⟩

/-- The other requests have no key; `extraSz` is the length of their extras. -/
def parseBinOp (m : MemcachedMsg) (b : MemcachedBinHdr) (body : Bytes) (extraSz : Nat) :
    Option BinBody :=
  if body.length < b.datalen then none
  else some ⟨b.datalen,
    if b.datalen ≠ extraSz ∨ b.keylen ≠ 0 ∨ b.extralen ≠ extraSz then .error .badBinArgs
    else .ok { m with
               args := []
               keycnt := 0
               first := 0
               flags := 0
               inc := 0
               ttl := if extraSz = 4 then BigEndian.value (body.take 4) else 0
               msglen := 0
               msg := none }⟩

end MemcachedMsg

/-- The command, the quiet flag and the key flag of an opcode. -/
def opCmd : List (MemcachedCmd × Bool × Bool) :=
  [ (.get, false, false), (.set, false, false), (.add, false, false), (.replace, false, false),
    (.delete, false, false), (.incr, false, false), (.decr, false, false), (.quit, false, false),
    (.flushAll, false, false), (.get, true, false), (.noOp, false, false),
    (.version, false, false), (.get, false, true), (.get, true, true), (.append, false, false),
    (.prepend, false, false), (.stats, false, false), (.set, true, false), (.add, true, false),
    (.replace, true, false), (.delete, true, false), (.incr, true, false), (.decr, true, false),
    (.quit, true, false), (.flushAll, true, false), (.append, true, false),
    (.prepend, true, false), (.verbosity, false, false), (.touch, false, false),
    (.gat, false, false), (.gat, true, false) ]

/-- The opcodes behind the table have no command. -/
def binToAsciiCmd (opcode : UInt8) : MemcachedCmd × Bool × Bool :=
  opCmd.getD opcode.toNat (.none, false, false)

/-- An unknown command is an error, but its body is skipped like any other. -/
def parseBinUnknown (m : MemcachedMsg) (b : MemcachedBinHdr) (body : Bytes) : Option BinBody :=
  (m.parseBinOp b body 0).map fun parsed =>
    match parsed.result with
    | .ok _ => ⟨parsed.length, .error .badBinCmd⟩
    | .error _ => parsed

def parseBin (m : MemcachedMsg) (b : MemcachedBinHdr) (ptr : Nat) (body : Bytes) :
    Option BinBody :=
  match m.command with
  | .set | .add | .replace => m.parseBinStore b ptr body
  | .append | .prepend => m.parseBinPend b ptr body
  | .delete | .get => m.parseBinRetr b ptr body
  | .gat | .touch => m.parseBinTouch b ptr body
  | .decr | .incr => m.parseBinIncr b ptr body
  | .flushAll => m.parseBinOp b body 4
  | .version => m.parseBinOp b body 0
  | .quit => m.parseBinOp b body 0
  | .noOp => m.parseBinOp b body 0
  | .verbosity => m.parseBinOp b body 4
  | _ => parseBinUnknown m b body

/-- The result of `unpack` with the consumed length. -/
structure Unpacked where
  status : MemcachedStatus
  length : Nat
  msg : MemcachedMsg
  deriving DecidableEq, Repr

/-- The message of an opcode before its body is read. -/
def binMsg (b : MemcachedBinHdr) : MemcachedMsg :=
  let (command, quiet, wantsKey) := binToAsciiCmd b.opcode
  { MemcachedMsg.fresh with
    command, quiet, wantsKey, binary := true, opcode := b.opcode, opaqueBytes := b.opaqueBytes }

/-- A malformed binary request is taken; the message has the failure. -/
def unpackBin (buflen j : Nat) (req : Bytes) : Unpacked :=
  if req.length < MemcachedBinHdr.size then ⟨.msgPartial, buflen, MemcachedMsg.fresh⟩
  else
    let b := readBinHdr req
    let m := binMsg b
    match parseBin m b (j + MemcachedBinHdr.size) (req.drop MemcachedBinHdr.size) with
    | none => ⟨.msgPartial, buflen, m⟩
    | some ⟨n, .ok msg⟩ => ⟨.ok, j + MemcachedBinHdr.size + n, msg⟩
    | some ⟨n, .error status⟩ =>
        ⟨.ok, j + MemcachedBinHdr.size + n,
          { m with command := .none, quiet := false, wantsKey := false, res := status }⟩

/-- Upper and lower case letters are the same; so are the blank and zero. -/
def c4Kw (s : Bytes) : Bytes := (List.range 4).map fun i => s.getD i 0 &&& 0xdf

/-- The first four letters tell the command. -/
def keywords : List (Bytes × MemcachedCmd) :=
  [ ("SET ", .set), ("ADD ", .add), ("APPE", .append), ("REPL", .replace), ("PREP", .prepend),
    ("CAS ", .cas), ("GET ", .get), ("GETS", .gets), ("GAT ", .gat), ("GATS", .gats),
    ("DELE", .delete), ("TOUC", .touch), ("DECR", .decr), ("INCR", .incr), ("SLAB", .slabs),
    ("LRU ", .lru), ("LRU_", .lruCrawler), ("WATC", .watch), ("STAT", .stats),
    ("FLUS", .flushAll), ("CACH", .cacheMemlimit), ("VERS", .version), ("QUIT", .quit),
    ("NO_O", .noOp) ].map fun (word, command) => (c4Kw (text word), command)

def keyword (s : Bytes) : Option MemcachedCmd := keywords.lookup (c4Kw s)

/-- The storage commands are followed by data. -/
def MemcachedCmd.isStorage : MemcachedCmd → Bool
  | .set | .add | .append | .replace | .prepend | .cas => true
  | _ => false

/-- The arguments of a command line; the commands of the last case take any. -/
def parseText (m : MemcachedMsg) : Except MemcachedStatus MemcachedMsg :=
  match m.command with
  | .set | .add | .append | .replace | .prepend => m.parseStore
  | .cas => m.parseCas
  | .get | .gets => m.parseRetr
  | .gat | .gats => m.parseGat
  | .delete => m.parseDel
  | .touch => m.parseTouch
  | .decr | .incr => m.parseIncr
  | _ => .ok m

/-- The message of a line, from the first byte of its command word; `s` goes on behind the
line, because a short word does not fill the keyword. -/
def parseLine (room : Nat → Bool) (k : Nat) (line s : Bytes) : Except MemcachedStatus MemcachedMsg :=
  let word := line.takeWhile (· ≠ space)
  if word.length = line.length ∧ line.length < 4 then .error .empty
  else
    match keyword s with
    | none => .error .badCmd
    | some command =>
        parseText { MemcachedMsg.fresh with
                    command
                    args := parseMcargs room (k + word.length) (line.drop word.length) }

/-- Up to two bytes behind the data that are below the blank go with it. -/
def eaten : Bytes → Nat
  | [] => 0
  | [c] => if isControl c then 1 else 0
  | c :: d :: _ => if isControl c then if isControl d then 2 else 1 else 0

/-- The bytes in front of the line feed. -/
def eol (s : Bytes) : Nat := (s.takeWhile (· ≠ lf)).length

/-- The carriage return in front of the line feed is not part of the line. -/
def dropCr (line : Bytes) : Bytes := if line.getLast? = some cr then line.dropLast else line

def commandLine (s : Bytes) : Bytes := dropCr (s.take (eol s))

def blanks (s : Bytes) : Nat := ((commandLine s).takeWhile (· = space)).length

/-- The message of the first line of the bytes at `j`. -/
def parseFirst (room : Nat → Bool) (j : Nat) (s : Bytes) : Except MemcachedStatus MemcachedMsg :=
  parseLine room (j + blanks s) ((commandLine s).drop (blanks s)) (s.drop (blanks s))

/-- The data of a storage command starts behind its line. -/
def unpackText (room : Nat → Bool) (j : Nat) (s : Bytes) : Unpacked :=
  let next := j + (eol s + 1)
  let rest := s.drop (eol s + 1)
  match parseFirst room j s with
  | .error status => ⟨status, next, MemcachedMsg.fresh⟩
  | .ok m =>
      if m.command.isStorage then
        if rest.length < m.msglen then ⟨.msgPartial, next, m⟩
        else
          ⟨.ok, next + (m.msglen + eaten (rest.drop m.msglen)),
            { m with msg := some ⟨next, rest.take m.msglen⟩ }⟩
      else ⟨.ok, next, m⟩

/-- Blank lines are skipped; `j` is the position of the bytes `s` in the buffer. -/
def unpackFrom (room : Nat → Bool) (buflen : Nat) : Nat → Nat → Bytes → Unpacked
  | 0, _, _ => ⟨.msgPartial, buflen, MemcachedMsg.fresh⟩
  | fuel + 1, j, s =>
      if s = [] then ⟨.msgPartial, buflen, MemcachedMsg.fresh⟩
      else if s.head? = some binMagic then unpackBin buflen j s
      else if eol s = s.length then ⟨.msgPartial, buflen, MemcachedMsg.fresh⟩
      else if blanks s = (commandLine s).length then
        unpackFrom room buflen fuel (j + (eol s + 1)) (s.drop (eol s + 1))
      else unpackText room j s

/-- Each line takes at least one byte, so the buffer bounds the loop. -/
def unpack (room : Nat → Bool) (buf : Bytes) : Unpacked :=
  unpackFrom room buf.length (buf.length + 1) 0 buf

/-- The ends of the loop. Behind the received bytes the loop reads foreign memory. -/
inductive EvState where
  | write
  | prefetch
  | shutdown
  | overrun
  deriving DecidableEq, Repr

/-- The loop returns the offsets where it found a request, and the offset it stops at. -/
structure ProcessEnd where
  visited : List Nat
  off : Nat
  state : EvState
  deriving DecidableEq, Repr

def ProcessEnd.visit (off : Nat) (ended : ProcessEnd) : ProcessEnd :=
  { ended with visited := off :: ended.visited }

/-- The length of the receive buffer is a 32 bit word. -/
structure RecvBuffer where
  bytes : Bytes
  fits : bytes.length < 2 ^ 32

/-- The requests run one by one from the offset `off`. `exec` runs one request; with a prefetch
queue `q` the keys of a request are fetched first. -/
def processFrom {σ : Type} (room : Nat → Bool) (exec : σ → MemcachedMsg → σ × MemcachedStatus)
    (q : Bool) (recv : Bytes) : Nat → σ → Nat → ProcessEnd
  | 0, _, off => ⟨[], off, .write⟩
  | fuel + 1, st, off =>
      if off = recv.length then ⟨[], off, .write⟩
      else if recv.length < off then ⟨[], off, .overrun⟩
      else
        let parsed := unpack room (recv.drop off)
        if parsed.status ≠ .ok then
          ⟨[], if parsed.status = .msgPartial then off else recv.length, .write⟩
        else
          let next := (off + parsed.length) % 2 ^ 32
          let executed := exec st parsed.msg
          if executed.2 = .quit then ⟨[off], next, .shutdown⟩
          else if executed.2 = .setupOk ∧ q then ⟨[off], next, .prefetch⟩
          else (processFrom room exec q recv fuel executed.1 next).visit off

/-- Each request takes at least one byte. -/
def processLoop {σ : Type} (room : Nat → Bool) (exec : σ → MemcachedMsg → σ × MemcachedStatus)
    (q : Bool) (buffer : RecvBuffer) (st : σ) (off : Nat) : ProcessEnd :=
  processFrom room exec q buffer.bytes (buffer.bytes.length + 1) st off

/-- What an argument says, wherever it stands in the buffer. -/
def MemcachedArgs.content (arg : MemcachedArgs) : MemcachedArgs := { arg with start := 0 }

/-- What a request says, wherever it stands in the buffer. -/
def MemcachedMsg.content (m : MemcachedMsg) : MemcachedMsg :=
  { m with args := m.args.map (·.content), msg := m.msg.map (·.content) }

/-- A line that is no request ends the loop, and a request that takes more than was received:
behind the received bytes the loop reads foreign memory. -/
inductive ReceiveError where
  | refused (status : MemcachedStatus)
  | overrun
  deriving DecidableEq, Repr

/-- One round of `processLoop` up to the execution: a partial request waits for more bytes. -/
def unpackAttempt (room : Nat → Bool) (recv : Bytes) :
    IncrementalParser.Attempt MemcachedMsg ReceiveError :=
  let parsed := unpack room recv
  match parsed.status with
  | .msgPartial => .more
  | .ok =>
      if parsed.length ≤ recv.length then .item parsed.msg.content parsed.length
      else .fail .overrun
  | status => .fail (.refused status)

end Raids.Memcached
