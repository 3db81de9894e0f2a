import Raids.Construction.Msg.Unpack

namespace Raids
open Decimal

/-- The characters that the writer and the reader treat alike. -/
def backslash : UInt8 := 92

def doubleQuote : UInt8 := 34

def singleQuote : UInt8 := 39

def backtick : UInt8 := 96

def openBracket : UInt8 := 91

def closeBracket : UInt8 := 93

def comma : UInt8 := 44

/-- The escape letter of a control character that has one. -/
def escapeLetter (c : UInt8) : Option UInt8 :=
  if c = 8 then some 98
  else if c = 12 then some 102
  else if c = 10 then some 110
  else if c = 13 then some 114
  else if c = 9 then some 116
  else none

/-- One round of `json_escape_string`. -/
def jsonEscape (c : UInt8) : Bytes :=
  if 32 ≤ c ∧ c ≤ 126 then
    if c = singleQuote ∨ c = doubleQuote then [backslash, c] else [c]
  else
    match escapeLetter c with
    | some letter => [backslash, letter]
    | none => [backslash, 117, 48, digit (c.toNat / 100 % 10), digit (c.toNat / 10 % 10),
        digit (c.toNat % 10)]

def jsonEscapeString (str : Bytes) : Bytes := str.flatMap jsonEscape

/-- The quote of a string when `be_weird` is set. -/
def StringType.quote : StringType → UInt8
  | .simpleString => singleQuote
  | .errorString => backtick
  | .bulkString => doubleQuote

/-- Normal quoting marks simple and error strings with their type. -/
def StringType.marker : StringType → Bytes
  | .bulkString => []
  | type => [type.char]

def jsonNull : Bytes := [110, 117, 108, 108]

def jsonNil : Bytes := [110, 105, 108]

def RedisMsg.toAlmostJson (beWeird : Bool) : RedisMsg → Bytes
  | .string type len strval =>
      if 0 ≤ len then
        let escaped := jsonEscapeString (strval.take len.toNat)
        if beWeird then type.quote :: escaped ++ [type.quote]
        else doubleQuote :: (type.marker ++ escaped) ++ [doubleQuote]
      else if beWeird then jsonNil
      else jsonNull
  | .integer ival => int64ToString ival
  | .array len elems =>
      if 0 ≤ len then openBracket :: writeArray len.toNat elems true ++ [closeBracket]
      else jsonNull
where
  /-- The loop writes the first `k` elements, with a comma before all but the first. -/
  writeArray : Nat → List RedisMsg → Bool → Bytes
    | k + 1, m :: ms, first =>
        (if first then [] else [comma]) ++ m.toAlmostJson beWeird ++ writeArray k ms false
    | _, _, _ => []

/-- One round of `json_escape_strlen`. -/
def jsonEscapeLen (c : UInt8) : Nat :=
  if 32 ≤ c ∧ c ≤ 126 then
    if c = singleQuote ∨ c = doubleQuote then 2 else 1
  else
    match escapeLetter c with
    | some _ => 2
    | none => 6

def jsonEscapeStrlen (str : Bytes) : Nat := (str.map jsonEscapeLen).sum

/-- The size counts characters instead of writing them; a value without a size has none. -/
def RedisMsg.toAlmostJsonSize (beWeird : Bool) : RedisMsg → Nat
  | .string type len strval =>
      if 0 ≤ len then
        (if beWeird then 0 else type.marker.length) +
          jsonEscapeStrlen (strval.take len.toNat) + 2
      else if beWeird then 3
      else 4
  | .integer ival => int64Digits ival
  | .array len elems =>
      if 0 ≤ len then
        match sizeArray len.toNat elems true with
        | some sz => 1 + sz + 1
        | none => 0
      else 4
where
  sizeArray : Nat → List RedisMsg → Bool → Option Nat
    | k + 1, m :: ms, first =>
        let sz := m.toAlmostJsonSize beWeird
        if sz = 0 then none
        else (sizeArray k ms false).map ((if first then 0 else 1) + sz + ·)
    | _, _, _ => some 0

/-- The white space of the C locale. -/
def JsonSpace (c : UInt8) : Prop := c = 32 ∨ (9 ≤ c ∧ c ≤ 13)

instance (c : UInt8) : Decidable (JsonSpace c) := inferInstanceAs (Decidable (_ ∨ _))

def eatWhite (json : Bytes) : Bytes := json.dropWhile (JsonSpace ·)

/-- A hexadecimal digit of either case. -/
def hexValue (c : UInt8) : Option Nat :=
  if 48 ≤ c ∧ c ≤ 57 then some (c.toNat - 48)
  else if 97 ≤ c ∧ c ≤ 102 then some (c.toNat - 97 + 10)
  else if 65 ≤ c ∧ c ≤ 70 then some (c.toNat - 65 + 10)
  else none

/-- The memory of the reader: which requests are granted, and what a new block holds. -/
structure JsonMem where
  wrk : ScratchMem
  fill : Nat → UInt8

/-- The string that `parse_string` builds, in a block of `sz` bytes. -/
structure JsonString where
  str : Bytes
  sz : Nat
  deriving DecidableEq, Repr

namespace JsonString

/-- The block is extended by 16 bytes, and the string goes on where the old block ended; bytes
that were not written are what the block held. -/
def extend (mem : JsonMem) (b : JsonString) : Except RedisMsgStatus JsonString :=
  if mem.wrk (b.sz + 16) then
    .ok ⟨b.str ++ (List.range' b.str.length (b.sz - b.str.length)).map mem.fill, b.sz + 16⟩
  else .error .allocFail

/-- Extends the block when the condition on the string's end holds. -/
def reserve (mem : JsonMem) (full : Bool) (b : JsonString) : Except RedisMsgStatus JsonString :=
  if full then b.extend mem else .ok b

def put (b : JsonString) (bytes : Bytes) : JsonString := { b with str := b.str ++ bytes }

/-- Writes the UTF-8 encoding of a 16 bit character. -/
def putUchar (mem : JsonMem) (uchar : Nat) (b : JsonString) : Except RedisMsgStatus JsonString :=
  if uchar ≤ 0x7f then .ok (b.put [UInt8.ofNat uchar])
  else if uchar ≤ 0x7ff then do
    let b ← b.reserve mem (b.str.length + 1 = b.sz)
    return b.put [UInt8.ofNat (0xc0 ||| uchar >>> 6), UInt8.ofNat (0x80 ||| (uchar &&& 0x3f))]
  else do
    let b ← b.reserve mem (b.sz ≤ b.str.length + 2)
    return b.put [UInt8.ofNat (0xe0 ||| uchar >>> 12),
      UInt8.ofNat (0x80 ||| (uchar &&& 0xfc0) >>> 6), UInt8.ofNat (0x80 ||| (uchar &&& 0x3f))]

end JsonString

/-- The character that an escape letter stands for. -/
def unescape (c : UInt8) : UInt8 :=
  if c = 98 then 8
  else if c = 102 then 12
  else if c = 110 then 10
  else if c = 114 then 13
  else if c = 116 then 9
  else c

/-- The loop of `parse_string` behind the opening quote. -/
def parseChars (mem : JsonMem) (quote : UInt8) :
    Bytes → JsonString → Except RedisMsgStatus (Bytes × Bytes)
  | [], _ => .error .partialValue
  | c :: rest, b => do
      let b ← b.reserve mem (b.str.length = b.sz)
      if c = quote then .ok (b.str, rest)
      else if c ≠ backslash then parseChars mem quote rest (b.put [c])
      else
        match rest with
        | [] => .error .partialValue
        | e :: rest =>
            if e = 120 then
              match rest with
              | h₁ :: h₂ :: rest =>
                  match hexValue h₁, hexValue h₂ with
                  | some v₁, some v₂ =>
                      parseChars mem quote rest (b.put [UInt8.ofNat (v₁ <<< 8 ||| v₂)])
                  | _, _ => .error .badJson
              | _ => .error .badJson
            else if e = 117 then
              match rest with
              | h₁ :: h₂ :: h₃ :: h₄ :: rest =>
                  match hexValue h₁, hexValue h₂, hexValue h₃, hexValue h₄ with
                  | some v₁, some v₂, some v₃, some v₄ => do
                      let b ← b.putUchar mem (v₁ <<< 12 ||| v₂ <<< 8 ||| v₃ <<< 4 ||| v₄)
                      parseChars mem quote rest b
                  | _, _, _, _ => .error .badJson
              | _ => .error .badJson
            else parseChars mem quote rest (b.put [unescape e])

/-- The type that a quote stands for. -/
def quoteType (quote : UInt8) : StringType :=
  if quote = doubleQuote then .bulkString
  else if quote = singleQuote then .simpleString
  else .errorString

def parseString (mem : JsonMem) (quote : UInt8) (json : Bytes) :
    Except RedisMsgStatus (RedisMsg × Bytes) :=
  if mem.wrk 8 then
    (parseChars mem quote json ⟨[], 8⟩).map fun (strval, rest) =>
      (.string (quoteType quote) (toInt32 strval.length) strval, rest)
  else .error .allocFail

/-- The conversion to a signed 64 bit integer keeps the low bits. -/
def toInt64 (i : Int) : Int := i.bmod (2 ^ 64)

def parseNumber (json : Bytes) : RedisMsg × Bytes :=
  let isneg := json.head? == some minus
  let digits := if isneg then json.tail else json
  let integral := (digits.takeWhile (IsDigit ·)).foldl
    (fun n c => (n * 10 + digitValue c) % 2 ^ 64) 0
  let ival := if isneg then toInt64 (-toInt64 integral) else toInt64 integral
  (.integer ival, digits.dropWhile (IsDigit ·))

/-- The blocks of `parse_array`: how many there are, the elements of the last and its size. -/
structure JsonBlocks where
  tos : Nat
  i : Nat
  sz : Nat
  deriving DecidableEq, Repr

namespace JsonBlocks

/-- There are 40 block pointers, of which the first is not used. -/
def maxBlocks : Nat := 40

/-- Makes room for one more element. -/
def add (mem : JsonMem) (b : JsonBlocks) : Except RedisMsgStatus JsonBlocks :=
  if b.tos = 0 ∨ b.i = b.sz then
    let newsz := (b.sz + 2) * 3 / 2
    if b.tos + 1 = maxBlocks then .error .badJson
    else if mem.wrk (sizeofRedisMsg * newsz) then .ok ⟨b.tos + 1, 1, newsz⟩
    else .error .allocFail
  else .ok { b with i := b.i + 1 }

/-- The end of the array; several blocks are copied to one. -/
def finish (mem : JsonMem) (b : JsonBlocks) (elems : List RedisMsg) (json : Bytes) :
    Except RedisMsgStatus (RedisMsg × Bytes) :=
  match json with
  | [] => .error .partialValue
  | c :: rest =>
      if c ≠ closeBracket then .error .badJson
      else if b.tos > 1 ∧ ¬mem.wrk (sizeofRedisMsg * elems.length) then .error .allocFail
      else .ok (.array (toInt32 elems.length) elems, rest)

end JsonBlocks

def jsonTrue : Bytes := [116, 114, 117, 101]

def jsonFalse : Bytes := [102, 97, 108, 115, 101]

/-- The words of the reader. -/
def parseWord (json : Bytes) : Except RedisMsgStatus (RedisMsg × Bytes) :=
  if jsonTrue.isPrefixOf json then .ok (.integer 1, json.drop 4)
  else if jsonFalse.isPrefixOf json then .ok (.integer 0, json.drop 5)
  else if jsonNull.isPrefixOf json then .ok (.array (-1) [], json.drop 4)
  else if jsonNil.isPrefixOf json then .ok (.string .bulkString (-1) [], json.drop 3)
  else .error .badJson

mutual

/-- `parse_json`; the fuel bounds the values that follow and contain each other. -/
def parseJson (mem : JsonMem) : Nat → Bytes → Except RedisMsgStatus (RedisMsg × Bytes)
  | 0, _ => .error .partialValue
  | fuel + 1, json =>
      match eatWhite json with
      | [] => .error .partialValue
      | c :: rest =>
          if c = openBracket then parseValues mem fuel ⟨0, 0, 0⟩ [] (eatWhite rest)
          else if c = singleQuote ∨ c = backtick ∨ c = doubleQuote then parseString mem c rest
          else if IsDigit c ∨ c = minus then .ok (parseNumber (c :: rest))
          else parseWord (c :: rest)

/-- The loop of `parse_array`. -/
def parseValues (mem : JsonMem) :
    Nat → JsonBlocks → List RedisMsg → Bytes → Except RedisMsgStatus (RedisMsg × Bytes)
  | 0, _, _, _ => .error .partialValue
  | fuel + 1, blocks, elems, json =>
      if json.head? = some closeBracket then blocks.finish mem elems json
      else do
        let (value, json) ← parseJson mem fuel json
        let blocks ← blocks.add mem
        let elems := elems ++ [value]
        let json := eatWhite json
        if json.head? = some comma then parseValues mem fuel blocks elems (eatWhite json.tail)
        else blocks.finish mem elems json

end

/-- Each byte starts at most one value and at most one round of an array, so twice the length of the
text is enough fuel. -/
def unpackJson (mem : JsonMem) (json : Bytes) : Except RedisMsgStatus (RedisMsg × Nat) :=
  (parseJson mem (2 * json.length + 1) json).map fun (m, rest) => (m, json.length - rest.length)

/-- Each write of a buffer has an offset and a byte. -/
abbrev Writes := List (Nat × UInt8)

/-- Bytes are written one behind the other. -/
def putAt : Nat → Bytes → Writes
  | _, [] => []
  | off, c :: bytes => (off, c) :: putAt (off + 1) bytes

/-- The text is written at an offset, and the number is the one that is returned. A string writes a
null behind its quote. -/
def RedisMsg.writeJson (beWeird : Bool) : RedisMsg → Nat → Writes × Nat
  | .string type len strval, off =>
      if 0 ≤ len then
        let q := if beWeird then type.quote else doubleQuote
        let marker := if beWeird then [] else type.marker
        let escaped := jsonEscapeString (strval.take len.toNat)
        let elen := marker.length + escaped.length
        (putAt off (q :: marker) ++ putAt (off + 1 + marker.length) escaped ++
          [(off + 1 + elen, q), (off + 2 + elen, 0)], elen + 2)
      else if beWeird then (putAt off jsonNil, 3)
      else (putAt off jsonNull, 4)
  | .integer ival, off => (putAt off (int64ToString ival), (int64ToString ival).length)
  | .array len elems, off =>
      if 0 ≤ len then
        let (writes, elen) := writeElements len.toNat elems true (off + 1)
        ((off, openBracket) :: writes ++ [(off + 1 + elen, closeBracket)], 1 + elen + 1)
      else (putAt off jsonNull, 4)
where
  /-- The loop writes the first `k` elements, with a comma before all but the first. -/
  writeElements : Nat → List RedisMsg → Bool → Nat → Writes × Nat
    | k + 1, m :: ms, first, off =>
        let separator := if first then [] else [comma]
        let (writes, elen) := m.writeJson beWeird (off + separator.length)
        let (rest, relen) := writeElements k ms false (off + separator.length + elen)
        (putAt off separator ++ writes ++ rest, separator.length + elen + relen)
    | _, _, _, _ => ([], 0)

open Decimal

/-- A block of elements: how many it has room for, and what is in its memory. -/
structure ElementBlock where
  size : Nat
  elem : Nat → RedisMsg

/-- The elements in front of an index. -/
def ElementBlock.upTo (block : ElementBlock) (i : Nat) : List RedisMsg :=
  (List.range i).map block.elem

/-- The blocks of `parse_array`, the last one first, and the next index in the last one. -/
structure ElementBlocks where
  blocks : List ElementBlock
  i : Nat

namespace ElementBlocks

def start : ElementBlocks := ⟨[], 0⟩

/-- A block that grows with the last one; its memory is not written yet. -/
def grow (mem : JsonMem) (unwritten : Nat → RedisMsg) (b : ElementBlocks) :
    Except RedisMsgStatus ElementBlocks :=
  let sz := (b.blocks.head?.map ElementBlock.size).getD 0
  let newsz := (sz + 2) * 3 / 2
  if b.blocks.length + 1 = JsonBlocks.maxBlocks then .error .badJson
  else if mem.wrk (sizeofRedisMsg * newsz) then .ok ⟨⟨newsz, unwritten⟩ :: b.blocks, 0⟩
  else .error .allocFail

/-- An element is written at the next index of the last block. -/
def write (b : ElementBlocks) (value : RedisMsg) : ElementBlocks :=
  match b.blocks with
  | [] => b
  | block :: blocks =>
      ⟨{ block with elem := Function.update block.elem b.i value } :: blocks, b.i + 1⟩

/-- A full block is followed by a new one before the element is written. -/
def add (mem : JsonMem) (unwritten : Nat → RedisMsg) (b : ElementBlocks) (value : RedisMsg) :
    Except RedisMsgStatus ElementBlocks :=
  match b.blocks with
  | [] => (b.grow mem unwritten).map (·.write value)
  | block :: _ =>
      if b.i = block.size then (b.grow mem unwritten).map (·.write value)
      else .ok (b.write value)

/-- The array of one block is the block itself; the elements of several are copied block by block,
and those of the last one up to the next index. -/
def copy (b : ElementBlocks) : List RedisMsg :=
  match b.blocks with
  | [] => []
  | last :: blocks =>
      (blocks.reverse.flatMap fun block => block.upTo block.size) ++ last.upTo b.i

/-- The end of the array. -/
def finish (mem : JsonMem) (b : ElementBlocks) (json : Bytes) :
    Except RedisMsgStatus (RedisMsg × Bytes) :=
  match json with
  | [] => .error .partialValue
  | c :: rest =>
      if c ≠ closeBracket then .error .badJson
      else if b.blocks.length > 1 ∧ ¬mem.wrk (sizeofRedisMsg * b.copy.length) then
        .error .allocFail
      else .ok (.array (toInt32 b.copy.length) b.copy, rest)

end ElementBlocks

mutual

/-- `parse_json` with the blocks of the arrays in memory. -/
def parseJsonBlocks (mem : JsonMem) (unwritten : Nat → RedisMsg) :
    Nat → Bytes → Except RedisMsgStatus (RedisMsg × Bytes)
  | 0, _ => .error .partialValue
  | fuel + 1, json =>
      match eatWhite json with
      | [] => .error .partialValue
      | c :: rest =>
          if c = openBracket then parseArrayBlocks mem unwritten fuel .start (eatWhite rest)
          else if c = singleQuote ∨ c = backtick ∨ c = doubleQuote then parseString mem c rest
          else if IsDigit c ∨ c = minus then .ok (parseNumber (c :: rest))
          else parseWord (c :: rest)

/-- The loop of `parse_array` with its blocks. -/
def parseArrayBlocks (mem : JsonMem) (unwritten : Nat → RedisMsg) :
    Nat → ElementBlocks → Bytes → Except RedisMsgStatus (RedisMsg × Bytes)
  | 0, _, _ => .error .partialValue
  | fuel + 1, blocks, json =>
      if json.head? = some closeBracket then blocks.finish mem json
      else do
        let (value, json) ← parseJsonBlocks mem unwritten fuel json
        let blocks ← blocks.add mem unwritten value
        let json := eatWhite json
        if json.head? = some comma then
          parseArrayBlocks mem unwritten fuel blocks (eatWhite json.tail)
        else blocks.finish mem json

end

def unpackJsonBlocks (mem : JsonMem) (unwritten : Nat → RedisMsg) (json : Bytes) :
    Except RedisMsgStatus (RedisMsg × Nat) :=
  (parseJsonBlocks mem unwritten (2 * json.length + 1) json).map
    fun (m, rest) => (m, json.length - rest.length)

end Raids
