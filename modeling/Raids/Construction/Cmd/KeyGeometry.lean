import Raids.Construction.Cmd.Table
import Raids.Construction.Msg.Number
import Raids.Library.Enumeration

namespace Raids
open Enumeration

/-- A command message is an array, and its int32 length counts the arguments. -/
structure CommandMsg where
  args : List RedisMsg
  fits : args.length < 2 ^ 31

def CommandMsg.argc (msg : CommandMsg) : Nat := msg.args.length

/-- The conversions to the field types of the geometry. -/
def toInt16 (i : Int) : Int := i.bmod (2 ^ 16)

def toSize (i : Int) : Nat := (i % 2 ^ 64).toNat

/-- The bytes of a word. -/
def text (s : String) : Bytes := s.toList.map fun c => c.toNat.toUInt8

/-- Words match without regard to case. -/
def lower (c : UInt8) : UInt8 := if 65 ≤ c ∧ c ≤ 90 then c + 32 else c

/-- Only bulk strings and simple strings match a word. -/
def RedisMsg.isWord : RedisMsg → Bytes → Bool
  | .string .errorString _ _, _ => false
  | .string _ len strval, word =>
      len = word.length ∧ (strval.take word.length).map lower = word.map lower
  | _, _ => false

/-- The match counts the words from one; zero stands for no match. -/
def CommandMsg.matchArg (msg : CommandMsg) (n : Nat) (words : List Bytes) : Nat :=
  match msg.args[n]? with
  | none => 0
  | some m => (words.findIdx? m.isWord).elim 0 (· + 1)

/-- An integer argument is an integer or a string of one. -/
def CommandMsg.getArgInt (msg : CommandMsg) (n : Nat) : Option Int :=
  match msg.args[n]? with
  | some (.string .errorString _ _) => none
  | some (.string _ len strval) =>
      if 0 < len then (stringToInt (strval.take len.toNat)).toOption else none
  | some (.integer ival) => some ival
  | _ => none

/-- The positions of the keys of one command. -/
structure Geometry where
  first : Int
  last : Int
  step : Int
  stepMask : Nat
  deriving DecidableEq, Repr

/-- A shift of a 64 bit word uses the low six bits of its count. -/
def shiftCount (i : Int) : Nat := (i % 64).toNat

def bit (i : Int) : Nat := 1 <<< shiftCount i

def popcount (mask : Nat) : Nat := (List.range 64).countP fun i => mask.testBit i

def setupCmd (c : RedisCmdData) : Geometry := ⟨c.first, c.last, c.step, 0⟩

/-- The first half of the arguments behind `STREAMS` are keys, the second half are ids. -/
def streamKeys (argc i : Int) : Option Geometry :=
  if i < argc then
    let first := toInt16 i
    let last := toInt16 (i + (argc - i) / 2 - 1)
    if first + (last - first + 1) * 2 = argc then some ⟨first, last, 1, 0⟩ else none
  else none

/-- Each option has a number of arguments, its own word included. The index `i` grows with
every option, so `argc` is enough fuel. -/
def locateStreams (options : List (Bytes × Nat)) (msg : CommandMsg) :
    Nat → Nat → Option Geometry
  | 0, _ => none
  | fuel + 1, i =>
      if msg.argc ≤ i then none
      else
        match msg.matchArg i (options.map Prod.fst ++ [text "streams"]) with
        | 0 => none
        | k + 1 =>
            match options[k]? with
            | some (_, size) => locateStreams options msg fuel (i + size)
            | none => streamKeys msg.argc (i + 1 : Nat)

def xreadOptions : List (Bytes × Nat) := [(text "count", 2), (text "block", 2)]

def xreadgroupOptions : List (Bytes × Nat) :=
  [(text "group", 3), (text "count", 2), (text "block", 2), (text "noack", 1)]

/-- The destination of a store comes first and its `nkeys` sources come after their number. -/
def storeKeys (nkeys : Int) : Geometry :=
  ⟨1, toInt16 (2 + nkeys), 1, (bit nkeys - 1) <<< 3 % 2 ^ 64 ||| bit 1⟩

def locateStore (msg : CommandMsg) : Option Geometry :=
  match msg.getArgInt 2 with
  | none => none
  | some i =>
      -- The comparison is unsigned, so a negative index is beyond every argument.
      if 3 + i < 0 ∨ msg.argc < 3 + i then none else some (storeKeys i)

/-- The last argument of a radius query with a store is its destination. -/
def radiusStoreKeys (argc : Int) : Geometry :=
  let last := toInt16 (argc - 1)
  ⟨1, last, toInt16 (last - 1), bit last⟩

def locateRadius (msg : CommandMsg) : Option Geometry :=
  if 2 < msg.argc ∧ msg.matchArg (msg.argc - 2) [text "STORE", text "STOREDIST"] ≠ 0 then
    some (radiusStoreKeys msg.argc)
  else some ⟨1, 1, 1, bit 1⟩

/-- These commands do not follow the regular rules. -/
def locateMovablekeys (cmd : RedisCmd) (msg : CommandMsg) : Option Geometry :=
  match cmd with
  | .georadiusCmd | .georadiusbymemberCmd => locateRadius msg
  | .zinterstoreCmd | .zunionstoreCmd => locateStore msg
  | .xreadCmd => locateStreams xreadOptions msg msg.argc 1
  | .xreadgroupCmd => locateStreams xreadgroupOptions msg msg.argc 1
  | _ => none

/-- The loop passes the arguments that the mask leaves out. -/
def skipKey (g : Geometry) : Nat → Int → Option Int
  | 0, _ => none
  | fuel + 1, i =>
      if g.stepMask.testBit (shiftCount i) then some i
      else
        let i := i + g.step
        if g.last < i then none else skipKey g fuel i

/-- The next key follows the key at `i`; a mask repeats after 64 arguments. -/
def nextKey (g : Geometry) (argc : Nat) (i : Int) : Option Int :=
  let i := i + g.step
  if g.last < 0 ∧ i < argc + g.last + 1 then some i
  else if g.stepMask ≠ 0 then skipKey g ((g.last - i).toNat + 64) i
  else if i ≤ g.last then some i
  else none

/-- The number of keys is computed without an enumeration. -/
def calcKeyCount (g : Geometry) (argc : Nat) : Nat :=
  if g.stepMask ≠ 0 then popcount g.stepMask
  else if 0 < g.last then toSize ((g.last + 1 - g.first).tdiv g.step)
  else if g.last < 0 then toSize (argc - g.first) / toSize g.step
  else 0

/-- The arity counts the command itself. -/
def arityOk (c : RedisCmdData) (argc : Nat) : Prop :=
  if 0 < c.arity then c.arity = argc else -c.arity ≤ argc

instance (c : RedisCmdData) (argc : Nat) : Decidable (arityOk c argc) :=
  inferInstanceAs (Decidable (ite _ _ _))

/-- A command with a wrong arity or without its keys is answered with bad arguments. -/
def keyGeometry (cmd : RedisCmd) (msg : CommandMsg) : Option Geometry :=
  if ¬arityOk (cmdDb cmd) msg.argc then none
  else if (cmdDb cmd).flags &&& cmdMovableFlag ≠ 0 then locateMovablekeys cmd msg
  else some (setupCmd (cmdDb cmd))

/-- The setup loop visits the first key and then the next key until there is none. Keys inside
the message are at most `argc`, so more keys than that show a key outside or a key twice. -/
def keyIndices (g : Geometry) (argc : Nat) : List Int :=
  if 0 < g.first then enumerate (nextKey g argc) (argc + 1) g.first else []

end Raids
