import Raids.Construction.Exec.Request

namespace Raids

/-- The arguments of a scan: cursor, page size and the compiled pattern. -/
structure ScanArgs where
  pos : Int := 0
  maxcnt : Int := 10
  re : Option (Bytes → Bool) := none

/-- The options come in pairs, and the last one of a kind counts. -/
def scanOptions (msg : CommandMsg) :
    Nat → Nat → Option Bytes → Int → Option (Option Bytes × Int)
  | 0, _, _, _ => none
  | fuel + 1, i, pattern, maxcnt =>
      if msg.argc ≤ i then some (pattern, maxcnt)
      else
        match msg.matchArg i [text "match", text "count"] with
        | 1 =>
            match msg.getArgStr (i + 1 : Nat) with
            | some pattern => scanOptions msg fuel (i + 2) (some pattern) maxcnt
            | none => none
        | 2 =>
            match msg.getArgInt (i + 1) with
            | some maxcnt => scanOptions msg fuel (i + 2) pattern maxcnt
            | none => none
        | _ => none

/-- A pattern has to compile. -/
def matchScanArgs (compile : Bytes → Option (Bytes → Bool)) (msg : CommandMsg) (i : Nat) :
    Option ScanArgs :=
  match msg.getArgInt i with
  | none => none
  | some pos =>
      match scanOptions msg (msg.argc + 1) (i + 1) none 10 with
      | none => none
      | some (none, maxcnt) => some ⟨pos, maxcnt, none⟩
      | some (some pattern, maxcnt) => (compile pattern).map fun re => ⟨pos, maxcnt, some re⟩

/-- An element of a collection: the field, member or place, and the value or the text of the
score that a scan returns with it. -/
structure ScanElement where
  name : Bytes
  data : Bytes
  deriving DecidableEq, Repr

/-- A collection keeps its elements at the indexes from one on; a count fits in an int64. -/
structure Collection where
  elements : List ScanElement
  fits : elements.length + 1 < 2 ^ 63

def Collection.hcount (c : Collection) : Nat := c.elements.length

/-- Slot zero of a list is the index of a hash, so the list has one more. -/
def Collection.count (c : Collection) : Nat := c.elements.length + 1

/-- The element at an index. -/
def Collection.lindex (c : Collection) : Nat → Option ScanElement
  | 0 => none
  | i + 1 => c.elements[i]?

/-- What a scan finds under its key. -/
inductive ScanKey where
  | failed
  | otherType
  | missing
  | stored (c : Collection)

/-- The reply is an error or a page with the next cursor. -/
inductive ScanReply where
  | status (status : ExecStatus)
  | page (cursor : Nat) (items : List Bytes)
  deriving DecidableEq, Repr

/-- The loop of a page reads the element of slot `i` and goes on to the next slot, up to `count`
or to a full page. It stops at the position that it returns. -/
def scanLoop (index : Nat → Option ScanElement) (re : Option (Bytes → Bool))
    (items : ScanElement → List Bytes) (count maxcnt : Nat) :
    Nat → Nat → List Bytes → Nat × List Bytes
  | 0, i, q => (i, q)
  | fuel + 1, i, q =>
      if count ≤ i ∨ (maxcnt ≠ 0 ∧ maxcnt ≤ q.length) then (i, q)
      else
        match index i with
        | none => (i + 1, q)
        | some e =>
            if re.all (· e.name) then
              scanLoop index re items count maxcnt fuel (i + 1) (q ++ items e)
            else scanLoop index re items count maxcnt fuel (i + 1) q

/-- The cursor behind the last element is zero. -/
def prependCursorArray (count : Nat) (page : Nat × List Bytes) : ScanReply :=
  .page (if page.1 = count then 0 else page.1) page.2

/-- A hash starts at index one and counts to the end of its list. A missing key goes to the reply
with a count of zero. -/
def doHmultiscan (key : ScanKey) (sa : ScanArgs) : ScanReply :=
  let i := if 0 < sa.pos then toSize sa.pos else 1
  let maxcnt := toSize (sa.maxcnt * 2)
  match key with
  | .failed => .status .errKvStatus
  | .otherType => .status .errBadType
  | .missing => prependCursorArray 0 (i, [])
  | .stored c =>
      prependCursorArray c.count
        (scanLoop c.lindex sa.re (fun e => [e.name, e.data]) c.count maxcnt c.count i [])

/-- A set starts at zero and reads the next index. -/
def doSmultiscan (key : ScanKey) (sa : ScanArgs) : ScanReply :=
  let i := if 0 < sa.pos then toSize sa.pos else 0
  let maxcnt := toSize sa.maxcnt
  match key with
  | .failed => .status .errKvStatus
  | .otherType => .status .errBadType
  | .missing => prependCursorArray 0 (i, [])
  | .stored c =>
      if c.hcount = 0 then prependCursorArray 0 (i, [])
      else
        prependCursorArray c.hcount
          (scanLoop (fun i => c.lindex (i + 1)) sa.re (fun e => [e.name]) c.hcount maxcnt c.hcount i
            [])

/-- A sorted set and a geo key return each member with its score. -/
def doZmultiscan (key : ScanKey) (sa : ScanArgs) : ScanReply :=
  let i := if 0 < sa.pos then toSize sa.pos else 0
  let maxcnt := toSize (sa.maxcnt * 2)
  match key with
  | .failed => .status .errKvStatus
  | .otherType => .status .errBadType
  | .missing => prependCursorArray 0 (i, [])
  | .stored c =>
      if c.hcount = 0 then prependCursorArray 0 (i, [])
      else
        prependCursorArray c.hcount
          (scanLoop (fun i => c.lindex (i + 1)) sa.re (fun e => [e.name, e.data]) c.hcount maxcnt
            c.hcount i [])

/-- The three scans of a collection. -/
inductive ScanCmd where
  | hscan
  | sscan
  | zscan
  deriving DecidableEq, Repr

def ScanCmd.word : ScanCmd → Bytes
  | .hscan => text "hscan"
  | .sscan => text "sscan"
  | .zscan => text "zscan"

def doMultiscan : ScanCmd → ScanKey → ScanArgs → ScanReply
  | .hscan => doHmultiscan
  | .sscan => doSmultiscan
  | .zscan => doZmultiscan

def execScan (compile : Bytes → Option (Bytes → Bool)) (cmd : ScanCmd) (msg : CommandMsg)
    (key : ScanKey) : ScanReply :=
  match matchScanArgs compile msg 2 with
  | none => .status .errBadArgs
  | some sa => doMultiscan cmd key sa

/-- The slots of the hash table, each with the key that a fetch finds there. -/
structure KeyTable where
  slots : List (Option Bytes)
  fits : slots.length + 1 < 2 ^ 63

/-- The keys of a walk, with the next cursor unless the walk is not limited. -/
inductive KeysReply where
  | status (status : ExecStatus)
  | page (cursor : Nat) (keys : List Bytes)
  | array (keys : List Bytes)
  deriving DecidableEq, Repr

/-- Keys are null terminated. -/
def slotKey (key : Bytes) : Bytes := if key.getLast? = some 0 then key.dropLast else key

/-- The key of a slot, if it is there and matches. -/
def slotHit (re : Option (Bytes → Bool)) (slot : Option Bytes) : Option Bytes :=
  (slot.map slotKey).filter fun key => re.all (· key)

/-- The walk goes to the last slot, or stops at the key that fills the page. A count that is not
positive is never reached. -/
def scanKeysLoop (re : Option (Bytes → Bool)) :
    List (Option Bytes) → Nat → Int → List Bytes → Nat × Int × List Bytes
  | [], pos, maxcnt, q => (pos, maxcnt, q)
  | slot :: slots, pos, maxcnt, q =>
      match slotHit re slot with
      | none => scanKeysLoop re slots (pos + 1) maxcnt q
      | some key =>
          if maxcnt - 1 = 0 then (pos, maxcnt - 1, q ++ [key])
          else scanKeysLoop re slots (pos + 1) (maxcnt - 1) (q ++ [key])

/-- The next cursor is the slot behind the last key, also when that is the end of the table. -/
def scanKeys (table : KeyTable) (sa : ScanArgs) : KeysReply :=
  let (pos, maxcnt, q) :=
    scanKeysLoop sa.re (table.slots.drop (toSize sa.pos)) (toSize sa.pos) sa.maxcnt []
  if 0 ≤ maxcnt then .page (if pos = table.slots.length then 0 else toSize (pos + 1)) q
  else .array q

/-- The scan of the whole table. -/
def execScanKeys (compile : Bytes → Option (Bytes → Bool)) (msg : CommandMsg)
    (table : KeyTable) : KeysReply :=
  match matchScanArgs compile msg 1 with
  | none => .status .errBadArgs
  | some sa => scanKeys table sa

/-- A star stands for all keys, and another pattern has to compile. -/
def execKeys (compile : Bytes → Option (Bytes → Bool)) (msg : CommandMsg)
    (table : KeyTable) : KeysReply :=
  match msg.getArgStr 1 with
  | none => .status .errBadArgs
  | some pattern =>
      if pattern = text "*" then scanKeys table ⟨0, -1, none⟩
      else
        match compile pattern with
        | none => .status .errBadArgs
        | some re => scanKeys table ⟨0, -1, some re⟩

end Raids
