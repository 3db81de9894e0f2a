import Raids.Construction.Stream.Write

namespace Raids

/-- The library finds the place of an id too: the first entry that is not below it, or the first
one above it. -/
structure StreamSearch extends StreamData where
  bsearchStr : List StreamEntry → Bytes → Bool → Option Nat

/-- The two commands that read a range. -/
inductive RangeCmd where
  | xrange
  | xrevrange
  deriving DecidableEq, Repr

/-- The arguments of a range in the order of the command; a count that is not positive is no
limit. -/
structure XrangeArgs where
  first : Bytes
  second : Bytes
  maxcnt : Int
  deriving DecidableEq, Repr

def xrangeArgs (msg : CommandMsg) : Option XrangeArgs := do
  let arg ← msg.getArgStr 2
  let stop ← msg.getArgStr 3
  let maxcnt ← if msg.matchArg 4 [text "count"] = 1 then msg.getArgInt 5 else some 0
  return ⟨arg, stop, maxcnt⟩

/-- The fetch of a key for reading; no status stands for an error of the table. -/
def getKeyRead (env : StreamEnv) : StreamValue → Option KeyStatus
  | .missing => if env.fetched then some .keyNotFound else none
  | .stream _ => if env.fetched then some .keyOk else none
  | .other => if env.fetched then some .keyNoValue else none

/-- The range goes up from an index; an entry that is not found is left out. -/
def xrangeUp (entries : List StreamEntry) : Nat → Nat → Int → List StreamEntry
  | 0, _, _ => []
  | left + 1, i, maxcnt =>
      match entries[i]? with
      | none => xrangeUp entries left (i + 1) maxcnt
      | some entry =>
          if 0 < maxcnt then
            if maxcnt - 1 = 0 then [entry]
            else entry :: xrangeUp entries left (i + 1) (maxcnt - 1)
          else entry :: xrangeUp entries left (i + 1) maxcnt

/-- The range goes down to an index. -/
def xrangeDown (entries : List StreamEntry) (j : Nat) : Nat → Int → List StreamEntry
  | 0, _ => []
  | left + 1, maxcnt =>
      match entries[j + left]? with
      | none => xrangeDown entries j left maxcnt
      | some entry =>
          if 0 < maxcnt then
            if maxcnt - 1 = 0 then [entry]
            else entry :: xrangeDown entries j left (maxcnt - 1)
          else entry :: xrangeDown entries j left maxcnt

/-- The reply of a range is a status or the entries. -/
inductive XrangeReply where
  | status (status : ExecStatus)
  | entries (items : List StreamEntry)
  deriving DecidableEq, Repr

def bulkReply (str : Bytes) : RedisMsg := .string .bulkString str.length str

/-- An entry is sent as its id and the array of its fields. -/
def constructXfieldOutput (entry : StreamEntry) : RedisMsg :=
  .array 2 [bulkReply entry.id, .array entry.fields.length (entry.fields.map bulkReply)]

/-- The message of the entries. -/
def XrangeReply.msg : XrangeReply → Option RedisMsg
  | .status .execSendZeroarr => some (.array 0 [])
  | .status _ => none
  | .entries items => some (.array items.length (items.map constructXfieldOutput))

/-- The places of the two ids are the ends of the range, and the order of the command selects the
end that the entries are counted from. -/
def xrangeEntries (lib : StreamSearch) (cmd : RangeCmd) (entries : List StreamEntry)
    (args : XrangeArgs) : XrangeReply :=
  let (arg, stop) := if cmd = .xrange then (args.first, args.second) else (args.second, args.first)
  match lib.bsearchStr entries arg false with
  | none => .status .errStreamId
  | some x =>
      match lib.bsearchStr entries stop true with
      | none => .status .errStreamId
      | some y =>
          if cmd = .xrange then .entries (xrangeUp entries (y - x) x args.maxcnt)
          else .entries (xrangeDown entries x (y - x) args.maxcnt)

/-- The entries are sent if the value has not changed while it was read. -/
def execXrange (lib : StreamSearch) (env : StreamEnv) (validated : Bool) (cmd : RangeCmd)
    (msg : CommandMsg) (key : StreamKey) : XrangeReply :=
  match xrangeArgs msg with
  | none => .status .errBadArgs
  | some args =>
      match getKeyRead env key.value with
      | some .keyNoValue => .status .errBadType
      | some .keyNotFound => .status .execSendZeroarr
      | some .keyOk =>
          if env.opened then
            match xrangeEntries lib cmd key.value.entries args with
            | .status status => .status status
            | .entries items => if validated then .entries items else .status .errKvStatus
          else .status .errKvStatus
      | _ => .status .errKvStatus

end Raids
