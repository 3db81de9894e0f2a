import Raids.Construction.Key.ListMove

namespace Raids.Key

/-- The operations of a stored list that the library supplies: the scans from a position in both
directions, the removal at a position and the insertion next to a pivot. -/
structure ListLib where
  scanFwd : ListData → Bytes → Nat → Option Nat
  scanRev : ListData → Bytes → Nat → Option Nat
  lrem : ListData → Nat → ListData
  linsert : ListData → Bytes → Bytes → Bool → Option ListData

/-- The scan goes on at the position of the removed element, and the count goes to zero. Every
round removes an element, so the rounds of a list are one more than its elements at most. -/
def lremLoop (lib : ListLib) (scan : ListData → Bytes → Nat → Option Nat) (step : Int)
    (arg : Bytes) : Nat → ListData → Nat → Int → Nat → Option (ListData × Nat)
  | 0, _, _, _, _ => none
  | rounds + 1, data, pos, ival, cnt =>
      match scan data arg pos with
      | none => some (data, cnt)
      | some pos =>
          if ival + step = 0 then some (lib.lrem data pos, cnt + 1)
          else lremLoop lib scan step arg rounds (lib.lrem data pos) pos (ival + step) (cnt + 1)

/-- A negative count removes from the tail. -/
def lremData (lib : ListLib) (data : ListData) (ival : Int) (arg : Bytes) :
    Option (ListData × Nat) :=
  if ival < 0 then lremLoop lib lib.scanRev 1 arg (data.length + 1) data data.length ival 0
  else lremLoop lib lib.scanFwd (-1) arg (data.length + 1) data 0 ival 0

/-- Nothing stands for a loop that does not end. -/
def execLrem (lib : ListLib) (env : KeyEnv) (msg : CommandMsg) (entry : Option (Entry ListData)) :
    Option (KeyRun ListData) :=
  match msg.getArgInt 2, msg.getArgStr (3 : Nat) with
  | some ival, some arg =>
      let found := getKeyWrite env .list entry
      match found.kstatus, found.entry with
      | some .keyOk, some e =>
          if env.valued then
            (lremData lib e.data ival arg).map fun (data, cnt) =>
              { found.stop .execSendInt with entry := some { e with data := data }, ival := cnt }
          else some (found.stop .errKvStatus)
      | some .keyIsNew, _ => some (found.stop .execSendZero)
      | some .keyNoValue, _ => some (found.stop .errBadType)
      | _, _ => some (found.stop .errKvStatus)
  | _, _ => some (unfetched .errBadArgs entry)

/-- The insertion is tried again when a full list has grown. -/
def linsertLoop (lib : ListLib) (piv value : Bytes) (after : Bool) (run : KeyRun ListData)
    (e : Entry ListData) : List Bool → KeyRun ListData
  | [] =>
      match lib.linsert e.data piv value after with
      | some data =>
          { run with
              status := .execSendInt, entry := some { e with data := data }, ival := data.length }
      | none => { run with status := .execSendInt, entry := some e, ival := -1 }
  | true :: grow => linsertLoop lib piv value after run e grow
  | false :: _ => { run with status := .errKvStatus, entry := some e }

/-- The side of the pivot. -/
def insertSide (msg : CommandMsg) : Option Bool :=
  match msg.matchArg 2 [text "before", text "after"] with
  | 1 => some false
  | 2 => some true
  | _ => none

/-- A missing key becomes a list without elements, in which there is no pivot. -/
def execLinsert (lib : ListLib) (env : KeyEnv) (msg : CommandMsg)
    (entry : Option (Entry ListData)) : KeyRun ListData :=
  match insertSide msg, msg.getArgStr (3 : Nat), msg.getArgStr (4 : Nat) with
  | some after, some piv, some value =>
      let found := getKeyWrite env .list entry
      match found.kstatus, found.entry with
      | some .keyOk, some e =>
          if env.valued then linsertLoop lib piv value after (found.stop .execOk) e env.grow
          else found.stop .errKvStatus
      | some .keyIsNew, old =>
          if ¬sizedArgs msg then found.stop .errBadArgs
          else if env.resized then
            linsertLoop lib piv value after
              { found.stop .execOk with isNew := true, type := .list } (Entry.write old []) env.grow
          else found.stop .errKvStatus
      | some .keyNoValue, _ => found.stop .errBadType
      | _, _ => found.stop .errKvStatus
  | _, _, _ => unfetched .errBadArgs entry

/-- The commands that add elements at one end of a list. -/
inductive PushCmd where
  | lpush | rpush | lpushx | rpushx
  deriving DecidableEq, Repr

/-- These commands add to a list that is there. -/
def PushCmd.mustExist : PushCmd → Bool
  | .lpushx | .rpushx => true
  | _ => false

def PushCmd.push (cmd : PushCmd) (value : Bytes) (data : ListData) : ListData :=
  match cmd with
  | .lpush | .lpushx => value :: data
  | .rpush | .rpushx => data ++ [value]

/-- The elements are added one by one, up to an argument that is no string. -/
def pushLoop (env : WriteEnv) (cmd : PushCmd) (msg : CommandMsg) (run : KeyRun ListData) :
    Nat → Nat → Bytes → Entry ListData → KeyRun ListData
  | 0, argi, value, e =>
      if env.room argi then
        let data := cmd.push value e.data
        { run with
            status := .execSendInt, entry := some { e with data := data }, ival := data.length }
      else { run with status := .errKvStatus, entry := some e }
  | more + 1, argi, value, e =>
      if env.room argi then
        let e := { e with data := cmd.push value e.data }
        match msg.getArgStr argi with
        | none => { run with status := .errBadArgs, entry := some e }
        | some value => pushLoop env cmd msg run more (argi + 1) value e
      else { run with status := .errKvStatus, entry := some e }

/-- The arguments become elements of a list. -/
def doPushArgs (env : WriteEnv) (cmd : PushCmd) (msg : CommandMsg)
    (entry : Option (Entry ListData)) : KeyRun ListData :=
  match msg.getArgStr 2 with
  | none => unfetched .errBadArgs entry
  | some value =>
      let found := getKeyWrite env.table .list entry
      match found.kstatus, found.entry with
      | some .keyOk, some e =>
          if env.table.valued then
            pushLoop env cmd msg (found.stop .execOk) (msg.argc - 3) 3 value e
          else found.stop .errKvStatus
      | some .keyIsNew, old =>
          if cmd.mustExist then found.stop .execSendZero
          else if ¬sizedArgs msg then found.stop .errBadArgs
          else if env.table.resized then
            pushLoop env cmd msg { found.stop .execOk with isNew := true, type := .list }
              (msg.argc - 3) 3 value (Entry.write old [])
          else found.stop .errKvStatus
      | some .keyNoValue, _ => found.stop .errBadType
      | _, _ => found.stop .errKvStatus

def execLpush (env : WriteEnv) := doPushArgs env .lpush

def execRpush (env : WriteEnv) := doPushArgs env .rpush

def execLpushx (env : WriteEnv) := doPushArgs env .lpushx

def execRpushx (env : WriteEnv) := doPushArgs env .rpushx

/-- The ends of a list. -/
inductive PopCmd where
  | lpop | rpop
  deriving DecidableEq, Repr

/-- The element at one end, and the list without it. -/
def PopCmd.pop (cmd : PopCmd) (data : ListData) : Option (Bytes × ListData) :=
  match cmd with
  | .lpop => data.head?.map (·, data.tail)
  | .rpop => data.getLast?.map (·, data.dropLast)

/-- An element leaves a list, and a list without elements is deleted. -/
def doPopEnd (env : WriteEnv) (cmd : PopCmd) (entry : Option (Entry ListData)) :
    KeyRun ListData :=
  let found := getKeyWrite env.table .list entry
  match found.kstatus, found.entry with
  | some .keyOk, some e =>
      if env.table.valued then
        match cmd.pop e.data with
        | none => found.stop .execSendNil
        | some (lv, data) =>
            let run := { found.stop .execOk with
              entry := some { e with data := data }, out := sendConcatString lv }
            if data.isEmpty then
              if env.tombstoned then { run with entry := none, keyspaceDel := true }
              else { run with status := .errKvStatus, keyspaceDel := true }
            else run
      else found.stop .errKvStatus
  | some .keyIsNew, _ => found.stop .execSendNil
  | some .keyNoValue, _ => found.stop .errBadType
  | _, _ => found.stop .errKvStatus

def execLpop (env : WriteEnv) := doPopEnd env .lpop

def execRpop (env : WriteEnv) := doPopEnd env .rpop

def execLlen (env : KeyEnv) (entry : Option (Entry ListData)) : KeyRun ListData :=
  let found := getKeyRead env .list entry
  match found.kstatus, found.entry with
  | some .keyOk, some e =>
      if env.valued ∧ env.validated then
        { found.stop .execSendInt with ival := e.data.length, isReadOnly := true }
      else { found.stop .errKvStatus with isReadOnly := true }
  | some .keyNotFound, _ => { found.stop .execSendZero with isReadOnly := true }
  | some .keyNoValue, _ => { found.stop .errBadType with isReadOnly := true }
  | _, _ => { found.stop .errKvStatus with isReadOnly := true }

/-- The first elements that are equal to the value leave the list. -/
def removeFirst (value : Bytes) : Nat → ListData → ListData
  | 0, data => data
  | _ + 1, [] => []
  | n + 1, x :: data =>
      if x = value then removeFirst value n data else x :: removeFirst value (n + 1) data

/-- A positive count removes the first elements, a negative one the last ones, and zero all. -/
def removeCount (value : Bytes) (n : Int) (data : ListData) : ListData :=
  if 0 < n then removeFirst value n.toNat data
  else if n < 0 then (removeFirst value n.natAbs data.reverse).reverse
  else data.filter (· ≠ value)

/-- The value stands next to the first element that is equal to the pivot. -/
def insertNext (piv value : Bytes) (after : Bool) : ListData → Option ListData
  | [] => none
  | x :: data =>
      if x = piv then some (if after then x :: value :: data else value :: x :: data)
      else (insertNext piv value after data).map (x :: ·)

end Raids.Key
