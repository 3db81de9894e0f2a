import Raids.Construction.Exec.Request
import Raids.Library.Memory
import Mathlib.Data.Finset.Card

namespace Raids.Keyspace
open Buffer

/-- The classes of the subjects that are built for a key. -/
inductive BlockClass where
  | keyspace | listblkd | zsetblkd | strmblkd
  deriving DecidableEq, Repr

/-- The subjects are built for a key, for an event or for the address of a peer. -/
inductive SubjectKind where
  | bsubj (blk : BlockClass)
  | keyevent
  | monitor (addr : Bytes)
  deriving DecidableEq, Repr

def BlockClass.tag : BlockClass → Bytes
  | .keyspace => text "__keyspace"
  | .listblkd => text "__listblkd"
  | .zsetblkd => text "__zsetblkd"
  | .strmblkd => text "__strmblkd"

/-- Each tag has ten bytes. -/
def SubjectKind.tag : SubjectKind → Bytes
  | .bsubj blk => blk.tag
  | .keyevent => text "__keyevent"
  | .monitor _ => text "__monitor_"

/-- The digits of a database. -/
def dbDigits (x : UInt8) : Bytes :=
  if x < 10 then [48 + x]
  else if x < 100 then [48 + x / 10, 48 + x % 10]
  else [48 + x / 100, 48 + x / 10 % 10, 48 + x % 10]

/-- The subjects of one command share a buffer. The digits of the database are kept from the first
subject on. -/
structure RedisKeyspace where
  pref : Bytes
  key : Bytes := []
  evt : Bytes := []
  subj : Bytes := []
  allocLen : Nat := 0
  db : Bytes := []
  deriving DecidableEq, Repr

/-- What the building of a subject meets: its kind, the key and the event, the database of the command,
and whether there is memory for a new buffer and the bytes of that memory. -/
structure SubjectCall where
  kind : SubjectKind
  key : Bytes := []
  evt : Bytes := []
  dbNum : UInt8 := 0
  allocated : Bool := true
  memory : Nat → UInt8 := fun _ => 0

/-- A longer subject has a new buffer, with the prefix in front. -/
def allocSubj (s : RedisKeyspace) (call : SubjectCall) (subjLen : Nat) : Option RedisKeyspace :=
  if s.allocLen < subjLen then
    let len := 20 + s.pref.length + s.key.length + s.evt.length
    if call.allocated then
      some { s with
        subj := s.pref ++ (List.range (len + 1 - s.pref.length)).map call.memory
        allocLen := len }
    else none
  else some s

/-- The digits of the database are computed once. -/
def dbStr (s : RedisKeyspace) (dbNum : UInt8) : Bytes := if s.db = [] then dbDigits dbNum else s.db

/-- What stands at the end of a subject. -/
def SubjectCall.tail (call : SubjectCall) : Bytes :=
  match call.kind with
  | .bsubj _ => call.key
  | .keyevent => call.evt
  | .monitor addr => addr

/-- A subject ends with a zero, unless it is the one of a monitor without an address. -/
def SubjectCall.terminator (call : SubjectCall) : Bytes :=
  match call.kind with
  | .monitor [] => []
  | _ => [0]

/-- A subject is built behind the prefix. Nothing stands for a write behind the end of the buffer;
without memory there is no subject. -/
def makeSubj (s : RedisKeyspace) (call : SubjectCall) :
    Option (RedisKeyspace × Option Bytes) :=
  let s := { s with key := call.key, evt := call.evt }
  match allocSubj s call (20 + call.tail.length) with
  | none => some (s, none)
  | some s =>
      let db := dbStr s call.dbNum
      let words := [call.kind.tag, text "@", db, text "__:", call.tail, call.terminator]
      (putAll s.subj s.pref.length words).map fun subj =>
        let subjLen := 10 + 1 + db.length + 3 + call.tail.length
        ({ s with subj := subj, db := db }, some (subj.take (s.pref.length + subjLen)))

/-- The subjects of a command, one behind the other. -/
def makeSubjs (s : RedisKeyspace) : List SubjectCall → Option (List (Option Bytes))
  | [] => some []
  | call :: calls =>
      (makeSubj s call).bind fun made =>
        (makeSubjs made.1 calls).map fun subjs => made.2 :: subjs

/-- The events that a subscription can ask for. -/
inductive EventClass where
  | keyspace | keyevent | listblkd | zsetblkd | strmblkd | monitor
  deriving DecidableEq, Repr

/-- The start of the subjects of a class. -/
def EventClass.subject : EventClass → Bytes
  | .keyspace => text "__keyspace@"
  | .keyevent => text "__keyevent@"
  | .listblkd => text "__listblkd@"
  | .zsetblkd => text "__zsetblkd@"
  | .strmblkd => text "__strmblkd@"
  | .monitor => text "__monitor_@"

def underscore : UInt8 := 95

def dot : UInt8 := 46

/-- The part of a subject that is compared with the classes. A subject with a prefix of the service
is compared behind the dot. -/
def classPart (sub : Bytes) : Option Bytes :=
  if 3 < sub.length then
    if sub.head? ≠ some underscore then none
    else if sub.tail.head? ≠ some underscore then
      match sub.dropWhile (· ≠ dot) with
      | [] => none
      | _ :: rest => if rest ≠ [] ∧ rest.head? ≠ some underscore then none else some rest
    else some sub
  else some sub

/-- A text that ends before the start of a class does concerns the class too. -/
def concerns (sub : Bytes) (c : EventClass) : Bool :=
  (classPart sub).any fun part => part.isPrefixOf c.subject

/-- The connections that asked for the events of each class, and the flags of the classes that have
one. The route of a class without its flag is not read. -/
structure RedisKeyspaceNotify where
  route : EventClass → Finset Nat := fun _ => ∅
  keyFlags : EventClass → Bool := fun _ => false

namespace RedisKeyspaceNotify

variable (n : RedisKeyspaceNotify)

/-- A route that keeps its count is not changed. -/
def updateKeyspaceRoute (c : EventClass) (add : Bool) (fd : Nat) : RedisKeyspaceNotify :=
  let rte := if n.keyFlags c then n.route c else ∅
  let xte := if add then insert fd rte else rte.erase fd
  if xte.card = rte.card then n
  else if xte.card = 0 then
    { route := Function.update n.route c ∅, keyFlags := Function.update n.keyFlags c false }
  else { route := Function.update n.route c xte, keyFlags := Function.update n.keyFlags c true }

def updateKeyspaceCount (sub : Bytes) (add : Bool) (fd : Nat) : RedisKeyspaceNotify :=
  [EventClass.keyspace, .keyevent, .listblkd, .zsetblkd, .strmblkd, .monitor].foldl
    (fun n c => if concerns sub c then n.updateKeyspaceRoute c add fd else n) n

/-- A subject that is not longer than the start of a class is not counted. -/
def onSub (subject : Bytes) (fd : Nat) : RedisKeyspaceNotify :=
  if 11 < subject.length then n.updateKeyspaceCount (subject.take 11) true fd else n

def onUnsub (subject : Bytes) (fd : Nat) : RedisKeyspaceNotify :=
  if 11 < subject.length then n.updateKeyspaceCount (subject.take 11) false fd else n

/-- Of a pattern its literal text is counted. -/
def onPsub (pattern : Bytes) (prefixlen fd : Nat) : RedisKeyspaceNotify :=
  n.updateKeyspaceCount (pattern.take (if prefixlen < 11 then prefixlen else 11)) true fd

def onPunsub (pattern : Bytes) (prefixlen fd : Nat) : RedisKeyspaceNotify :=
  n.updateKeyspaceCount (pattern.take (if prefixlen < 11 then prefixlen else 11)) false fd

end RedisKeyspaceNotify

/-- A subject, or a pattern with the length of its literal text. -/
inductive Subscription where
  | sub (subject : Bytes)
  | psub (pattern : Bytes) (prefixlen : Nat)
  deriving DecidableEq, Repr

/-- The router announces that a connection starts or ends a subscription. -/
structure KeyspaceNotice where
  add : Bool
  fd : Nat
  entry : Subscription
  deriving DecidableEq, Repr

def RedisKeyspaceNotify.notify (n : RedisKeyspaceNotify) (notice : KeyspaceNotice) :
    RedisKeyspaceNotify :=
  match notice.add, notice.entry with
  | true, .sub subject => n.onSub subject notice.fd
  | false, .sub subject => n.onUnsub subject notice.fd
  | true, .psub pattern prefixlen => n.onPsub pattern prefixlen notice.fd
  | false, .psub pattern prefixlen => n.onPunsub pattern prefixlen notice.fd

end Raids.Keyspace
