import Raids.Construction.Memcached.Reply

namespace Raids.Memcached

/-- The types that the commands tell apart. An entry may have no type yet. -/
inductive EntryType where
  | noData
  | string
  | other
  deriving DecidableEq, Repr

/-- An entry of the table. The stamp `exp` is in nanoseconds, zero stands for none; `cas` is the
serial number in the form that the commands print. -/
structure McEntry where
  type : EntryType
  data : Bytes
  val : Nat := 0
  exp : Nat := 0
  cas : Nat := 1
  deriving DecidableEq, Repr

/-- What one key of a command meets: the stamp of the table, and whether the table finds the key
and its value, gives memory for a new value, has not changed the value meanwhile, and whether
there is memory for a value that is saved and for the output. The text is the one of a failure. -/
structure KvEnv where
  currentStamp : Nat
  fetched : Bool := true
  valued : Bool := true
  resized : Bool := true
  validated : Bool := true
  saved : Bool := true
  room : Bool := true
  failure : Bytes := []
  deriving Repr

/-- The result of a fetch: no status stands for a failure of the table. -/
structure Fetched where
  kstatus : Option KeyStatus
  entry : Option McEntry
  deriving DecidableEq, Repr

abbrev KeyFetch := KvEnv → Bool → Option McEntry → Fetched

/-- The fetch of this executor finds or acquires the key. -/
def execKeyFetch : KeyFetch := fun env readOnly entry =>
  if env.fetched then
    ⟨some (if entry.isSome then .keyOk else if readOnly then .keyNotFound else .keyIsNew), entry⟩
  else ⟨none, entry⟩

/-- The fetch of the other executor looks at the expiry: a key that expired is released, and the
read or write goes on without it. -/
def redisKeyFetch (isExpired : Nat → McEntry → Bool) : KeyFetch := fun env readOnly entry =>
  if env.fetched then
    if entry.any (isExpired env.currentStamp) then
      ⟨some (if readOnly then .keyNotFound else .keyIsNew), none⟩
    else
      ⟨some (if entry.isSome then .keyOk else if readOnly then .keyNotFound else .keyIsNew), entry⟩
  else ⟨none, entry⟩

/-- A key of another type has no value for the command, and one without a type counts as new. -/
def checkType (readOnly : Bool) (found : Fetched) : Fetched :=
  match found with
  | ⟨some .keyOk, some e⟩ =>
      match e.type with
      | .string => found
      | .noData => ⟨some (if readOnly then .keyNotFound else .keyIsNew), some e⟩
      | .other => ⟨some .keyNoValue, some e⟩
  | _ => found

def getKeyRead (fetch : KeyFetch) (env : KvEnv) (entry : Option McEntry) : Fetched :=
  checkType true (fetch env true entry)

def getKeyWrite (fetch : KeyFetch) (env : KvEnv) (entry : Option McEntry) : Fetched :=
  checkType false (fetch env false entry)

/-- What the execution of one key leaves: its status, the counted bytes of the output, a value
that is saved for the end of the command, and the entry. -/
structure KeyResult where
  status : MemcachedStatus
  out : Bytes := []
  part : Option Bytes := none
  entry : Option McEntry
  deriving DecidableEq, Repr

/-- Without memory nothing is sent. -/
def KvEnv.send (env : KvEnv) (bytes : Bytes) : Bytes := if env.room then bytes else []

/-- The stamp of a time to live: a number of seconds below the clock is relative. -/
def expireStamp (ttl currentStamp : Nat) : Nat :=
  if ttl = 0 then 0
  else
    let ns := ttl * 1000000000 % 2 ^ 64
    if ns < currentStamp then (ns + currentStamp) % 2 ^ 64 else ns

/-- One key of a request. -/
structure KeyRun where
  fetch : KeyFetch
  env : KvEnv
  msg : MemcachedMsg
  key : Bytes
  keyCnt : Nat := 1

namespace KeyRun

variable (run : KeyRun)

def sendEntry (e : McEntry) : Bytes :=
  formatValue run.key e.val e.data
    (if run.msg.command = .gets ∨ run.msg.command = .gats then e.cas else 0) true

def saveEntry (e : McEntry) : Bytes :=
  formatValue run.key e.val e.data
    (if run.msg.command = .gets ∨ run.msg.command = .gats then e.cas else 0) false

def stamp : Nat := expireStamp run.msg.ttl run.env.currentStamp

/-- A miss of a single key is answered at once. -/
def retrMiss (entry : Option McEntry) : KeyResult :=
  ⟨.ok, if run.keyCnt = 1 then run.env.send (sendString (text "END")) else [], none, entry⟩

def execRetr (entry : Option McEntry) : KeyResult :=
  match getKeyRead run.fetch run.env entry with
  | ⟨some .keyOk, some e⟩ =>
      if run.env.valued then
        if run.keyCnt = 1 then
          if run.env.validated then ⟨.ok, run.env.send (run.sendEntry e), none, some e⟩
          else ⟨.errKv, [], none, some e⟩
        else if run.env.saved then
          if run.env.validated then ⟨.ok, [], some (run.saveEntry e), some e⟩
          else ⟨.errKv, [], some (run.saveEntry e), some e⟩
        else ⟨.allocFail, [], none, some e⟩
      else ⟨.errKv, [], none, some e⟩
  | ⟨some .keyNotFound, entry⟩ | ⟨some .keyNoValue, entry⟩ => run.retrMiss entry
  | ⟨_, entry⟩ => ⟨.errKv, [], none, entry⟩

/-- The answer to a binary request whose key has no value. -/
def binMiss : Bytes :=
  if run.msg.quiet then []
  else
    run.env.send
      (if run.msg.wantsKey then sendBinStatusKey run.msg .notFound run.key
      else sendBinStatus run.msg .notFound MemcachedBinStatus.notFound.text)

def binEntry (e : McEntry) : Bytes :=
  run.env.send (sendBinValue run.msg run.key e.val e.cas e.data)

def execBinRetr (entry : Option McEntry) : KeyResult :=
  match getKeyRead run.fetch run.env entry with
  | ⟨some .keyOk, some e⟩ =>
      if run.env.valued ∧ run.env.validated then ⟨.ok, run.binEntry e, none, some e⟩
      else ⟨.errKv, [], none, some e⟩
  | ⟨some .keyNotFound, entry⟩ | ⟨some .keyNoValue, entry⟩ => ⟨.ok, run.binMiss, none, entry⟩
  | ⟨_, entry⟩ => ⟨.errKv, [], none, entry⟩

/-- With more than one key, the branch of a saved value runs into the failure behind it. -/
def execRetrTouch (entry : Option McEntry) : KeyResult :=
  match getKeyWrite run.fetch run.env entry with
  | ⟨some .keyOk, some e⟩ =>
      if run.env.valued then
        let touched := { e with exp := run.stamp }
        if run.keyCnt = 1 then ⟨.ok, run.env.send (run.sendEntry e), none, some touched⟩
        else if run.env.saved then ⟨.errKv, [], some (run.saveEntry e), some touched⟩
        else ⟨.allocFail, [], none, some touched⟩
      else ⟨.errKv, [], none, some e⟩
  | ⟨some .keyIsNew, entry⟩ | ⟨some .keyNoValue, entry⟩ => run.retrMiss entry
  | ⟨_, entry⟩ => ⟨.errKv, [], none, entry⟩

def execBinRetrTouch (entry : Option McEntry) : KeyResult :=
  match getKeyWrite run.fetch run.env entry with
  | ⟨some .keyOk, some e⟩ =>
      if run.env.valued then ⟨.ok, run.binEntry e, none, some { e with exp := run.stamp }⟩
      else ⟨.errKv, [], none, some e⟩
  | ⟨some .keyIsNew, entry⟩ | ⟨some .keyNoValue, entry⟩ => ⟨.ok, run.binMiss, none, entry⟩
  | ⟨_, entry⟩ => ⟨.errKv, [], none, entry⟩

/-- The type of a key is not looked at. The key is fetched twice, for a read and for a write. -/
def delEntry (entry : Option McEntry) : Bool × Option McEntry :=
  match run.fetch run.env true entry with
  | ⟨some .keyOk, entry⟩ =>
      match run.fetch run.env false entry with
      | ⟨some .keyOk, _⟩ => (true, none)
      | ⟨_, entry⟩ => (false, entry)
  | ⟨_, entry⟩ => (false, entry)

def execDel (entry : Option McEntry) : KeyResult :=
  let (del, entry) := run.delEntry entry
  ⟨.ok,
    if run.msg.quiet then []
    else run.env.send (sendString (if del then text "DELETED" else text "NOT_FOUND")),
    none, entry⟩

def execBinDel (entry : Option McEntry) : KeyResult :=
  let (del, entry) := run.delEntry entry
  ⟨.ok,
    if run.msg.quiet then []
    else
      run.env.send
        (if del then binHdr run.msg 0 0 0 0 0
        else sendBinStatus run.msg .notFound MemcachedBinStatus.notFound.text),
    none, entry⟩

def execTouch (entry : Option McEntry) : KeyResult :=
  let reply := fun word => if run.msg.quiet then [] else run.env.send (sendString (text word))
  match getKeyWrite run.fetch run.env entry with
  | ⟨some .keyOk, some e⟩ => ⟨.ok, reply "TOUCHED", none, some { e with exp := run.stamp }⟩
  | ⟨some .keyIsNew, entry⟩ | ⟨some .keyNoValue, entry⟩ =>
      ⟨.ok, reply "NOT_FOUND", none, entry⟩
  | ⟨_, entry⟩ => ⟨.errKv, [], none, entry⟩

/-- The answer to a touch is a value without bytes. -/
def execBinTouch (entry : Option McEntry) : KeyResult :=
  let reply := fun bytes => if run.msg.quiet then [] else run.env.send bytes
  match getKeyWrite run.fetch run.env entry with
  | ⟨some .keyOk, some e⟩ =>
      ⟨.ok, reply (sendBinValue run.msg run.key e.val e.cas []), none,
        some { e with exp := run.stamp }⟩
  | ⟨some .keyIsNew, entry⟩ | ⟨some .keyNoValue, entry⟩ =>
      ⟨.ok, reply (sendBinStatus run.msg .notFound MemcachedBinStatus.notFound.text), none, entry⟩
  | ⟨_, entry⟩ => ⟨.errKv, [], none, entry⟩

/-- Increments wrap around, decrements stop at zero. -/
def arith (ival : Nat) : Nat :=
  if run.msg.command = .incr then (ival + run.msg.inc) % 2 ^ 64 else ival - run.msg.inc

/-- The line of a miss is written to the output but not counted, and so are the failures of a
request that wants no reply. -/
def execIncr (entry : Option McEntry) : KeyResult :=
  match getKeyWrite run.fetch run.env entry with
  | ⟨some .keyOk, some e⟩ =>
      if run.env.valued then
        match stringToUint e.data with
        | .error _ =>
            ⟨.ok, run.env.send (sendString
              (text "CLIENT_ERROR cannot increment or decrement non-numeric value")), none, some e⟩
        | .ok ival =>
            let str := uint64ToString (run.arith ival)
            if run.env.resized then
              ⟨.ok, run.env.send (sendString str), none,
                some { e with data := str, cas := e.cas + 1 }⟩
            else ⟨.errKv, [], none, some e⟩
      else ⟨.errKv, [], none, some e⟩
  | ⟨some .keyIsNew, entry⟩ | ⟨some .keyNoValue, entry⟩ => ⟨.ok, [], none, entry⟩
  | ⟨_, entry⟩ => ⟨.errKv, [], none, entry⟩

/-- The entry that is written to a key that has no value; a key of another type keeps its type. -/
def freshEntry (entry : Option McEntry) : McEntry :=
  match entry with
  | none => { type := .string, data := [] }
  | some e => if e.type = .noData then { e with type := .string } else e

/-- The number is stored as text and sent as a word. -/
def storeUint (e : McEntry) (ival : Nat) (failed : Option McEntry) : KeyResult :=
  if run.env.resized then
    ⟨.ok, run.env.send (binHdr run.msg 0 0 0 8 e.cas ++ BigEndian.digits 8 ival), none,
      some { e with data := uint64ToString ival, cas := e.cas + 1 }⟩
  else ⟨.errKv, [], none, failed⟩

/-- A missing key gets the initial value. -/
def execBinIncr (entry : Option McEntry) : KeyResult :=
  match getKeyWrite run.fetch run.env entry with
  | ⟨some .keyOk, some e⟩ =>
      if run.env.valued then
        match stringToUint e.data with
        | .error _ =>
            ⟨.ok, run.env.send
              (sendBinStatus run.msg .badIncrValue MemcachedBinStatus.badIncrValue.text), none,
              some e⟩
        | .ok ival => run.storeUint e (run.arith ival) (some e)
      else ⟨.errKv, [], none, some e⟩
  | ⟨some .keyIsNew, entry⟩ | ⟨some .keyNoValue, entry⟩ =>
      run.storeUint (freshEntry entry) run.msg.ini entry
  | ⟨_, entry⟩ => ⟨.errKv, [], none, entry⟩

end KeyRun

/-- The conditions of a storage command. -/
structure StoreFlags where
  mustNotExist : Bool
  mustExist : Bool
  doPend : Bool
  doCas : Bool

/-- A serial number that is not zero adds its condition to every storage command. -/
def storeFlags (m : MemcachedMsg) : StoreFlags where
  mustNotExist := m.command = .add
  mustExist := m.command = .cas ∨ m.command = .append ∨ m.command = .prepend ∨
    m.command = .replace
  doPend := m.command = .append ∨ m.command = .prepend
  doCas := m.command = .cas ∨ m.cas ≠ 0

/-- The reason that a value is not stored. -/
inductive Refusal where
  | notFound
  | notStored
  | exists
  deriving DecidableEq, Repr

/-- The reason is looked for in this order. `present` is the reason when the key must not exist. -/
def refusal (flags : StoreFlags) (present : Refusal) (isNew : Bool) (cnt cas : Nat) :
    Option Refusal :=
  let status :=
    if isNew then
      if flags.mustExist then some (if flags.doCas then .notFound else .notStored) else none
    else if flags.mustNotExist then some present else none
  match status with
  | some status => some status
  | none => if flags.doCas ∧ cnt ≠ cas then some .exists else none

namespace KeyRun

variable (run : KeyRun)

/-- The data behind an append, a prepend or a replacement. -/
def storeData (e : McEntry) : Bytes :=
  let value := (run.msg.msg.map (·.str)).getD []
  match run.msg.command with
  | .append => e.data ++ value
  | .prepend => value ++ e.data
  | _ => value

/-- The entry that a new value is written to. A key of another type becomes a string. -/
def storeTarget (entry : Option McEntry) : McEntry :=
  match entry with
  | none => { type := .string, data := [] }
  | some e => { e with type := .string }

/-- The stamp is set before the memory for the value is asked for. -/
def storeValue (keepExtras : Bool) (entry : Option McEntry) (reply : McEntry → Bytes) :
    KeyResult :=
  let stamped := fun e : McEntry => if keepExtras then e else { e with exp := run.stamp }
  let e := storeTarget entry
  if run.env.resized ∧ ((storeFlags run.msg).doPend = true → run.env.valued) then
    ⟨.ok, if run.msg.quiet then [] else run.env.send (reply e), none,
      some { stamped e with
        data := run.storeData e
        val := if keepExtras then e.val else run.msg.flags
        cas := e.cas + 1 }⟩
  else ⟨.errKv, [], none, entry.map stamped⟩

/-- The text and the binary commands have the replies in common that say why nothing is stored. A
key of another type becomes a string also when nothing is stored. -/
def store (present : Refusal) (keepExtras : Bool) (refused : Refusal → Bytes)
    (stored : McEntry → Bytes) (entry : Option McEntry) : KeyResult :=
  match getKeyWrite run.fetch run.env entry with
  | ⟨some .keyNotFound, entry⟩ | ⟨none, entry⟩ => ⟨.errKv, [], none, entry⟩
  | ⟨some kstatus, entry⟩ =>
      match refusal (storeFlags run.msg) present (kstatus ≠ .keyOk) (storeTarget entry).cas
          run.msg.cas with
      | some reason =>
          ⟨.ok, if run.msg.quiet then [] else run.env.send (refused reason), none,
            if kstatus = .keyNoValue then entry.map fun e => { e with type := .string }
            else entry⟩
      | none => run.storeValue keepExtras entry stored

def refusedLine : Refusal → Bytes
  | .notFound => sendString (text "NOT_FOUND")
  | .notStored => sendString (text "NOT_STORED")
  | .exists => sendString (text "EXISTS")

def execStore (entry : Option McEntry) : KeyResult :=
  run.store .notStored false refusedLine (fun _ => sendString (text "STORED")) entry

def refusedStatus : Refusal → MemcachedBinStatus
  | .notFound => .notFound
  | .notStored => .notStored
  | .exists => .exists

/-- An append or prepend of a binary request keeps the flags and the stamp. -/
def execBinStore (entry : Option McEntry) : KeyResult :=
  run.store .exists (storeFlags run.msg).doPend
    (fun reason => sendBinStatus run.msg (refusedStatus reason) (refusedStatus reason).text)
    (fun e => binHdr run.msg 0 0 0 0 e.cas) entry

/-- The handler of one key. -/
def execCommand (entry : Option McEntry) : KeyResult :=
  match run.msg.command with
  | .set | .add | .append | .replace | .prepend | .cas =>
      if run.msg.binary then run.execBinStore entry else run.execStore entry
  | .get | .gets => if run.msg.binary then run.execBinRetr entry else run.execRetr entry
  | .gat | .gats => if run.msg.binary then run.execBinRetrTouch entry else run.execRetrTouch entry
  | .delete => if run.msg.binary then run.execBinDel entry else run.execDel entry
  | .touch => if run.msg.binary then run.execBinTouch entry else run.execTouch entry
  | .decr | .incr => if run.msg.binary then run.execBinIncr entry else run.execIncr entry
  | _ => ⟨.notImpl, [], none, entry⟩

/-- A key without a type becomes a string when a write to it succeeds, also one that misses. -/
def execKey (entry : Option McEntry) : KeyResult :=
  let result := run.execCommand entry
  if result.status = .ok ∧ run.msg.command ≠ .get ∧ run.msg.command ≠ .gets then
    { result with
      entry := result.entry.map fun e =>
        if e.type = .noData then { e with type := .string } else e }
  else result

end KeyRun

end Raids.Memcached
