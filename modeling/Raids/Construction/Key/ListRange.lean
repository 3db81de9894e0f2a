import Raids.Construction.Key.Bits
import Raids.Construction.Key.ListMove

namespace Raids.Key

/-- A negative index counts from the end. The sum with the count of the list wraps around. -/
def wrapIndex (count : Nat) (index : Int) : Int :=
  if index < 0 then toInt64 (count + index) else index

/-- There is no number behind the largest one. The code leaves that sum undefined. -/
def increment (stop : Int) : Option Int := if stop < 2 ^ 63 - 1 then some (stop + 1) else none

/-- The strings of an array with their number as a reply. -/
def sendArray (values : List Bytes) : Bytes :=
  arrayChar :: uint64ToString values.length ++ crlf ++ values.flatMap sendConcatString

/-- The elements from an index on are read one by one. -/
def lindexLoop (data : ListData) : Nat → Nat → List Bytes
  | 0, _ => []
  | left + 1, index =>
      match data[index]? with
      | none => []
      | some lv => lv :: lindexLoop data left (index + 1)

/-- The bounds of a read are the first index and the one behind the last. -/
def lrange (data : ListData) (start stop : Int) : Option (List Bytes) :=
  let count : Int := data.length
  if 0 < count then
    match increment (wrapIndex data.length stop) with
    | none => none
    | some stop =>
        let start := min count (max 0 (wrapIndex data.length start))
        let stop := min count (max 0 stop)
        some (lindexLoop data (stop - start).toNat start.toNat)
  else some []

/-- The reply of a read with an array. -/
def Fetched.array (found : Fetched ListData) (env : KeyEnv) (values : List Bytes) :
    KeyRun ListData :=
  if env.validated then { found.read .execOk with out := sendArray values }
  else found.read .errKvStatus

/-- Nothing stands for a run that the code leaves undefined. -/
def execLrange (env : KeyEnv) (msg : CommandMsg) (entry : Option (Entry ListData)) :
    Option (KeyRun ListData) :=
  match msg.getArgInt 2, msg.getArgInt 3 with
  | some start, some stop =>
      let found := getKeyRead env .list entry
      match found.kstatus, found.entry with
      | some .keyOk, some e =>
          if env.valued then (lrange e.data start stop).map (found.array env)
          else some (found.read .errKvStatus)
      | some .keyNotFound, _ => some (found.array env [])
      | some .keyNoValue, _ => some (found.read .errBadType)
      | _, _ => some (found.read .errKvStatus)
  | _, _ => some (unfetched .errBadArgs entry)

/-- The elements before the first and behind the last leave the list. A list that loses all its
elements is deleted. -/
def ltrim (found : Fetched ListData) (tombstoned : Bool) (e : Entry ListData) (start stop : Int) :
    Option (KeyRun ListData) :=
  let cnt : Int := e.data.length
  match increment (wrapIndex e.data.length stop) with
  | none => none
  | some stop =>
      let start := min cnt (max 0 (wrapIndex e.data.length start))
      let stop := cnt - min cnt (max 0 stop)
      let rest := e.data.drop start.toNat
      let x := { e with data := rest.take (rest.length - stop.toNat) }
      if (0 < start ∨ 0 < stop) ∧ cnt ≤ start + stop then
        if tombstoned then some { found.stop .execSendOk with entry := none, keyspaceDel := true }
        else some { found.stop .errKvStatus with entry := some x, keyspaceDel := true }
      else some { found.stop .execSendOk with entry := some x }

/-- Nothing stands for a run that the code leaves undefined. -/
def execLtrim (env : KeyEnv) (tombstoned : Bool) (msg : CommandMsg)
    (entry : Option (Entry ListData)) : Option (KeyRun ListData) :=
  match msg.getArgInt 2, msg.getArgInt 3 with
  | some start, some stop =>
      let found := getKeyWrite env .list entry
      match found.kstatus, found.entry with
      | some .keyOk, some e =>
          if env.valued then ltrim found tombstoned e start stop
          else some (found.stop .errKvStatus)
      | some .keyIsNew, _ => some (found.stop .execSendOk)
      | some .keyNoValue, _ => some (found.stop .errBadType)
      | _, _ => some (found.stop .errKvStatus)
  | _, _ => some (unfetched .errBadArgs entry)

/-- The elements of a list from one index to another, both of which may count from the end. -/
def listSlice (data : ListData) (start stop : Int) : ListData :=
  (data.zipIdx.filter fun elem =>
    max 0 (fromEnd data.length start) ≤ elem.2 ∧
      (elem.2 : Int) ≤ min ((data.length : Int) - 1) (fromEnd data.length stop)).map Prod.fst

end Raids.Key
