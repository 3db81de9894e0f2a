import Raids.Construction.Key.Continue
import Raids.Construction.Key.ListRange
import Raids.Construction.Key.SortedSet

namespace Raids.Key

/-- The units of a distance. -/
inductive GeoUnit where
  | m | km | ft | mi
  deriving DecidableEq, Repr

/-- A member within the radius: its name, its hash, its coordinate and its distance. -/
structure Place (F C H : Type) where
  name : Bytes
  h3i : H
  coord : C
  dist : F
  deriving DecidableEq, Repr

/-- The geometry of places: how a text reads as a number, the coordinate of two numbers and of a
hash, the meters of a unit, the distance of two coordinates, the runs of indexes that a search
around a coordinate visits, the sort of the system, and the lists that hold hashes and distances.
The last fields write a distance, a hash and a coordinate as text. -/
structure GeoLib (F C H Z : Type) where
  number : Bytes → Option F
  coord : F → F → C
  meters : GeoUnit → F
  times : F → F → F
  divided : F → F → F
  h3ToGeo : H → C
  haversineDist : C → C → F
  search : ZSetData H → C → F → List (Nat × Nat)
  qsort : (Place F C H → Place F C H → Ordering) → List (Place F C H) → List (Place F C H)
  geoadd : ZSetData H → Bytes → H → ZSetData H
  zadd : ZSetData Z → Bytes → Z → ZSetData Z
  ftod : F → Z
  distText : F → Bytes
  hashNumber : H → Nat
  lonText : C → Bytes
  latText : C → Bytes

/-- The value of a key: places with their hashes, members with their distances, or another one. -/
inductive GeoValue (H Z : Type) where
  | geo (x : ZSetData H)
  | zset (x : ZSetData Z)
  | other

def GeoValue.places {H Z : Type} : GeoValue H Z → Option (ZSetData H)
  | .geo x => some x
  | _ => none

def GeoValue.scores {H Z : Type} : GeoValue H Z → Option (ZSetData Z)
  | .zset x => some x
  | _ => none

/-- The query starts at a coordinate or at a member. -/
inductive GeoOrigin (C : Type) where
  | coord (c : C)
  | member (name : Bytes)
  deriving DecidableEq, Repr

/-- The arguments of a query: its origin, its radius in meters, the unit of its distances, and its
options. Each word that asks for more items is counted. -/
structure GradiusArgs (F C : Type) where
  origin : GeoOrigin C
  radius : F
  units : GeoUnit
  withcoord : Bool := false
  withdist : Bool := false
  withhash : Bool := false
  withct : Nat := 0
  count : Nat := 0
  counted : Bool := false
  asc : Bool := false
  desc : Bool := false
  store : Bool := false
  storedist : Bool := false
  deriving DecidableEq, Repr

def unitWords : List Bytes :=
  [text "m", text "meter", text "meters", text "km", text "kilometer", text "kilometers",
    text "ft", text "feet", text "foot", text "mi", text "mile", text "miles"]

/-- A unit has three words. -/
def parseUnits (msg : CommandMsg) (i : Nat) : Option GeoUnit :=
  match msg.matchArg i unitWords with
  | 1 | 2 | 3 => some .m
  | 4 | 5 | 6 => some .km
  | 7 | 8 | 9 => some .ft
  | 10 | 11 | 12 => some .mi
  | _ => none

def gradiusWords : List Bytes :=
  [text "withcoord", text "withdist", text "withhash", text "count", text "asc", text "desc",
    text "store", text "storedist"]

section Query

variable {F C H Z : Type} [LinearOrder F] [LinearOrder H] (lib : GeoLib F C H Z)

/-- The options of a query; of the two stores the last one counts, and its key is passed. -/
def gradiusOptions (msg : CommandMsg) : Nat → Nat → GradiusArgs F C → Option (GradiusArgs F C)
  | 0, _, args => some args
  | left + 1, argi, args =>
      if argi < msg.argc then
        match msg.matchArg argi gradiusWords with
        | 1 =>
            gradiusOptions msg left (argi + 1)
              { args with withcoord := true, withct := args.withct + 1 }
        | 2 =>
            gradiusOptions msg left (argi + 1)
              { args with withdist := true, withct := args.withct + 1 }
        | 3 =>
            gradiusOptions msg left (argi + 1)
              { args with withhash := true, withct := args.withct + 1 }
        | 4 =>
            match msg.getArgInt (argi + 1) with
            | none => none
            | some cnt =>
                if cnt < 0 then none
                else
                  gradiusOptions msg left (argi + 2)
                    { args with count := cnt.toNat, counted := true }
        | 5 => gradiusOptions msg left (argi + 1) { args with asc := true }
        | 6 => gradiusOptions msg left (argi + 1) { args with desc := true }
        | 7 => gradiusOptions msg left (argi + 2) { args with store := true, storedist := false }
        | 8 => gradiusOptions msg left (argi + 2) { args with store := false, storedist := true }
        | _ => none
      else some args

/-- A radius is measured in its unit. -/
def gradiusRadius (msg : CommandMsg) (argi : Nat) (origin : GeoOrigin C) :
    Option (GradiusArgs F C) :=
  match (msg.getArgStr argi).bind lib.number, parseUnits msg (argi + 1) with
  | some radius, some units =>
      gradiusOptions msg msg.argc (argi + 2)
        { origin := origin
          radius := if units = .m then radius else lib.times radius (lib.meters units)
          units := units }
  | _, _ => none

/-- The origin of a query is a longitude with a latitude, or a member. -/
def gradiusArgs (byMember : Bool) (msg : CommandMsg) : Option (GradiusArgs F C) :=
  if byMember then
    match msg.getArgStr 2 with
    | some name => gradiusRadius lib msg 3 (.member name)
    | none => none
  else
    match (msg.getArgStr 2).bind lib.number, (msg.getArgStr 3).bind lib.number with
    | some lon, some lat => gradiusRadius lib msg 4 (.coord (lib.coord lon lat))
    | _, _ => none

/-- The place at an index, if it is within the radius. -/
def placeAt (x : ZSetData H) (coordi : C) (radius : F) (j : Nat) : Option (Place F C H) :=
  match x.zindex j with
  | none => none
  | some gv =>
      let coordj := lib.h3ToGeo gv.2
      let dist := lib.haversineDist coordi coordj
      if dist ≤ radius then some ⟨gv.1, gv.2, coordj, dist⟩ else none

/-- The places of a search, run by run. -/
def scanPlaces (x : ZSetData H) (coordi : C) (radius : F) : List (Place F C H) :=
  (lib.search x coordi radius).flatMap fun (n, m) =>
    (List.range' n (m - n)).filterMap (placeAt lib x coordi radius)

/-- The places are sent until their number is the count. -/
def sendLoop (count : Nat) : List (Place F C H) → Nat → List (Place F C H)
  | [], _ => []
  | place :: places, nitems =>
      if nitems + 1 = count then [place] else place :: sendLoop count places (nitems + 1)

def cmpAscendDist (x y : Place F C H) : Ordering := compare x.dist y.dist

def cmpAscendHash (x y : Place F C H) : Ordering := compare x.h3i y.h3i

def cmpDescendDist (x y : Place F C H) : Ordering := compare y.dist x.dist

/-- The comparison of a query; the stores come before the orders. -/
def GradiusArgs.cmpf (args : GradiusArgs F C) : Place F C H → Place F C H → Ordering :=
  if args.storedist then cmpAscendDist
  else if args.store then cmpAscendHash
  else if args.desc then cmpDescendDist
  else cmpAscendDist

/-- A copied name is read up to its first zero. -/
def Place.cut (place : Place F C H) : Place F C H :=
  { place with name := place.name.takeWhile fun b => b ≠ 0 }

/-- The places are collected from the last one to the first one, and sorted. -/
def sortedPlaces (args : GradiusArgs F C) (places : List (Place F C H)) : List (Place F C H) :=
  lib.qsort args.cmpf places.reverse

/-- The places that a query sends: in the order of the search, or from the sorted copies. -/
def sentPlaces (args : GradiusArgs F C) (places : List (Place F C H)) : List (Place F C H) :=
  if args.asc ∨ args.desc then
    (sendLoop args.count (sortedPlaces lib args places) 0).map Place.cut
  else sendLoop args.count places 0

/-- A place is sent as its name, or as an array with what the options ask for. -/
def appendPlace (args : GradiusArgs F C) (place : Place F C H) : Bytes :=
  (if args.withcoord ∨ args.withdist ∨ args.withhash then
      arrayChar :: UInt8.ofNat (48 + args.withct + 1) :: crlf
    else []) ++
    sendConcatString place.name ++
    (if args.withdist then
      sendConcatString (lib.distText (lib.divided place.dist (lib.meters args.units)))
    else []) ++
    (if args.withhash then integerChar :: uint64ToString (lib.hashNumber place.h3i) ++ crlf
    else []) ++
    (if args.withcoord then
      text "*2" ++ crlf ++ sendConcatString (lib.lonText place.coord) ++
        sendConcatString (lib.latText place.coord)
    else [])

/-- The reply is the array of the places. -/
def gradiusReply (args : GradiusArgs F C) (places : List (Place F C H)) : Bytes :=
  arrayChar :: uint64ToString places.length ++ crlf ++ places.flatMap (appendPlace lib args)

/-- The origin of a query; a member may be missing. -/
def originOf (x : ZSetData H) : GeoOrigin C → Option C
  | .coord c => some c
  | .member name => (x.members.find? fun gv => gv.1 = name).map fun gv => lib.h3ToGeo gv.2

/-- The matches of a query. -/
def gradiusPlaces (args : GradiusArgs F C) (x : ZSetData H) : List (Place F C H) :=
  match originOf lib x args.origin with
  | none => []
  | some coordi => scanPlaces lib x coordi args.radius

/-- The list that is saved for the destination of a store. -/
structure StorePlaceList (F C H : Type) where
  places : List (Place F C H)
  store : Bool
  storedist : Bool
  units : GeoUnit

/-- The end of a query: the places are saved for a store, or sent. -/
def gradiusFinished (env : KeyEnv) (args : GradiusArgs F C) (found : Fetched (GeoValue H Z))
    (places : List (Place F C H)) :
    KeyRun (GeoValue H Z) × Option (StorePlaceList F C H) :=
  if args.store ∨ args.storedist then
    let saved := some ⟨sortedPlaces lib args places, args.store, args.storedist, args.units⟩
    (found.read (if env.validated then .execOk else .errKvStatus), saved)
  else if env.validated then
    ({ found.read .execOk with out := gradiusReply lib args (sentPlaces lib args places) }, none)
  else (found.read .errKvStatus, none)

/-- The source of a query. -/
def doGradius (env : KeyEnv) (byMember : Bool) (msg : CommandMsg)
    (entry : Option (Entry (GeoValue H Z))) :
    KeyRun (GeoValue H Z) × Option (StorePlaceList F C H) :=
  match gradiusArgs lib byMember msg with
  | none => (unfetched .errBadArgs entry, none)
  | some args =>
      let found := getKeyRead env .geo entry
      match found.kstatus, found.entry.bind fun e => e.data.places with
      | some .keyNoValue, _ => (found.read .errBadType, none)
      | some .keyNotFound, _ => gradiusFinished lib env args found []
      | some .keyOk, some x =>
          if env.valued then gradiusFinished lib env args found (gradiusPlaces lib args x)
          else (found.read .errKvStatus, none)
      | _, _ => (found.read .errKvStatus, none)

end Query

section Store

variable {F C H Z : Type} (lib : GeoLib F C H Z)

/-- What a query meets: the table at its source, whether the table finds the destination and its
value and gives memory for a new one, and for each place the times that the list is full and whether
it can grow. The clock is the same for both keys. -/
structure GeoEnv where
  source : KeyEnv := {}
  destFetched : Bool := true
  destValued : Bool := true
  destResized : Bool := true
  grow : Nat → List Bool := fun _ => []

def GeoEnv.dest (env : GeoEnv) : KeyEnv :=
  { env.source with
    fetched := env.destFetched
    valued := env.destValued
    resized := env.destResized }

/-- The places are added one by one, until the list cannot grow. -/
def storeLoop {X : Type} (add : X → Place F C H → X) (grow : Nat → List Bool) :
    List (Place F C H) → Nat → X → Bool × X
  | [], _, x => (true, x)
  | place :: places, i, x =>
      if (grow i).all id then storeLoop add grow places (i + 1) (add x place) else (false, x)

/-- The places are added to the list of the destination, which is created if there is none. -/
def storeInto {X : Type} (env : GeoEnv) (type : MdType) (read : GeoValue H Z → Option X)
    (write : X → GeoValue H Z) (empty : X) (add : X → Place F C H → X)
    (places : List (Place F C H)) (entry : Option (Entry (GeoValue H Z))) :
    KeyRun (GeoValue H Z) :=
  let found := getKeyWrite env.dest type entry
  let added (run : KeyRun (GeoValue H Z)) (x : X) : KeyRun (GeoValue H Z) :=
    let (stored, x) := storeLoop add env.grow places 0 x
    { run with
      status := if stored then .execSendInt else .errKvStatus
      entry := some (Entry.write found.entry (write x))
      ival := places.length }
  match found.kstatus, found.entry.bind fun e => read e.data with
  | some .keyNoValue, _ => found.stop .errBadType
  | some .keyIsNew, _ =>
      if env.dest.resized then added { found.stop .execOk with isNew := true, type := type } empty
      else { found.stop .errKvStatus with isNew := true }
  | some .keyOk, some x =>
      if env.dest.valued then added (found.stop .execOk) x else found.stop .errKvStatus
  | _, _ => found.stop .errKvStatus

/-- The score of a place is its distance in the unit of the query. -/
def placeScore (units : GeoUnit) (place : Place F C H) : Z :=
  lib.ftod (if units ≠ .m then lib.divided place.dist (lib.meters units) else place.dist)

/-- The destination of a store is a geo key, or a sorted set of the distances. -/
def doGradiusStore (env : GeoEnv) (saved : Option (StorePlaceList F C H))
    (entry : Option (Entry (GeoValue H Z))) : KeyRun (GeoValue H Z) :=
  match saved with
  | none => unfetched .execSendZero entry
  | some stp =>
      if stp.store then
        storeInto env .geo GeoValue.places .geo .empty
          (fun x place => lib.geoadd x place.cut.name place.h3i) stp.places entry
      else if stp.storedist then
        storeInto env .sortedSet GeoValue.scores .zset .empty
          (fun x place => lib.zadd x place.cut.name (placeScore lib stp.units place)) stp.places
          entry
      else { unfetched .execSendInt entry with ival := stp.places.length }

end Store

section Run

variable {F C H Z : Type} [LinearOrder F] [LinearOrder H] (lib : GeoLib F C H Z)

/-- A query with its keys, and what its source has saved. -/
structure GradiusRun (F C H Z : Type) where
  db : KeyHash → Option (Entry (GeoValue H Z))
  saved : Option (StorePlaceList F C H) := none
  keyDone : Nat := 0
  out : Bytes := []

/-- The destination of a store is the last argument, if a store option stands in front of it. -/
def gradiusDest (msg : CommandMsg) (dest : KeyHash) : Option KeyHash :=
  if 2 < msg.argc ∧ msg.matchArg (msg.argc - 2) [text "STORE", text "STOREDIST"] ≠ 0 then some dest
  else none

/-- The keys of a query have their turns. The source is the first key, and the destination behind it
depends on it; a source that fails ends the query. -/
def runGradius (env : GeoEnv) (byMember : Bool) (msg : CommandMsg) (arg0 : Bytes)
    (source : KeyHash) (dest : Option KeyHash) :
    Nat → List Nat → GradiusRun F C H Z → Option (GradiusRun F C H Z)
  | _, [], s => some s
  | 0, _ :: _, _ => none
  | fuel + 1, idx :: queue, s =>
      let keyCnt := if dest.isSome then 2 else 1
      if idx = 0 then
        let (run, saved) := doGradius lib env.source byMember msg (s.db source)
        let s : GradiusRun F C H Z :=
          { db := Function.update s.db source (run.settle .geo)
            saved := saved
            keyDone := s.keyDone + 1
            out := s.out ++ run.out }
        if s.keyDone < keyCnt ∧ run.status.ctorIdx ≤ ExecStatus.execBlocked.ctorIdx then
          runGradius env byMember msg arg0 source dest fuel queue s
        else some { s with out := s.out ++ sendStatus arg0 run.ival run.status }
      else
        match dest with
        | none => runGradius env byMember msg arg0 source dest fuel queue s
        | some hash =>
            if keyCnt ≠ s.keyDone + 1 then
              runGradius env byMember msg arg0 source dest fuel (queue ++ [idx]) s
            else
              let run := doGradiusStore lib env s.saved (s.db hash)
              some
                { s with
                  db := Function.update s.db hash (run.settle .geo)
                  keyDone := s.keyDone + 1
                  out := s.out ++ run.out ++ sendStatus arg0 run.ival run.status }

def execGeoradius (env : GeoEnv) := runGradius lib env false

def execGeoradiusbymember (env : GeoEnv) := runGradius lib env true

end Run

end Raids.Key
