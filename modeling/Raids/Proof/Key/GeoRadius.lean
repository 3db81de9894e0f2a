import Mathlib.Data.List.Perm.Subperm
import Mathlib.Data.List.TakeWhile
import Raids.Construction.Key.GeoRadius
import Raids.Library.LinearProbe
import Raids.Library.PrefixFree
import Raids.Library.Ranking
import Raids.Proof.Key.SortedSet

namespace Raids.Key

open LastWrite PrefixFree Ranking

section Order

variable {F C H Z : Type} [LinearOrder F] [LinearOrder Z]

/-- No call of the table fails. -/
structure GeoEnv.Works (env : GeoEnv) : Prop where
  source : env.source.Works
  destFetched : env.destFetched
  destValued : env.destValued
  destResized : env.destResized
  grows : ∀ i, ∀ grown ∈ env.grow i, grown = true

/-- The sort keeps the items and puts them in the order of its comparison, the runs of a search do
not meet, a list takes the score of a member, and distances in a unit and as scores keep their
order. -/
structure GeoLib.Works (lib : GeoLib F C H Z) : Prop where
  perm : ∀ cmp places, (lib.qsort cmp places).Perm places
  sorted : ∀ cmp : Place F C H → Place F C H → Ordering, (∀ x y, (cmp x y).swap = cmp y x) →
    (∀ x y z, cmp x y ≠ .gt → cmp y z ≠ .gt → cmp x z ≠ .gt) →
    ∀ places, (lib.qsort cmp places).Pairwise fun x y => cmp x y ≠ .gt
  disjoint : ∀ x coordi radius,
    ((lib.search x coordi radius).flatMap fun run => List.range' run.1 (run.2 - run.1)).Nodup
  geoadd : ∀ x m set m', (lib.geoadd x m set).score m' = if m' = m then some set else x.score m'
  zadd : ∀ x m set m', (lib.zadd x m set).score m' = if m' = m then some set else x.score m'
  divided : ∀ units dist dist', dist ≤ dist' →
    lib.divided dist (lib.meters units) ≤ lib.divided dist' (lib.meters units)
  ftod : ∀ dist dist', dist ≤ dist' → lib.ftod dist ≤ lib.ftod dist'

variable {lib : GeoLib F C H Z}

/-- Scores keep the order of the distances. -/
theorem placeScore_le (libWorks : lib.Works) (units : GeoUnit) {x y : Place F C H}
    (near : x.dist ≤ y.dist) : placeScore lib units x ≤ placeScore lib units y := by
  rw [placeScore, placeScore]
  by_cases meters : units = .m
  · rw [if_neg (not_not.mpr meters), if_neg (not_not.mpr meters)]
    exact libWorks.ftod _ _ near
  · rw [if_pos meters, if_pos meters]
    exact libWorks.ftod _ _ (libWorks.divided units _ _ near)

/-- The sorted places are the places. -/
theorem sortedPlaces_perm [LinearOrder H] (libWorks : lib.Works) (args : GradiusArgs F C)
    (places : List (Place F C H)) : (sortedPlaces lib args places).Perm places :=
  (libWorks.perm _ _).trans (List.reverse_perm places)

/-- The sort by a number puts the places in its order. -/
theorem pairwise_of_key {K : Type} [LinearOrder K] (libWorks : lib.Works)
    (key : Place F C H → K) {cmp : Place F C H → Place F C H → Ordering}
    (compares : ∀ x y, cmp x y = compare (key x) (key y)) (places : List (Place F C H)) :
    (lib.qsort cmp places).Pairwise fun x y => key x ≤ key y := by
  have le_iff : ∀ x y, cmp x y ≠ .gt ↔ key x ≤ key y := by
    intro x y
    rw [compares, ne_eq, compare_gt_iff_gt, not_lt]
  have sorted := libWorks.sorted cmp
    (by
      intro x y
      rw [compares, compares]
      exact Std.OrientedCmp.eq_swap.symm)
    (by
      intro x y z first second
      rw [le_iff] at first second ⊢
      exact le_trans first second) places
  exact sorted.imp fun compared => (le_iff _ _).mp compared

/-- A comparison of distances: a descending one is the other way round. -/
theorem sortedPlaces_dist [LinearOrder H] (libWorks : lib.Works) {args : GradiusArgs F C}
    (places : List (Place F C H)) :
    (args.storedist → (sortedPlaces lib args places).Pairwise fun x y => x.dist ≤ y.dist) ∧
      (args.store → args.storedist = false →
        (sortedPlaces lib args places).Pairwise fun x y => x.h3i ≤ y.h3i) ∧
      (args.store = false → args.storedist = false →
        (args.desc → (sortedPlaces lib args places).Pairwise fun x y => y.dist ≤ x.dist) ∧
        (args.desc = false →
          (sortedPlaces lib args places).Pairwise fun x y => x.dist ≤ y.dist)) := by
  have ascends : args.cmpf (H := H) = cmpAscendDist →
      (sortedPlaces lib args places).Pairwise fun x y => x.dist ≤ y.dist := by
    intro cmpf
    exact pairwise_of_key libWorks Place.dist (fun x y => by rw [cmpf, cmpAscendDist])
      places.reverse
  refine ⟨fun storedist => ascends (by rw [GradiusArgs.cmpf, if_pos storedist]), ?_, ?_⟩
  · intro store notDist
    have cmpf : args.cmpf (H := H) = cmpAscendHash := by
      rw [GradiusArgs.cmpf, if_neg (by simp [notDist]), if_pos store]
    exact pairwise_of_key libWorks Place.h3i (fun x y => by rw [cmpf, cmpAscendHash])
      places.reverse
  · intro notStore notDist
    have cmpf : args.cmpf (H := H) =
        if args.desc then cmpDescendDist else cmpAscendDist := by
      rw [GradiusArgs.cmpf, if_neg (by simp [notDist]), if_neg (by simp [notStore])]
    refine ⟨fun desc => ?_, fun asc => ascends (by rw [cmpf, if_neg (by simp [asc])])⟩
    exact pairwise_of_key libWorks (fun place => OrderDual.toDual place.dist)
      (fun x y => by
        rw [cmpf, if_pos desc, cmpDescendDist]
        rfl) places.reverse

end Order

section Search

variable {F C H Z : Type} [LinearOrder F] {lib : GeoLib F C H Z} {args : GradiusArgs F C}
  {x : ZSetData H}

/-- The name of a place is the member at its index. -/
theorem placeAt_name {coordi : C} {radius : F} {j : Nat} {place : Place F C H}
    (found : placeAt lib x coordi radius j = some place) :
    (x.zindex j).map Prod.fst = some place.name := by
  rw [placeAt] at found
  cases member : x.zindex j with
  | none =>
      rw [member] at found
      cases found
  | some gv =>
      rw [member] at found
      dsimp only at found
      by_cases inside : lib.haversineDist coordi (lib.h3ToGeo gv.2) ≤ radius
      · rw [if_pos inside] at found
        rw [← Option.some.inj found]
        rfl
      · rw [if_neg inside] at found
        cases found

/-- Different indexes have different members. -/
theorem zindex_injective {i j : Nat} {m : Bytes} (first : (x.zindex i).map Prod.fst = some m)
    (second : (x.zindex j).map Prod.fst = some m) : i = j := by
  cases i with
  | zero => cases first
  | succ i =>
      cases j with
      | zero => cases second
      | succ j =>
          rw [ZSetData.zindex, ← List.getElem?_map] at first second
          obtain ⟨inside, isFirst⟩ := List.getElem?_eq_some_iff.mp first
          obtain ⟨inside', isSecond⟩ := List.getElem?_eq_some_iff.mp second
          rw [x.nodup.getElem_inj_iff.mp (isFirst.trans isSecond.symm)]

/-- A search meets each member once. -/
theorem gradiusPlaces_nodup [LinearOrder Z] (libWorks : lib.Works) :
    ((gradiusPlaces lib args x).map Place.name).Nodup := by
  rw [gradiusPlaces]
  cases originOf lib x args.origin with
  | none => exact List.nodup_nil
  | some coordi =>
      have disjoint := libWorks.disjoint x coordi args.radius
      have flat : scanPlaces lib x coordi args.radius =
          ((lib.search x coordi args.radius).flatMap fun run =>
            List.range' run.1 (run.2 - run.1)).filterMap
              (placeAt lib x coordi args.radius) := by
        rw [scanPlaces, List.filterMap_flatMap]
      dsimp only
      rw [flat, List.map_filterMap]
      refine disjoint.filterMap ?_
      intro i j m first second
      obtain ⟨place, found, rfl⟩ := Option.map_eq_some_iff.mp first
      obtain ⟨place', found', same⟩ := Option.map_eq_some_iff.mp second
      exact zindex_injective (placeAt_name found) (same ▸ placeAt_name found')

omit [LinearOrder F] in
/-- The loop sends all places, or as many as the count. -/
theorem sendLoop_eq (count : Nat) (places : List (Place F C H)) (nitems : Nat)
    (room : count = 0 ∨ nitems < count) :
    sendLoop count places nitems = if count = 0 then places else places.take (count - nitems) := by
  induction places generalizing nitems with
  | nil => rw [sendLoop, List.take_nil, ite_self]
  | cons place places ih =>
      rw [sendLoop]
      by_cases full : nitems + 1 = count
      · rw [if_pos full, if_neg (by omega), show count - nitems = 1 by omega, List.take_succ_cons,
          List.take_zero]
      · rw [if_neg full, ih (nitems + 1) (by omega)]
        by_cases zero : count = 0
        · rw [if_pos zero, if_pos zero]
        · rw [if_neg zero, if_neg zero, show count - nitems = (count - (nitems + 1)) + 1 by omega,
            List.take_succ_cons]

end Search

section Reply

variable {F C H Z : Type} {lib : GeoLib F C H Z} {args : GradiusArgs F C}

/-- A string is sent with its length in front. -/
theorem sendConcatString_append {str str' rest rest' : Bytes}
    (same : sendConcatString str ++ rest = sendConcatString str' ++ rest') :
    str = str' ∧ rest = rest' := by
  have line : ∀ (s r : Bytes), sendConcatString s ++ r =
      StringType.char .bulkString :: (uint64ToString s.length ++ crlf ++ (s ++ (crlf ++ r))) := by
    intro s r
    simp [sendConcatString]
  rw [line, line] at same
  obtain ⟨length, same⟩ := numberLine_injective (List.cons.inj same).2
  obtain ⟨isStr, same⟩ := List.append_inj same length
  exact ⟨isStr, List.append_cancel_left same⟩

theorem sendConcatString_isPrefixFree : IsPrefixFree sendConcatString := by
  intro str str' rest rest' same
  obtain ⟨isStr, same⟩ := sendConcatString_append same
  exact ⟨by rw [isStr], same⟩

/-- A number is sent as a line. -/
theorem hashNumber_isPrefixFree (lib : GeoLib F C H Z) : IsPrefixFree fun place : Place F C H =>
    integerChar :: uint64ToString (lib.hashNumber place.h3i) ++ crlf := by
  intro place place' rest rest' same
  obtain ⟨number, same⟩ := numberLine_injective (List.cons.inj same).2
  exact ⟨by dsimp only; rw [number], same⟩

/-- The items behind the name of a place. -/
theorem appendPlace_isPrefixFree (lib : GeoLib F C H Z) (args : GradiusArgs F C) :
    IsPrefixFree (appendPlace lib args) := by
  have bulk : ∀ key : Place F C H → Bytes, IsPrefixFree fun place => sendConcatString (key place) :=
    fun key => sendConcatString_isPrefixFree.comp key
  have none : IsPrefixFree fun _ : Place F C H => ([] : Bytes) := isPrefixFree_const []
  have header := isPrefixFree_const (α := Place F C H)
    (if args.withcoord ∨ args.withdist ∨ args.withhash then
      arrayChar :: UInt8.ofNat (48 + args.withct + 1) :: crlf else [])
  have coord := ((isPrefixFree_const (α := Place F C H) (text "*2" ++ crlf)).append
    (bulk fun place => lib.lonText place.coord)).append (bulk fun place => lib.latText place.coord)
  have dist := bulk fun place => lib.distText (lib.divided place.dist (lib.meters args.units))
  exact (((header.append (bulk Place.name)).append (dist.ite args.withdist none)).append
    ((hashNumber_isPrefixFree lib).ite args.withhash none)).append (coord.ite args.withcoord none)

/-- The item of a place tells its name. -/
theorem appendPlace_name {place place' : Place F C H}
    (same : appendPlace lib args place = appendPlace lib args place') :
    place.name = place'.name := by
  rw [appendPlace, appendPlace] at same
  simp only [List.append_assoc] at same
  exact (sendConcatString_append (List.append_cancel_left same)).1

/-- The same reply has the same items. -/
theorem gradiusReply_append {places places' : List (Place F C H)} {rest rest' : Bytes}
    (same : gradiusReply lib args places ++ rest = gradiusReply lib args places' ++ rest') :
    places.map (appendPlace lib args) = places'.map (appendPlace lib args) ∧ rest = rest' := by
  have line : ∀ (sent : List (Place F C H)) (r : Bytes), gradiusReply lib args sent ++ r =
      arrayChar :: (uint64ToString sent.length ++ crlf ++
        (sent.flatMap (appendPlace lib args) ++ r)) := by
    intro sent r
    simp [gradiusReply]
  rw [line, line] at same
  obtain ⟨length, same⟩ := numberLine_injective (List.cons.inj same).2
  exact (appendPlace_isPrefixFree lib args).flatMap length same

theorem gradiusReply_congr {places places' : List (Place F C H)}
    (same : places.map (appendPlace lib args) = places'.map (appendPlace lib args)) :
    gradiusReply lib args places = gradiusReply lib args places' := by
  have length := congrArg List.length same
  rw [List.length_map, List.length_map] at length
  rw [gradiusReply, gradiusReply, length, List.flatMap_def, List.flatMap_def, same]

end Reply

section Sent

variable {F C H Z : Type} [LinearOrder F] [LinearOrder H] (lib : GeoLib F C H Z)
  (args : GradiusArgs F C) (found : List (Place F C H))

/-- The number of places that a query asks for. -/
def GradiusArgs.limit : Nat := if args.counted then args.count else found.length

/-- A reply has matches, as many as the count allows. Sorted ones are the first in an order of their
distances, from the nearest one on or from the farthest one. -/
def IsSent (sent : List (Place F C H)) : Prop :=
  if args.desc then
    IsFirst (fun place => OrderDual.toDual place.dist) (args.limit found) found sent
  else if args.asc then IsFirst Place.dist (args.limit found) found sent
  else sent.Subperm found ∧ sent.length = min (args.limit found) found.length

/-- A count of zero meets no match. Among the first places of the sort, a name that is cut at a zero
is the name of another match that is as far away and has the same item, and no name comes twice. -/
structure SendFits : Prop where
  counted : args.counted → args.count = 0 → found = []
  named : args.asc ∨ args.desc →
    (((sortedPlaces lib args found).take (args.limit found)).map fun place =>
      place.cut.name).Nodup
  kept : args.asc ∨ args.desc →
    ∀ place ∈ (sortedPlaces lib args found).take (args.limit found), ∃ place' ∈ found,
      place'.dist = place.dist ∧ appendPlace lib args place' = appendPlace lib args place.cut

variable {lib args found}

omit [LinearOrder F] [LinearOrder H] in
/-- A name without a zero is not cut. -/
theorem Place.cut_eq {place : Place F C H} (whole : 0 ∉ place.name) : place.cut = place := by
  have kept : place.name.takeWhile (fun b => b ≠ 0) = place.name := by
    rw [List.takeWhile_eq_self_iff]
    intro b member
    have nonzero : b ≠ 0 := fun zero => whole (zero ▸ member)
    simpa using nonzero
  rw [Place.cut, kept]

/-- Each place of a list has a match. -/
theorem exists_matches {P : Place F C H → Place F C H → Prop} {places : List (Place F C H)}
    (each : ∀ place ∈ places, ∃ place' ∈ found, P place place') :
    ∃ matched : Place F C H → Place F C H,
      ∀ place ∈ places, matched place ∈ found ∧ P place (matched place) := by
  have total : ∀ place, ∃ place', place ∈ places → place' ∈ found ∧ P place place' := by
    intro place
    by_cases member : place ∈ places
    · obtain ⟨place', isMatch, holds⟩ := each place member
      exact ⟨place', fun _ => ⟨isMatch, holds⟩⟩
    · exact ⟨place, fun member' => absurd member' member⟩
  choose matched holds using total
  exact ⟨matched, holds⟩

/-- The cut places read as the first matches if each of them reads as a match of its own. -/
theorem isFirst_cut_iff {K : Type} [LinearOrder K] {key : Place F C H → K}
    {sorted : List (Place F C H)} (sameKey : ∀ x y : Place F C H, key x = key y ↔ x.dist = y.dist)
    (nodup : (found.map Place.name).Nodup) (perm : sorted.Perm found)
    (ordered : sorted.Pairwise fun x y => key x ≤ key y) (n : Nat) :
    (∃ sent, ((sorted.take n).map Place.cut).map (appendPlace lib args) =
        sent.map (appendPlace lib args) ∧ IsFirst key n found sent) ↔
      ((sorted.take n).map fun place => place.cut.name).Nodup ∧
        ∀ place ∈ sorted.take n, ∃ place' ∈ found, place'.dist = place.dist ∧
          appendPlace lib args place' = appendPlace lib args place.cut := by
  constructor
  · rintro ⟨sent, items, isFirst⟩
    obtain ⟨among, keys⟩ := (isFirst_iff perm ordered).mp isFirst
    have length := congrArg List.length keys
    rw [List.length_map, List.length_map] at length
    have pair : ∀ (i : Nat) (inside : i < (sorted.take n).length) (inside' : i < sent.length),
        key sent[i] = key (sorted.take n)[i] ∧
          appendPlace lib args sent[i] = appendPlace lib args ((sorted.take n)[i]).cut := by
      intro i inside inside'
      have keysAt := congrArg (fun l => l[i]?) keys
      have itemsAt := congrArg (fun l => l[i]?) items
      simp only [List.getElem?_map, List.getElem?_eq_getElem inside,
        List.getElem?_eq_getElem inside', Option.map_some, Option.some.injEq] at keysAt itemsAt
      exact ⟨keysAt, itemsAt.symm⟩
    constructor
    · have names : ((sorted.take n).map fun place => place.cut.name) = sent.map Place.name := by
        apply List.ext_getElem (by rw [List.length_map, List.length_map, length])
        intro i inside inside'
        rw [List.length_map] at inside inside'
        rw [List.getElem_map, List.getElem_map]
        exact (appendPlace_name (pair i inside inside').2).symm
      rw [names]
      obtain ⟨order, same, sublist⟩ := List.subperm_iff.mp among
      exact ((same.map Place.name).nodup_iff.mpr nodup).sublist (sublist.map Place.name)
    · intro place member
      obtain ⟨i, inside, rfl⟩ := List.getElem_of_mem member
      have inside' : i < sent.length := length ▸ inside
      obtain ⟨sameDist, sameItem⟩ := pair i inside inside'
      exact ⟨sent[i], among.subset (List.getElem_mem inside'), (sameKey _ _).mp sameDist, sameItem⟩
  · rintro ⟨named, kept⟩
    obtain ⟨matched, holds⟩ := exists_matches kept
    refine ⟨(sorted.take n).map matched, ?_, (isFirst_iff perm ordered).mpr ⟨?_, ?_⟩⟩
    · rw [List.map_map, List.map_map]
      exact List.map_congr_left fun place member => (holds place member).2.2.symm
    · have names : ((sorted.take n).map matched).map Place.name =
          (sorted.take n).map fun place => place.cut.name := by
        rw [List.map_map]
        exact List.map_congr_left fun place member => appendPlace_name (holds place member).2.2
      refine (List.Nodup.of_map Place.name (names ▸ named)).subperm ?_
      intro place member
      obtain ⟨place', member', rfl⟩ := List.mem_map.mp member
      exact (holds place' member').1
    · rw [List.map_map]
      exact List.map_congr_left fun place member => (sameKey _ _).mpr (holds place member).2.1

omit [LinearOrder F] [LinearOrder H] in
/-- As many places are sent as the count allows, unless it is zero. -/
theorem sendLoop_limit (uncounted : args.counted = false → args.count = 0)
    (positive : args.counted → args.count ≠ 0) {places : List (Place F C H)}
    (length : places.length = found.length) :
    sendLoop args.count places 0 = places.take (args.limit found) := by
  rw [sendLoop_eq args.count places 0 (by omega), GradiusArgs.limit]
  by_cases counted : args.counted
  · rw [if_neg (positive counted), if_pos counted, Nat.sub_zero]
  · rw [if_pos (uncounted (by simpa using counted)), if_neg counted, ← length, List.take_length]

omit [LinearOrder H] in
/-- A reply has no more places than the query asks for. -/
theorem IsSent.length_le {sent : List (Place F C H)} (isSent : IsSent args found sent) :
    sent.length ≤ args.limit found := by
  have first : ∀ {K : Type} [LinearOrder K] {key : Place F C H → K},
      IsFirst key (args.limit found) found sent → sent.length ≤ args.limit found := by
    rintro K _ key ⟨order, -, -, rfl⟩
    exact List.length_take_le _ _
  rw [IsSent] at isSent
  by_cases desc : args.desc
  · rw [if_pos desc] at isSent
    exact first isSent
  · rw [if_neg desc] at isSent
    by_cases asc : args.asc
    · rw [if_pos asc] at isSent
      exact first isSent
    · rw [if_neg asc] at isSent
      omega

/-- The sort of a query without a store is the one of its distances. -/
theorem sent_iff_of_positive [LinearOrder Z] {lib : GeoLib F C H Z} (libWorks : lib.Works)
    (uncounted : args.counted = false → args.count = 0)
    (positive : args.counted → args.count ≠ 0) (isQuery : ¬(args.store ∨ args.storedist))
    (nodup : (found.map Place.name).Nodup) :
    (∃ sent, (sentPlaces lib args found).map (appendPlace lib args) =
        sent.map (appendPlace lib args) ∧ IsSent args found sent) ↔ SendFits lib args found := by
  have notStore : args.store = false := by simpa using fun store => isQuery (Or.inl store)
  have notDist : args.storedist = false := by simpa using fun store => isQuery (Or.inr store)
  have perm := sortedPlaces_perm libWorks args found
  obtain ⟨descends, ascends⟩ := (@sortedPlaces_dist _ _ _ _ _ _ _ _ libWorks args found).2.2 notStore
    notDist
  have noZero : args.counted → args.count = 0 → found = [] :=
    fun counted zero => absurd zero (positive counted)
  rw [sentPlaces, sendLoop_limit uncounted positive perm.length_eq,
    sendLoop_limit uncounted positive rfl]
  by_cases desc : args.desc
  · rw [if_pos (Or.inr desc)]
    simp only [IsSent, if_pos desc]
    rw [isFirst_cut_iff (fun _ _ => OrderDual.toDual_inj) nodup perm (descends desc)]
    exact ⟨fun ⟨named, kept⟩ => ⟨noZero, fun _ => named, fun _ => kept⟩,
      fun fits => ⟨fits.named (Or.inr desc), fits.kept (Or.inr desc)⟩⟩
  · by_cases asc : args.asc
    · rw [if_pos (Or.inl asc)]
      simp only [IsSent, if_neg desc, if_pos asc]
      rw [isFirst_cut_iff (fun _ _ => Iff.rfl) nodup perm (ascends (by simpa using desc))]
      exact ⟨fun ⟨named, kept⟩ => ⟨noZero, fun _ => named, fun _ => kept⟩,
        fun fits => ⟨fits.named (Or.inl asc), fits.kept (Or.inl asc)⟩⟩
    · have plain : ¬(args.asc ∨ args.desc) := by simp [asc, desc]
      rw [if_neg plain]
      refine iff_of_true ⟨found.take (args.limit found), rfl, ?_⟩
        ⟨noZero, fun sorts => absurd sorts plain, fun sorts => absurd sorts plain⟩
      rw [IsSent, if_neg desc, if_neg asc]
      exact ⟨(List.take_sublist _ _).subperm, List.length_take⟩

/-- A count of zero sends all matches. -/
theorem sent_iff_of_zero [LinearOrder Z] {lib : GeoLib F C H Z} (libWorks : lib.Works)
    (counted : args.counted) (zero : args.count = 0) :
    (∃ sent, (sentPlaces lib args found).map (appendPlace lib args) =
        sent.map (appendPlace lib args) ∧ IsSent args found sent) ↔ SendFits lib args found := by
  have length : (sentPlaces lib args found).length = found.length := by
    rw [sentPlaces, sendLoop_eq _ _ _ (Or.inl zero), sendLoop_eq _ _ _ (Or.inl zero), if_pos zero,
      if_pos zero]
    by_cases sorts : args.asc ∨ args.desc
    · rw [if_pos sorts, List.length_map, (sortedPlaces_perm libWorks args found).length_eq]
    · rw [if_neg sorts]
  have limit : args.limit found = 0 := by rw [GradiusArgs.limit, if_pos counted, zero]
  by_cases none : found = []
  · have noPlace : sentPlaces lib args found = [] :=
      List.eq_nil_of_length_eq_zero (by rw [length, none, List.length_nil])
    refine iff_of_true ⟨[], by rw [noPlace], ?_⟩ ⟨fun _ _ => none, fun _ => ?_, fun _ => ?_⟩
    · have isFirst : ∀ {K : Type} [LinearOrder K] {key : Place F C H → K},
          IsFirst key (args.limit found) found [] :=
        ⟨[], by rw [none], List.Pairwise.nil, by rw [List.take_nil]⟩
      rw [IsSent]
      by_cases desc : args.desc
      · rw [if_pos desc]
        exact isFirst
      · rw [if_neg desc]
        by_cases asc : args.asc
        · rw [if_pos asc]
          exact isFirst
        · rw [if_neg asc, limit, Nat.zero_min]
          exact ⟨List.nil_subperm, rfl⟩
    · rw [limit, List.take_zero]
      exact List.nodup_nil
    · rw [limit, List.take_zero]
      exact fun place member => absurd member List.not_mem_nil
  · refine iff_of_false ?_ fun fits => none (fits.counted counted zero)
    rintro ⟨sent, items, isSent⟩
    have same := congrArg List.length items
    rw [List.length_map, List.length_map, length] at same
    have few := isSent.length_le
    exact none (List.eq_nil_of_length_eq_zero (by omega))

end Sent

section Stored

variable {F C H K : Type} [LinearOrder K] (score : Place F C H → K) (found : List (Place F C H))

/-- The score of a member among the matches. -/
def placeScores (m : Bytes) : Option K := (found.find? fun place => place.name = m).map score

/-- Each member that was there is a match. A match with a zero in its name was there with its score,
and its cut name is the name of another match without a lower score. -/
structure ReplaceFits (old : Bytes → Option K) : Prop where
  replaced : ∀ m, old m ≠ none → ∃ place ∈ found, place.name = m
  whole : ∀ place ∈ found, 0 ∈ place.name → old place.name = some (score place) ∧
    ∃ place' ∈ found, place'.name = place.cut.name ∧ score place ≤ score place'

variable {score found}

omit [LinearOrder K] in
/-- A match has its score. -/
theorem placeScores_of_mem (nodup : (found.map Place.name).Nodup) {place : Place F C H}
    (member : place ∈ found) : placeScores score found place.name = some (score place) := by
  have first : found.find? (fun place' => place'.name = place.name) = some place := by
    have isSome : (found.find? fun place' => place'.name = place.name).isSome :=
      List.find?_isSome.mpr ⟨place, member, decide_eq_true rfl⟩
    obtain ⟨place', isFirst⟩ := Option.isSome_iff_exists.mp isSome
    have name : place'.name = place.name := by simpa using List.find?_some isFirst
    rw [isFirst, List.inj_on_of_nodup_map nodup (List.mem_of_find?_eq_some isFirst) member name]
  rw [placeScores, first]
  rfl

omit [LinearOrder K] in
/-- A score is the one of a match. -/
theorem exists_of_placeScores {m : Bytes} {s : K} (isScore : placeScores score found m = some s) :
    ∃ place ∈ found, place.name = m ∧ score place = s := by
  obtain ⟨place, isFirst, isScore⟩ := Option.map_eq_some_iff.mp isScore
  exact ⟨place, List.mem_of_find?_eq_some isFirst, by simpa using List.find?_some isFirst, isScore⟩

/-- A cut name has no zero. -/
theorem zero_not_mem_cut (place : Place F C H) : 0 ∉ place.cut.name := by
  intro member
  simpa using List.mem_takeWhile_imp member

/-- The last place with a cut name has the highest score. -/
theorem stored_iff {sorted : List (Place F C H)} (nodup : (found.map Place.name).Nodup)
    (perm : sorted.Perm found) (ordered : sorted.Pairwise fun x y => score x ≤ score y)
    (old : Bytes → Option K) :
    (∀ m, ((last (fun place => place.cut.name) sorted m).map fun place =>
        some (score place)).getD (old m) = placeScores score found m) ↔
      ReplaceFits score found old := by
  constructor
  · intro same
    constructor
    · intro m wasThere
      have exact := same m
      cases isLast : last (fun place => place.cut.name) sorted m with
      | none =>
          rw [isLast] at exact
          obtain ⟨s, isOld⟩ := Option.ne_none_iff_exists'.mp wasThere
          obtain ⟨place, member, name, -⟩ := exists_of_placeScores (exact.symm.trans isOld)
          exact ⟨place, member, name⟩
      | some w =>
          rw [isLast] at exact
          obtain ⟨place, member, name, -⟩ := exists_of_placeScores exact.symm
          exact ⟨place, member, name⟩
    · intro place member isZero
      constructor
      · have noLast : last (fun place => place.cut.name) sorted place.name = none := by
          refine last_eq_none.mpr fun w _ name => zero_not_mem_cut w ?_
          rw [name]
          exact isZero
        have exact := same place.name
        rw [noLast, placeScores_of_mem nodup member] at exact
        exact exact
      · obtain ⟨w, isLast⟩ := @exists_last _ _ _ (fun place : Place F C H => place.cut.name) _ _
          (perm.mem_iff.mpr member)
        have exact := same place.cut.name
        rw [isLast] at exact
        obtain ⟨place', member', name, isScore⟩ := exists_of_placeScores exact.symm
        refine ⟨place', member', name, isScore ▸ ?_⟩
        exact rel_last (R := fun x y => score x ≤ score y) (fun _ => le_refl _) ordered isLast
          (perm.mem_iff.mpr member) rfl
  · intro fits m
    cases isLast : last (fun place => place.cut.name) sorted m with
    | none =>
        have missing := last_eq_none.mp isLast
        have isZero : ∀ place ∈ found, place.name = m → 0 ∈ place.name := by
          intro place member name
          by_contra whole
          exact missing place (perm.mem_iff.mpr member) (by rw [Place.cut_eq whole, name])
        show old m = _
        cases isOld : old m with
        | none =>
            cases isScore : placeScores score found m with
            | none => rfl
            | some s =>
                obtain ⟨place, member, rfl, -⟩ := exists_of_placeScores isScore
                have was := (fits.whole place member (isZero place member rfl)).1
                rw [isOld] at was
                cases was
        | some s =>
            obtain ⟨place, member, rfl⟩ := fits.replaced m (by rw [isOld]; exact Option.some_ne_none s)
            rw [placeScores_of_mem nodup member, ← isOld]
            exact (fits.whole place member (isZero place member rfl)).1
    | some w =>
        obtain ⟨member, rfl⟩ := mem_of_last isLast
        have isMatch := perm.mem_iff.mp member
        show some (score w) = _
        by_cases isZero : 0 ∈ w.name
        · obtain ⟨place, member', name, high⟩ := (fits.whole w isMatch isZero).2
          have whole : place.cut = place := Place.cut_eq (name ▸ zero_not_mem_cut w)
          have low := rel_last (R := fun x y => score x ≤ score y) (fun _ => le_refl _) ordered
            isLast (perm.mem_iff.mpr member') (by rw [whole, name])
          rw [← name, placeScores_of_mem nodup member', le_antisymm high low]
        · rw [Place.cut_eq isZero, placeScores_of_mem nodup isMatch]

omit [LinearOrder K] in
/-- The places that are added one by one are written over the scores that were there. -/
theorem foldl_scores {X : Type} {view : X → Bytes → Option K} {add : X → Place F C H → X}
    (adds : ∀ x place m, view (add x place) m =
      if m = place.cut.name then some (score place) else view x m)
    (places : List (Place F C H)) (x : X) : view (places.foldl add x) =
      writeAll (fun place => place.cut.name) (fun place => some (score place)) (view x) places := by
  induction places generalizing x with
  | nil => rfl
  | cons place places ih =>
      have updated : view (add x place) =
          Function.update (view x) place.cut.name (some (score place)) := by
        funext m
        rw [adds, Function.update_apply]
      rw [List.foldl_cons, ih, updated]
      rfl

end Stored

end Raids.Key
