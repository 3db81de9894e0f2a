import Mathlib.Algebra.Ring.Defs
import Mathlib.Data.List.ReduceOption
import Mathlib.Order.Defs.LinearOrder
import Raids.Construction.Key.SortedSetOp
import Raids.Proof.Cmd.ConsistentKeys
import Raids.Proof.Key.SetOp
import Raids.Proof.Key.SortedSet

namespace Raids.Key

section Extremes

variable {α : Type} [LinearOrder α]

theorem min_right_eq_iff {first second other : α} :
    min first other = min second other ↔ first = second ∨ other ≤ first ∧ other ≤ second := by
  apply Iff.intro
  · intro same
    by_cases low : other ≤ first
    · rw [min_eq_right low, eq_comm, min_eq_right_iff] at same
      exact Or.inr ⟨low, same⟩
    · rw [min_eq_left (le_of_not_ge low)] at same
      by_cases low' : other ≤ second
      · rw [min_eq_right low'] at same
        exact absurd (le_of_eq same.symm) low
      · rw [min_eq_left (le_of_not_ge low')] at same
        exact Or.inl same
  · rintro (rfl | ⟨low, low'⟩)
    · rfl
    · rw [min_eq_right low, min_eq_right low']

/-- The start of a minimum counts unless another number is below both starts. -/
theorem foldl_min_eq_iff {first second : α} (others : List α) :
    others.foldl min first = others.foldl min second ↔
      first = second ∨ ∃ other ∈ others, other ≤ first ∧ other ≤ second := by
  induction others generalizing first second with
  | nil => simp
  | cons other others ih =>
      rw [List.foldl_cons, List.foldl_cons, ih, min_right_eq_iff]
      simp only [le_min_iff, List.mem_cons, exists_eq_or_imp]
      apply Iff.intro
      · rintro ((same | low) | ⟨lower, member, ⟨low, -⟩, low', -⟩)
        · exact Or.inl same
        · exact Or.inr (Or.inl low)
        · exact Or.inr (Or.inr ⟨lower, member, low, low'⟩)
      · rintro (same | low | ⟨lower, member, low, low'⟩)
        · exact Or.inl (Or.inl same)
        · exact Or.inl (Or.inr low)
        · rcases le_total lower other with below | above
          · exact Or.inr ⟨lower, member, ⟨low, below⟩, low', below⟩
          · exact Or.inl (Or.inr ⟨above.trans low, above.trans low'⟩)

/-- The start of a maximum counts unless another number is above both starts. -/
theorem foldl_max_eq_iff {first second : α} (others : List α) :
    others.foldl max first = others.foldl max second ↔
      first = second ∨ ∃ other ∈ others, first ≤ other ∧ second ≤ other :=
  @foldl_min_eq_iff αᵒᵈ _ first second others

end Extremes

section Algebra

variable {Z : Type} [CommRing Z] [LinearOrder Z]

/-- One score of two. -/
def aggregateTwo (aggregate : ZAggregateType) (first second : Z) : Z :=
  match aggregate with
  | .sum => first + second
  | .min => min first second
  | .max => max first second
  | .none => first

/-- One score of all, if there is one. -/
def aggregateAll (aggregate : ZAggregateType) : List Z → Option Z
  | [] => none
  | score :: scores => some (scores.foldl (aggregateTwo aggregate) score)

/-- What one merge does with the scores of a member. -/
def ZSetOp.join (op : ZSetOp) (aggregate : ZAggregateType) (first second : Option Z) : Option Z :=
  match op, first, second with
  | _, some first, some second => some (aggregateTwo aggregate first second)
  | .zunion, first, none => first
  | .zunion, none, second => second
  | .zinter, _, _ => none

/-- The score of a member with its scores in all sets: the union has the members of any of them,
the intersection the members of all. -/
def ZSetOp.score (op : ZSetOp) (aggregate : ZAggregateType) (scores : List (Option Z)) : Option Z :=
  match op with
  | .zunion => aggregateAll aggregate scores.reduceOption
  | .zinter => if none ∈ scores then none else aggregateAll aggregate scores.reduceOption

/-- One merge behind the other leaves the score of all sets. -/
theorem ZSetOp.foldl_join (op : ZSetOp) (aggregate : ZAggregateType) (first : Option Z)
    (others : List (Option Z)) :
    others.foldl (op.join aggregate) first = op.score aggregate (first :: others) := by
  induction others generalizing first with
  | nil =>
      cases op <;> cases first <;> simp [ZSetOp.score, List.reduceOption, aggregateAll]
  | cons other others ih =>
      rw [List.foldl_cons, ih]
      cases op with
      | zunion =>
          cases first <;> cases other <;>
            simp [ZSetOp.score, ZSetOp.join, List.reduceOption, aggregateAll]
      | zinter =>
          cases first <;> cases other <;>
            simp [ZSetOp.score, ZSetOp.join, List.reduceOption, aggregateAll]

/-- A score makes no difference to the aggregate with others: to a sum if it is the same one, to a
minimum or a maximum also if one of the others counts in both cases. -/
def SameAggregate (aggregate : ZAggregateType) (first second : Z) (others : List Z) : Prop :=
  match aggregate with
  | .min => first = second ∨ ∃ other ∈ others, other ≤ first ∧ other ≤ second
  | .max => first = second ∨ ∃ other ∈ others, first ≤ other ∧ second ≤ other
  | _ => first = second

theorem aggregateAll_eq_iff {aggregate : ZAggregateType} {first second : Z} (others : List Z) :
    aggregateAll aggregate (first :: others) = aggregateAll aggregate (second :: others) ↔
      SameAggregate aggregate first second others := by
  rw [aggregateAll, aggregateAll, Option.some.injEq]
  cases aggregate with
  | sum =>
      have sums : ∀ first second : Z, others.foldl (· + ·) first = others.foldl (· + ·) second ↔
          first = second := by
        induction others with
        | nil => exact fun _ _ => Iff.rfl
        | cons other others ih =>
            intro first second
            rw [List.foldl_cons, List.foldl_cons, ih, add_left_inj]
      exact sums first second
  | min => exact foldl_min_eq_iff others
  | max => exact foldl_max_eq_iff others
  | none =>
      have starts : ∀ start : Z, others.foldl (aggregateTwo .none) start = start := by
        intro start
        induction others with
        | nil => rfl
        | cons other others ih => exact ih
      rw [starts, starts]
      rfl

end Algebra

section Merge

variable {Z S M : Type} [CommRing Z] [LinearOrder Z] {lib : ZSetLib Z S M}

/-- A merge has an operation, two sets, the weight of the other set if there are weights, and an
aggregate. -/
structure ZMerge (Z S : Type) where
  op : ZSetOp
  first : S
  second : S
  weight : Z
  aggregateType : ZAggregateType
  hasWeights : Bool

/-- The scores of a set count with its weight. -/
def weighted (hasWeights : Bool) (weight : Z) (score : Option Z) : Option Z :=
  if hasWeights then score.map (weight * ·) else score

/-- The sorted sets of the table work: a set without members has none, a set is written as it is
read and counts its members, and a scaled set has its scores scaled. A merge that ends has joined
the scores of each member, and one that is full goes on in a copy with room for the other set, with
less left to do. -/
structure ZSetLib.Works (lib : ZSetLib Z S M) (view : S → ZSetData Z)
    (merging : ZMerge Z S → S → M → Prop) (left : ZMerge Z S → S → M → Nat) : Prop where
  mtList : (view (lib.load lib.mtList)).members = []
  listp : ∀ set, view (lib.load (lib.listp set)) = view set
  hcount : ∀ set, lib.hcount set = (view set).hcount
  zero : lib.itod 0 = 0
  zscale : ∀ set weight m, (view (lib.zscale set weight)).score m =
    ((view set).score m).map (weight * ·)
  start : ∀ merge, merging merge merge.first
    (lib.init merge.weight merge.aggregateType merge.hasWeights)
  ends : ∀ {merge set pos set' pos'}, merge.aggregateType ≠ .none → merging merge set pos →
    lib.merge merge.op.op set merge.second pos = (true, set', pos') →
    ∀ m, (view set').score m = merge.op.join merge.aggregateType ((view merge.first).score m)
      (weighted merge.hasWeights merge.weight ((view merge.second).score m))
  full : ∀ {merge set pos set' pos'}, merging merge set pos →
    lib.merge merge.op.op set merge.second pos = (false, set', pos') →
    ∀ count ≥ lib.count merge.second + 2, ∀ ndata ≥ lib.dataLen merge.second,
      merging merge (lib.copy set' count ndata) pos' ∧
        left merge (lib.copy set' count ndata) pos' < left merge set pos

variable {view : S → ZSetData Z} {merging : ZMerge Z S → S → M → Prop}
  {left : ZMerge Z S → S → M → Nat} {op : ZSetOp} {aggregate : ZAggregateType}

/-- All sources are merged when there is fuel for each merge. -/
theorem zmergeOthers_spec (works : lib.Works view merging left) (scored : aggregate ≠ .none)
    (hasWeights : Bool) (sources : List (ZSetPart × Z))
    (typed : ∀ source ∈ sources, source.1.type = .sortedSet ∨ source.1.type = .noData)
    (retry : Nat) (set : S) :
    ∃ set' bound, (∀ fuel ≥ bound, zmergeOthers lib.toSetLib op.op fuel .sortedSet
        (sources.map fun source => (source.1, lib.init source.2 aggregate hasWeights)) retry set =
          .ok set') ∧
      ∀ m, (view set').score m =
        (sources.map fun source => weighted hasWeights source.2
          ((view (lib.load source.1.data)).score m)).foldl (op.join aggregate)
            ((view set).score m) := by
  induction sources generalizing retry set with
  | nil => exact ⟨set, 0, fun _ _ => rfl, fun _ => rfl⟩
  | cons source sources ih =>
      let merge : ZMerge Z S := ⟨op, set, lib.load source.1.data, source.2, aggregate, hasWeights⟩
      obtain ⟨next, retry', ran, merged⟩ := @setMergeLoop_ends _ _ lib.toSetLib op.op
        (lib.load source.1.data) (merging merge) (left merge)
        (fun set' => ∀ m, (view set').score m = op.join aggregate ((view set).score m)
          (weighted hasWeights source.2 ((view (lib.load source.1.data)).score m)))
        (fun state ended => @works.ends merge _ _ _ _ scored state ended)
        (fun state ended => @works.full merge _ _ _ _ state ended)
        (left merge set (lib.init source.2 aggregate hasWeights) + 1) retry set
        (lib.init source.2 aggregate hasWeights) (works.start merge) (Nat.lt_succ_self _)
      obtain ⟨set', bound, all, result⟩ := ih
        (fun source member => typed source (List.mem_cons_of_mem _ member)) retry' next
      refine ⟨set', max bound (left merge set (lib.init source.2 aggregate hasWeights) + 1), ?_, ?_⟩
      · intro fuel enough
        rw [List.map_cons, zmergeOthers, if_neg, ran fuel (by omega)]
        · exact all fuel (by omega)
        · rcases typed source List.mem_cons_self with isZset | missing
          · exact fun both => both.1 isZset
          · exact fun both => both.2 missing
      · intro m
        rw [result, merged, List.map_cons, List.foldl_cons]

/-- A source of another type is refused when there is fuel for the merges in front of it. -/
theorem zmergeOthers_refuses {T N : Type} {sets : SetLib T N} {op : SetOp} {type : MdType}
    {parts : List (ZSetPart × N)}
    (ended : ∀ part ∈ parts, ∀ retry set, ∃ set' retry' bound, ∀ fuel ≥ bound,
      setMergeLoop sets op (sets.load part.1.data) fuel retry set part.2 = some (set', retry'))
    (other : ∃ part ∈ parts, part.1.type ≠ type ∧ part.1.type ≠ .noData) (retry : Nat) (set : T) :
    ∃ bound, ∀ fuel ≥ bound,
      zmergeOthers sets op fuel type parts retry set = .error .errBadType := by
  induction parts generalizing retry set with
  | nil =>
      obtain ⟨_, member, -⟩ := other
      cases member
  | cons part parts ih =>
      by_cases refused : part.1.type ≠ type ∧ part.1.type ≠ .noData
      · refine ⟨0, fun fuel _ => ?_⟩
        rw [zmergeOthers, if_pos refused]
      · obtain ⟨set', retry', bound, ran⟩ := ended part List.mem_cons_self retry set
        obtain ⟨bound', all⟩ := ih (fun part member => ended part (List.mem_cons_of_mem _ member))
          (by
            obtain ⟨part', member, isOther⟩ := other
            rcases List.mem_cons.mp member with rfl | later
            · exact absurd isOther refused
            · exact ⟨part', later, isOther⟩) retry' set'
        refine ⟨max bound bound', fun fuel enough => ?_⟩
        rw [zmergeOthers, if_neg refused, ran fuel (by omega)]
        exact all fuel (by omega)

end Merge

section Options

variable {Z S M : Type} {lib : ZSetLib Z S M} {msg : CommandMsg} {nkeys : Nat}

theorem length_zsetopWeights {n i : Nat} {weights : List Z}
    (parsed : zsetopWeights lib msg n i = some weights) : weights.length = n := by
  induction n generalizing i weights with
  | zero =>
      rw [← Option.some.inj parsed]
      rfl
  | succ n ih =>
      rw [zsetopWeights] at parsed
      split at parsed
      · rename_i rest
        rw [← Option.some.inj parsed, List.length_cons, ih rest]
      · cases parsed

/-- The weights of the options are one for each source. -/
theorem length_weights {left i : Nat} {start options : ZSetOptions Z}
    (parsed : zsetopOptions lib msg nkeys left i start = some options)
    (fits : ∀ weights, start.weights = some weights → weights.length = nkeys) :
    ∀ weights, options.weights = some weights → weights.length = nkeys := by
  induction left generalizing i start with
  | zero =>
      rw [← Option.some.inj parsed]
      exact fits
  | succ left ih =>
      rw [zsetopOptions] at parsed
      split at parsed
      · split at parsed
        · split at parsed
          · cases parsed
          · exact ih parsed fits
        · split at parsed
          · cases parsed
          · rename_i isWeights
            apply ih parsed
            intro weights same
            rw [← Option.some.inj same]
            exact length_zsetopWeights isWeights
        · cases parsed
      · rw [← Option.some.inj parsed]
        exact fits

/-- The weights of the sources behind the first one; without weights they are not used. -/
def otherWeights (lib : ZSetLib Z S M) (options : ZSetOptions Z) (n : Nat) : List Z :=
  match options.weights with
  | some weights => weights.tail
  | none => List.replicate n (lib.itod 1)

/-- The merges start with the weights of their sources. -/
theorem zsetopStarts_eq {options : ZSetOptions Z} {others : List ZSetPart}
    (lengths : ∀ weights, options.weights = some weights → weights.length = others.length + 1) :
    others.mapIdx (fun i part => (part, zsetopStart lib options (i + 1))) =
      (others.zip (otherWeights lib options others.length)).map fun source =>
        (source.1, lib.init source.2 options.aggregateType options.weights.isSome) := by
  obtain ⟨aggregate, weights⟩ := options
  cases weights with
  | none =>
      apply List.ext_getElem
      · simp [otherWeights]
      · intro i here there
        simp [otherWeights, zsetopStart]
  | some weights =>
      have length := lengths weights rfl
      apply List.ext_getElem
      · rw [List.length_mapIdx, List.length_map, List.length_zip, otherWeights, List.length_tail]
        omega
      · intro i here there
        rw [List.length_mapIdx] at here
        rw [List.getElem_mapIdx, List.getElem_map, List.getElem_zip, zsetopStart]
        simp only [otherWeights, List.getElem_tail, Option.isSome_some]
        rw [List.getElem?_eq_getElem (by omega), Option.getD_some]

variable [CommRing Z]

/-- The scores of a member in all sources count with their weights. -/
def weightedScores (options : ZSetOptions Z) (scores : List (Option Z)) : List (Option Z) :=
  match options.weights with
  | none => scores
  | some weights => List.zipWith (fun weight score => score.map (weight * ·)) weights scores

/-- The scores of the other sources. -/
def otherScores (options : ZSetOptions Z) (scores : List (Option Z)) : List (Option Z) :=
  weightedScores { options with weights := options.weights.map List.tail } scores

/-- The scores of the merged sources are the scores of the other sources. -/
theorem map_weighted {options : ZSetOptions Z} {others : List ZSetPart}
    (lengths : ∀ weights, options.weights = some weights → weights.length = others.length + 1)
    (score : ZSetPart → Option Z) :
    (others.zip (otherWeights lib options others.length)).map (fun source =>
        weighted options.weights.isSome source.2 (score source.1)) =
      otherScores options (others.map score) := by
  obtain ⟨aggregate, weights⟩ := options
  cases weights with
  | none =>
      apply List.ext_getElem
      · simp [otherWeights, otherScores, weightedScores]
      · intro i here there
        simp [otherWeights, otherScores, weightedScores, weighted]
  | some weights =>
      have length := lengths weights rfl
      apply List.ext_getElem
      · simp only [otherWeights, otherScores, weightedScores, Option.map_some, List.length_map,
          List.length_zip, List.length_zipWith, List.length_tail]
        omega
      · intro i here there
        simp [otherWeights, otherScores, weightedScores, weighted]

variable [LinearOrder Z]

/-- The first scores are scaled unless their weight is zero. -/
def firstScore (options : ZSetOptions Z) (score : Option Z) : Option Z :=
  match options.weights with
  | some (weight :: _) => if weight ≠ 0 then score.map (weight * ·) else score
  | _ => score

/-- A first weight of zero makes no difference for a member: it is not in the first source or not in
the result, its score is zero, or its other scores count more. -/
def FirstWeightFits (op : ZSetOp) (options : ZSetOptions Z) (first : Option Z)
    (others : List (Option Z)) : Prop :=
  ∀ weights score, options.weights = some (0 :: weights) → first = some score →
    (op = .zinter → none ∉ others) →
    SameAggregate options.aggregateType score 0 others.reduceOption

/-- The first weight counts under the condition only. -/
theorem score_first_iff {op : ZSetOp} {options : ZSetOptions Z} (first : Option Z)
    (others : List (Option Z)) (some' : options.weights ≠ some []) :
    op.score options.aggregateType (firstScore options first :: otherScores options others) =
        op.score options.aggregateType (weightedScores options (first :: others)) ↔
      FirstWeightFits op options first (otherScores options others) := by
  obtain ⟨aggregate, weights⟩ := options
  rw [FirstWeightFits]
  rcases weights with _ | _ | ⟨weight, weights⟩
  · apply iff_of_true rfl
    rintro weights score ⟨⟩
  · exact absurd rfl some'
  · have whole : weightedScores ⟨aggregate, some (weight :: weights)⟩ (first :: others) =
        first.map (weight * ·) :: otherScores ⟨aggregate, some (weight :: weights)⟩ others := rfl
    rw [whole, firstScore]
    generalize otherScores ⟨aggregate, some (weight :: weights)⟩ others = rest
    dsimp only
    by_cases zero : weight = 0
    · subst zero
      rw [if_neg (fun other => other rfl)]
      cases first with
      | none =>
          apply iff_of_true rfl
          rintro _ _ _ ⟨⟩
      | some score =>
          have same := @aggregateAll_eq_iff _ _ _ aggregate score 0 rest.reduceOption
          cases op with
          | zunion =>
              simp only [ZSetOp.score, Option.map_some, zero_mul, List.reduceOption_cons_of_some]
              rw [same]
              apply Iff.intro
              · rintro fits _ _ _ ⟨⟩ _
                exact fits
              · exact fun fits => fits _ _ rfl rfl (by rintro ⟨⟩)
          | zinter =>
              simp only [ZSetOp.score, Option.map_some, zero_mul, List.reduceOption_cons_of_some,
                List.mem_cons, reduceCtorEq, false_or]
              by_cases missing : none ∈ rest
              · rw [if_pos missing, if_pos missing]
                apply iff_of_true rfl
                intro _ _ _ _ all
                exact absurd missing (all trivial)
              · rw [if_neg missing, if_neg missing, same]
                apply Iff.intro
                · rintro fits _ _ _ ⟨⟩ _
                  exact fits
                · exact fun fits => fits _ _ rfl rfl fun _ => missing
    · rw [if_pos zero]
      apply iff_of_true rfl
      rintro _ _ ⟨⟩
      exact absurd rfl zero

end Options

section Keys

variable {Z S M T N : Type} [LinearOrder Z] {lib : ZSetLib Z S M} {geo : SetLib T N} {env : KeyEnv}
  {op : ZSetOp} {msg : CommandMsg}

/-- A key is missing or holds members with scores or places. -/
def IsRankedKey (env : KeyEnv) (entry : Option (Entry Bytes)) : Prop :=
  ∀ e, live env entry = some e → e.type = .noData ∨ e.type = .sortedSet ∨ e.type = .geo

/-- What is saved for a source. -/
def keyPart (mtList : Bytes) (env : KeyEnv) (entry : Option (Entry Bytes)) : ZSetPart :=
  match (live env entry).filter fun e => e.type = .sortedSet ∨ e.type = .geo with
  | none => ⟨.noData, mtList⟩
  | some e => ⟨e.type, if e.data.length = 0 then mtList else e.data⟩

theorem keyPart_of_live {mtList : Bytes} {first second : Option (Entry Bytes)}
    (same : live env first = live env second) :
    keyPart mtList env first = keyPart mtList env second := by
  rw [keyPart, keyPart, same]

theorem IsRankedKey.of_live {first second : Option (Entry Bytes)}
    (same : live env first = live env second) (ranked : IsRankedKey env second) :
    IsRankedKey env first := by
  rw [IsRankedKey, same]
  exact ranked

/-- A part has one of three types. -/
theorem keyPart_type (mtList : Bytes) (env : KeyEnv) (entry : Option (Entry Bytes)) :
    (keyPart mtList env entry).type = .noData ∨ (keyPart mtList env entry).type = .sortedSet ∨
      (keyPart mtList env entry).type = .geo := by
  rw [keyPart]
  cases found : (live env entry).filter fun e => e.type = .sortedSet ∨ e.type = .geo with
  | none => exact Or.inl rfl
  | some e =>
      rw [Option.filter_eq_some_iff] at found
      exact Or.inr (by simpa using found.2)

/-- A part is read as it was saved. -/
theorem load_save {part : ZSetPart}
    (typed : part.type = .noData ∨ part.type = .sortedSet ∨ part.type = .geo) :
    ZSetPart.load (some part.save) = part := by
  obtain ⟨type, data⟩ := part
  rcases typed with isType | isType | isType <;> obtain rfl : type = _ := isType <;> rfl

/-- A source saves its part. -/
theorem doZsetop_source (works : env.Works) (fuel : Nat) (s : CommandRun Bytes)
    (ctx : KeyCtx) (source : ctx.argn ≠ 1) {entry : Option (Entry Bytes)}
    (ranked : IsRankedKey env entry) :
    ∃ found : Fetched Bytes, doZsetop lib geo env fuel op msg s ctx entry =
        (found.read .execOk, some (keyPart lib.mtList env entry).save) ∧
      found.entry = live env entry := by
  rw [doZsetop, if_neg (fun dest => source dest.1), if_pos source, keyPart]
  simp only [execKeyFetch, works.fetched, if_true]
  cases found : live env entry with
  | none =>
      refine ⟨⟨some .keyNotFound, none, false, .noData⟩, ?_, rfl⟩
      simp [zsetopSource, works.validated]
  | some e =>
      refine ⟨⟨some .keyOk, some e, false, e.type⟩, ?_, rfl⟩
      rcases ranked e found with untyped | isZset | isGeo
      · simp [untyped, zsetopSource, works.validated, Option.filter]
      · by_cases empty : e.data = []
        · simp [isZset, empty, zsetopSource, works.validated, works.valued, Option.filter]
        · simp [isZset, empty, zsetopSource, works.validated, works.valued, Option.filter]
      · by_cases empty : e.data = []
        · simp [isGeo, empty, zsetopSource, works.validated, works.valued, Option.filter]
        · simp [isGeo, empty, zsetopSource, works.validated, works.valued, Option.filter]

end Keys

section Parts

variable {Z S M T N : Type} [CommRing Z] [LinearOrder Z] {lib : ZSetLib Z S M} {geo : SetLib T N}
  {view : S → ZSetData Z} {merging : ZMerge Z S → S → M → Prop} {left : ZMerge Z S → S → M → Nat}
  {op : ZSetOp} {options : ZSetOptions Z} {first : ZSetPart} {others : List ZSetPart}

/-- The type of the sources is one of theirs, or that of a sorted set. -/
theorem sourceType_mem (parts : List ZSetPart) :
    (∃ part ∈ parts, part.type = sourceType parts ∧ part.type ≠ .noData) ∨
      sourceType parts = .sortedSet ∧ ∀ part ∈ parts, part.type = .noData := by
  rw [sourceType]
  cases found : (parts.map ZSetPart.type).find? fun type => decide (type ≠ .noData) with
  | none =>
      right
      rw [List.find?_eq_none] at found
      refine ⟨rfl, fun part member => ?_⟩
      have untyped := found part.type (List.mem_map_of_mem member)
      simpa using untyped
  | some type =>
      left
      obtain ⟨part, member, isType⟩ := List.mem_map.mp (List.mem_of_find?_eq_some found)
      have typed := List.find?_some found
      rw [decide_eq_true_iff] at typed
      refine ⟨part, member, isType, ?_⟩
      rw [isType]
      exact typed

/-- The first source decides about the type unless it is missing. -/
theorem sourceType_cons (typed : first.type ≠ .noData) :
    sourceType (first :: others) = first.type := by
  rw [sourceType, List.map_cons, List.find?_cons_of_pos (by simpa using typed), Option.getD_some]

/-- The first set has its scores scaled unless its weight is zero. -/
theorem score_zsetopFirst (works : lib.Works view merging left) (set : S) (m : Bytes) :
    (view (zsetopFirst lib options set)).score m = firstScore options ((view set).score m) := by
  obtain ⟨aggregate, weights⟩ := options
  rw [zsetopFirst, firstScore, works.zero]
  rcases weights with _ | _ | ⟨weight, weights⟩
  · rfl
  · rfl
  · dsimp only
    by_cases zero : weight = 0
    · rw [if_neg (fun other => other zero), if_neg (fun other => other zero)]
    · rw [if_pos zero, if_pos zero, works.zscale]

/-- Sorted sets are merged into one with the scores of their members. -/
theorem zsetopMerge_zset (works : lib.Works view merging left)
    (scored : options.aggregateType ≠ .none)
    (lengths : ∀ weights, options.weights = some weights → weights.length = others.length + 1)
    (typed : ∀ part ∈ first :: others, part.type = .sortedSet ∨ part.type = .noData) :
    ∃ set type bound, (∀ fuel ≥ bound, zsetopMerge lib geo fuel op options first others =
        .ok (lib.listp set, lib.hcount set, type)) ∧ (type = .sortedSet ∨ type = .noData) ∧
      ∀ m, (view set).score m = op.score options.aggregateType
        (firstScore options ((view (lib.load first.data)).score m) ::
          otherScores options (others.map fun part => (view (lib.load part.data)).score m)) := by
  have isZset : sourceType (first :: others) = .sortedSet := by
    rcases sourceType_mem (first :: others) with ⟨part, member, isType, some'⟩ | ⟨isZset, -⟩
    · rw [← isType]
      exact (typed part member).resolve_right some'
    · exact isZset
  obtain ⟨set, bound, ran, result⟩ := @zmergeOthers_spec _ _ _ _ _ _ _ _ _ op _ works scored
    options.weights.isSome (others.zip (otherWeights lib options others.length))
    (by
      intro source member
      exact typed source.1 (List.mem_cons_of_mem _ (List.of_mem_zip member).1))
    0 (zsetopFirst lib options (lib.load first.data))
  refine ⟨set, (others.getLast?.map ZSetPart.type).getD .sortedSet, bound, ?_, ?_, ?_⟩
  · intro fuel enough
    rw [zsetopMerge]
    simp only [isZset, if_true]
    rw [zsetopStarts_eq lengths, ran fuel enough]
    rfl
  · cases last : others.getLast? with
    | none => exact Or.inl rfl
    | some part => exact typed part (List.mem_cons_of_mem _ (List.mem_of_getLast? last))
  · intro m
    have scores := @map_weighted _ _ _ lib _ options others lengths
      (fun part => (view (lib.load part.data)).score m)
    rw [result, scores, score_zsetopFirst works, op.foldl_join]

/-- Sources of two types are refused. -/
theorem zsetopMerge_mixed {merging' : SetOp → T → T → T → N → Prop}
    {left' : SetOp → T → T → T → N → Nat} (works : lib.Works view merging left)
    (places : geo.Works merging' left')
    (lengths : ∀ weights, options.weights = some weights → weights.length = others.length + 1)
    (isZset : ∃ part ∈ first :: others, part.type = .sortedSet)
    (isGeo : ∃ part ∈ first :: others, part.type = .geo) :
    ∃ bound, ∀ fuel ≥ bound,
      zsetopMerge lib geo fuel op options first others = .error .errBadType := by
  have other : ∃ part ∈ others, part.type ≠ sourceType (first :: others) ∧
      part.type ≠ .noData := by
    have behind : ∀ type, (∃ part ∈ first :: others, part.type = type) → type ≠ .noData →
        type ≠ sourceType (first :: others) → ∃ part ∈ others,
          part.type ≠ sourceType (first :: others) ∧ part.type ≠ .noData := by
      rintro type ⟨part, member, isType⟩ typed different
      rcases List.mem_cons.mp member with isFirst | later
      · rw [isFirst] at isType
        exact absurd (isType.symm.trans (sourceType_cons (isType ▸ typed)).symm) different
      · exact ⟨part, later, isType ▸ different, isType ▸ typed⟩
    by_cases asZset : sourceType (first :: others) = .sortedSet
    · exact behind .geo isGeo (by decide) (by rw [asZset]; decide)
    · exact behind .sortedSet isZset (by decide) (Ne.symm asZset)
  by_cases asZset : sourceType (first :: others) = .sortedSet
  · rw [asZset] at other
    obtain ⟨part, member, isOther⟩ := other
    obtain ⟨i, inside, rfl⟩ := List.getElem_of_mem member
    have ended : ∀ part ∈ others.mapIdx (fun i part => (part, zsetopStart lib options (i + 1))),
        ∀ retry set, ∃ set' retry' bound, ∀ fuel ≥ bound,
          setMergeLoop lib.toSetLib op.op (lib.load part.1.data) fuel retry set part.2 =
            some (set', retry') := by
      rw [zsetopStarts_eq lengths]
      intro part member retry set
      obtain ⟨source, -, rfl⟩ := List.mem_map.mp member
      let merge : ZMerge Z S := ⟨op, set, lib.load source.1.data, source.2,
        options.aggregateType, options.weights.isSome⟩
      obtain ⟨set', retry', ran, -⟩ := @setMergeLoop_ends _ _ lib.toSetLib op.op
        (lib.load source.1.data) (merging merge) (left merge) (fun _ => True)
        (fun _ _ => trivial) (fun state ended => @works.full merge _ _ _ _ state ended)
        _ retry set _ (works.start merge) (Nat.lt_succ_self _)
      exact ⟨set', retry', _, ran⟩
    obtain ⟨bound, refuses⟩ := zmergeOthers_refuses ended
      ⟨(others[i], zsetopStart lib options (i + 1)), List.mem_mapIdx.mpr ⟨i, inside, rfl⟩, isOther⟩
      0 (zsetopFirst lib options (lib.load first.data))
    refine ⟨bound, fun fuel enough => ?_⟩
    rw [zsetopMerge]
    simp only [asZset, if_true]
    rw [refuses fuel enough]
    rfl
  · obtain ⟨part, member, isOther⟩ := other
    have ended : ∀ part ∈ others.map (fun part => (part, geo.start)),
        ∀ retry set, ∃ set' retry' bound, ∀ fuel ≥ bound,
          setMergeLoop geo op.op (geo.load part.1.data) fuel retry set part.2 =
            some (set', retry') := by
      intro part member retry set
      obtain ⟨source, -, rfl⟩ := List.mem_map.mp member
      obtain ⟨set', retry', ran, -⟩ := setMergeLoop_spec places
        (left' op.op set (geo.load source.data) set geo.start + 1) retry
        (places.start op.op set (geo.load source.data)) (Nat.lt_succ_self _)
      exact ⟨set', retry', _, ran⟩
    obtain ⟨bound, refuses⟩ := zmergeOthers_refuses ended
      ⟨(part, geo.start), List.mem_map_of_mem member, isOther⟩ 0 (geo.load first.data)
    refine ⟨bound, fun fuel enough => ?_⟩
    rw [zsetopMerge]
    simp only [if_neg asZset]
    rw [refuses fuel enough]
    rfl

end Parts

section Runs

variable {Z S M T N : Type} [LinearOrder Z] {lib : ZSetLib Z S M} {geo : SetLib T N} {env : KeyEnv}
  {op : ZSetOp} {msg : CommandMsg} {db : KeyHash → Option (Entry Bytes)} {dest : KeyHash}
  {sources : List KeyHash} {arg0 : Bytes}

/-- The destination is the first argument, and the sources are behind their number. -/
def zsetopKeys (dest : KeyHash) (sources : List KeyHash) : List KeyCtx :=
  { argn := 1, hash := dest } :: keysFrom 3 sources

def zsetopPlaces (dest : KeyHash) (sources : List KeyHash) : List (Nat × KeyHash) :=
  (1, dest) :: placesFrom 3 sources

theorem length_zsetopPlaces : (zsetopPlaces dest sources).length = sources.length + 1 := by
  rw [zsetopPlaces, List.length_cons, length_placesFrom]

/-- A source saves its part while other keys are left. -/
theorem doZsetop_saves (works : env.Works) (fuel : Nat)
    (ranked : ∀ h ∈ sources, IsRankedKey env (db h)) (i : Nat) :
    Saves env db (zsetopPlaces dest sources)
      (fun h => some (keyPart lib.mtList env (db h)).save)
      (doZsetop lib geo env fuel op msg) .sortedSet (i + 1) := by
  intro s ctx left place same
  rw [zsetopPlaces, List.getElem?_cons_succ] at place
  obtain ⟨argn, isKey⟩ := getElem?_placesFrom.mp place
  obtain ⟨found, handled, entry⟩ := @doZsetop_source _ _ _ _ _ _ lib geo _ op msg works fuel s ctx
    (by dsimp only at argn; omega) _
    ((ranked ctx.hash (List.mem_of_getElem? isKey)).of_live same)
  rw [handled, keyPart_of_live same]
  refine ⟨_, rfl, quiet_read ?_, show ExecStatus.execOk ≠ .execDepends by decide,
    show ExecStatus.execOk.ctorIdx ≤ ExecStatus.execBlocked.ctorIdx by decide⟩
  rw [entry, live_live, same]

/-- The destination waits for the sources. -/
theorem doZsetop_waits (fuel : Nat) :
    Waits env db (zsetopPlaces dest sources) (doZsetop lib geo env fuel op msg) .sortedSet 0 := by
  intro s ctx left place same
  rw [zsetopPlaces, List.getElem?_cons_zero, Option.some.injEq, Prod.mk.injEq] at place
  rw [doZsetop, if_pos ⟨place.1.symm, by omega⟩]
  refine ⟨_, rfl, ⟨rfl, rfl, ?_⟩, rfl, rfl⟩
  rw [KeyRun.settle, if_neg (fun settles => settles.1 rfl)]
  exact same

/-- The destination has its last turn when all sources have saved their parts, and the command ends
with what it does. -/
theorem doZsetop_run (works : env.Works) (fuel : Nat)
    (ranked : ∀ h ∈ sources, IsRankedKey env (db h)) {order : List Nat}
    (all : order.Perm (List.range (sources.length + 1))) :
    ∃ s ctx, live env (s.db dest) = live env (db dest) ∧ s.keys.length = sources.length + 1 ∧
      (s.keys.tail.map fun key => ZSetPart.load key.part) =
        (sources.map fun h => keyPart lib.mtList env (db h)) ∧
      doZsetop lib geo env fuel op msg s ctx (s.db dest) =
        (doZsetopStore lib geo env fuel op msg s (s.db dest), none) ∧
      ((doZsetopStore lib geo env fuel op msg s (s.db dest)).status ≠ .execDepends → ∃ s',
        runKeys (doZsetop lib geo env fuel op msg) .sortedSet arg0 (2 * (sources.length + 1)) order
            { db := db, keys := zsetopKeys dest sources } = some s' ∧
          s'.out = (doZsetopStore lib geo env fuel op msg s (s.db dest)).reply arg0 ∧
          (∀ h ≠ dest, live env (s'.db h) = live env (db h)) ∧
          s'.db dest = (doZsetopStore lib geo env fuel op msg s (s.db dest)).settle .sortedSet) := by
  have length := @length_zsetopPlaces dest sources
  have turns : order.Perm (List.range (zsetopPlaces dest sources).length) := by
    rw [length]
    exact all
  have fresh : ∀ ctx ∈ zsetopKeys dest sources, ctx.part = none ∧ ctx.ival = 0 := by
    intro ctx member
    rcases List.mem_cons.mp member with rfl | later
    · exact ⟨rfl, rfl⟩
    · exact keysFrom_fresh ctx later
  have start : Progress env db (zsetopPlaces dest sources)
      (fun h => some (keyPart lib.mtList env (db h)).save) []
      { db := db, keys := zsetopKeys dest sources } := Progress.start fresh
  have saves : ∀ i < (zsetopPlaces dest sources).length, i ≠ 0 →
      Saves env db (zsetopPlaces dest sources)
        (fun h => some (keyPart lib.mtList env (db h)).save)
        (doZsetop lib geo env fuel op msg) .sortedSet i := by
    intro i _ source
    obtain ⟨i, rfl⟩ : ∃ k, i = k + 1 := ⟨i - 1, by omega⟩
    exact doZsetop_saves works fuel ranked i
  obtain ⟨done, rest, s, members, progress, total, ran⟩ :=
    @Progress.runKeys_dest _ _ _ _ _ (doZsetop lib geo env fuel op msg) .sortedSet arg0 _ _ 0 start
      (doZsetop_waits fuel) saves turns (by omega)
  obtain ⟨ctx, found, place⟩ := progress.found (show 0 < _ by omega)
  rw [zsetopPlaces, List.getElem?_cons_zero, Option.some.injEq, Prod.mk.injEq] at place
  obtain ⟨argn, rfl⟩ := place
  have parts : (s.keys.tail.map fun key => ZSetPart.load key.part) =
      (sources.map fun h => keyPart lib.mtList env (db h)) := by
    have saved := congrArg (List.map ZSetPart.load) (progress.parts_tail members)
    rw [List.map_map, map_placesFrom (fun h => some (keyPart lib.mtList env (db h)).save),
      List.map_map] at saved
    refine saved.trans (List.map_congr_left fun h _ => ?_)
    exact load_save (keyPart_type _ _ _)
  have handled : doZsetop lib geo env fuel op msg s ctx (s.db ctx.hash) =
      (doZsetopStore lib geo env fuel op msg s (s.db ctx.hash), none) := by
    rw [doZsetop, if_neg, if_neg (fun source => source argn.symm)]
    rw [progress.length, progress.keyDone, total]
    exact fun both => both.2 rfl
  refine ⟨s, ctx, progress.same _, progress.length.trans length, parts, handled, ?_⟩
  intro notDepends
  obtain ⟨s', ended, table, out⟩ := @Progress.last _ _ _ _ _ (doZsetop lib geo env fuel op msg)
    .sortedSet arg0 _ _ _ progress _ found total _ none handled notDepends rest []
  rw [length] at ran
  refine ⟨s', ran.trans ended, out, ?_, ?_⟩
  · intro h other
    rw [table, Function.update_of_ne other, progress.same]
  · rw [table, Function.update_self]

end Runs

section Store

variable {Z S M T N : Type} [LinearOrder Z] {lib : ZSetLib Z S M} {geo : SetLib T N} {env : KeyEnv}
  {op : ZSetOp} {msg : CommandMsg} {fuel : Nat} {s : CommandRun Bytes} {options : ZSetOptions Z}
  {first : ZSetPart} {others : List ZSetPart} {entry : Option (Entry Bytes)}

/-- A merge that fails leaves the destination alone. -/
theorem doZsetopStore_error
    (parsed : zsetopOptions lib msg (s.keys.length - 1) msg.argc (3 + s.keys.length - 1) {} =
      some options)
    (parts : (s.keys.tail.map fun key => ZSetPart.load key.part) = first :: others)
    {status : ExecStatus}
    (merged : zsetopMerge lib geo fuel op options first others = .error status) :
    doZsetopStore lib geo env fuel op msg s entry = unfetched status entry := by
  rw [doZsetopStore, parsed, parts]
  dsimp only
  rw [merged]

/-- The destination holds the merged set, whatever was there. -/
theorem doZsetopStore_ok (works : env.Works) (forever : env.isExpired 0 = false)
    (parsed : zsetopOptions lib msg (s.keys.length - 1) msg.argc (3 + s.keys.length - 1) {} =
      some options)
    (parts : (s.keys.tail.map fun key => ZSetPart.load key.part) = first :: others)
    {data : Bytes} {count : Nat} {type : MdType} (isZset : type = .sortedSet ∨ type = .noData)
    (merged : zsetopMerge lib geo fuel op options first others = .ok (data, count, type)) :
    (doZsetopStore lib geo env fuel op msg s entry).status = .execSendInt ∧
      (doZsetopStore lib geo env fuel op msg s entry).out = [] ∧
      (doZsetopStore lib geo env fuel op msg s entry).ival = count ∧
      ∃ e, live env ((doZsetopStore lib geo env fuel op msg s entry).settle .sortedSet) = some e ∧
        e.type = .sortedSet ∧ e.data = data := by
  rw [doZsetopStore, parsed, parts]
  dsimp only
  rw [merged]
  simp only [execKeyFetch, works.fetched, if_true]
  cases found : live env entry with
  | none =>
      simp only [works.resized, if_true, Bool.false_eq_true, if_false]
      refine ⟨rfl, rfl, trivial, ?_⟩
      have written := @live_written _ env forever none (fun _ same => by cases same) data .sortedSet
      rcases isZset with rfl | rfl
      · exact written
      · exact written
  | some e =>
      simp only [works.resized, if_true]
      refine ⟨rfl, rfl, trivial, ?_⟩
      have written := @live_written _ env forever (some e)
        (fun e' same => by
          rw [← Option.some.inj same]
          exact unexpired_of_live found) data .sortedSet
      rcases isZset with rfl | rfl
      · exact written
      · exact written

end Store

section Exact

variable {Z S M T N : Type} [CommRing Z] [LinearOrder Z] {lib : ZSetLib Z S M} {geo : SetLib T N}
  {view : S → ZSetData Z} {env : KeyEnv} {op : ZSetOp} {msg : CommandMsg}
  {options : ZSetOptions Z} {db : KeyHash → Option (Entry Bytes)} {dest first : KeyHash}
  {others : List KeyHash} {arg0 : Bytes} {order : List Nat}

/-- The score of a member of a key; a missing key has no members. -/
def keyScore (lib : ZSetLib Z S M) (view : S → ZSetData Z) (env : KeyEnv)
    (entry : Option (Entry Bytes)) (m : Bytes) : Option Z :=
  match (live env entry).filter fun e => e.type = .sortedSet ∧ e.data ≠ [] with
  | none => none
  | some e => (view (lib.load e.data)).score m

/-- The score of a member in the result of the keys. -/
def zkeyResult (lib : ZSetLib Z S M) (view : S → ZSetData Z) (env : KeyEnv) (op : ZSetOp)
    (options : ZSetOptions Z) (db : KeyHash → Option (Entry Bytes)) (sources : List KeyHash)
    (m : Bytes) : Option Z :=
  op.score options.aggregateType
    (weightedScores options (sources.map fun h => keyScore lib view env (db h) m))

/-- A source holds a value of a type. -/
def HasType (env : KeyEnv) (db : KeyHash → Option (Entry Bytes)) (sources : List KeyHash)
    (type : MdType) : Prop :=
  ∃ h ∈ sources, ∃ e, live env (db h) = some e ∧ e.type = type

/-- Some sources are sorted sets and some are geo keys. -/
def IsMixed (env : KeyEnv) (db : KeyHash → Option (Entry Bytes)) (sources : List KeyHash) : Prop :=
  HasType env db sources .sortedSet ∧ HasType env db sources .geo

/-- The destination has the result, or it is absent without members. The reply is the number of the
members, and the other keys stay. -/
structure ZsetopMeets (lib : ZSetLib Z S M) (view : S → ZSetData Z) (env : KeyEnv) (op : ZSetOp)
    (options : ZSetOptions Z) (db : KeyHash → Option (Entry Bytes)) (dest : KeyHash)
    (sources : List KeyHash) (s : CommandRun Bytes) : Prop where
  number : ∃ members : List Bytes, s.out = sendInt members.length ∧ members.Nodup ∧
    ∀ m, m ∈ members ↔ zkeyResult lib view env op options db sources m ≠ none
  stores : (∃ m, zkeyResult lib view env op options db sources m ≠ none) → ∃ e,
    live env (s.db dest) = some e ∧ e.type = .sortedSet ∧
    ∀ m, (view (lib.load e.data)).score m = zkeyResult lib view env op options db sources m
  absent : (∀ m, zkeyResult lib view env op options db sources m = none) →
    live env (s.db dest) = none
  others : ∀ h ≠ dest, live env (s.db h) = live env (db h)

/-- Sources of two types are an error that changes nothing. -/
structure ZsetopRefuses (env : KeyEnv) (db : KeyHash → Option (Entry Bytes)) (arg0 : Bytes)
    (s : CommandRun Bytes) : Prop where
  out : s.out = sendErrString arg0 .errBadType
  kept : ∀ h, live env (s.db h) = live env (db h)

def ZSetOp.cmd : ZSetOp → RedisCmd
  | .zunion => .zunionstoreCmd
  | .zinter => .zinterstoreCmd

/-- The command finds its keys, and for any order of them it ends with the result of its sources, or
with an error. -/
structure ZsetopAgrees (lib : ZSetLib Z S M) (geo : SetLib T N) (view : S → ZSetData Z)
    (env : KeyEnv) (op : ZSetOp) (msg : CommandMsg) (options : ZSetOptions Z)
    (db : KeyHash → Option (Entry Bytes)) (dest : KeyHash) (sources : List KeyHash) (arg0 : Bytes)
    (order : List Nat) : Prop where
  located : ∃ g, keyGeometry op.cmd msg = some g ∧ keyIndices g msg.argc =
    (zsetopKeys dest sources).map fun ctx => (ctx.argn : Int)
  runs : ∃ bound, ∀ fuel ≥ bound, ∃ s,
    runKeys (doZsetop lib geo env fuel op msg) .sortedSet arg0 (2 * (sources.length + 1)) order
        { db := db, keys := zsetopKeys dest sources } = some s ∧
      (IsMixed env db sources → ZsetopRefuses env db arg0 s) ∧
      (¬IsMixed env db sources → ZsetopMeets lib view env op options db dest sources s)

/-- The sources fit in the mask of the keys. Unless they are mixed the result has a member, and a
first weight of zero makes no difference. -/
structure ZsetopFits (lib : ZSetLib Z S M) (view : S → ZSetData Z) (env : KeyEnv) (op : ZSetOp)
    (options : ZSetOptions Z) (db : KeyHash → Option (Entry Bytes)) (first : KeyHash)
    (others : List KeyHash) : Prop where
  few : (first :: others).length ≤ 61
  member : ¬IsMixed env db (first :: others) →
    ∃ m, zkeyResult lib view env op options db (first :: others) m ≠ none
  weight : ¬IsMixed env db (first :: others) →
    ∀ m, FirstWeightFits op options (keyScore lib view env (db first) m)
      (otherScores options (others.map fun h => keyScore lib view env (db h) m))

/-- The keys of up to 61 sources are found. -/
theorem located_iff (number : msg.getArgInt 2 = some ((first :: others).length : Int))
    (enough : 3 + (first :: others).length ≤ msg.argc) :
    (∃ g, keyGeometry op.cmd msg = some g ∧ keyIndices g msg.argc =
        (zsetopKeys dest (first :: others)).map fun ctx => (ctx.argn : Int)) ↔
      (first :: others).length ≤ 61 := by
  have geometry : keyGeometry op.cmd msg = some (storeKeys (first :: others).length) := by
    have arity : arityOk (cmdDb op.cmd) msg.argc := by
      rw [List.length_cons] at enough
      cases op with
      | zunion => exact (show (4 : Int) ≤ msg.argc by omega)
      | zinter => exact (show (4 : Int) ≤ msg.argc by omega)
    have located : locateMovablekeys op.cmd msg = some (storeKeys (first :: others).length) := by
      have store : locateStore msg = some (storeKeys (first :: others).length) := by
        rw [locateStore, number]
        dsimp only
        rw [if_neg (by omega)]
      cases op with
      | zunion => exact store
      | zinter => exact store
    rw [keyGeometry, if_neg (not_not.mpr arity), if_pos, located]
    cases op <;> decide
  have places : ((zsetopKeys dest (first :: others)).map fun ctx => (ctx.argn : Int)) =
      (1 :: List.range' 3 (first :: others).length).map Nat.cast := by
    rw [zsetopKeys, List.map_cons, List.map_cons, keysFrom]
    congr 1
    apply List.ext_getElem
    · simp
    · intro i here there
      rw [List.getElem_map, List.getElem_mapIdx, List.getElem_map, List.getElem_range', Nat.one_mul]
  rw [places]
  apply Iff.intro
  · rintro ⟨g, isGeometry, indices⟩
    rw [geometry] at isGeometry
    rw [← Option.some.inj isGeometry] at indices
    by_contra many
    exact keyIndices_storeKeys_many (by omega) enough indices
  · intro few
    exact ⟨_, geometry, keyIndices_storeKeys_sources few enough⟩

/-- A part has the scores of its key. -/
theorem score_keyPart {merging : ZMerge Z S → S → M → Prop} {left : ZMerge Z S → S → M → Nat}
    (works : lib.Works view merging left) {entry : Option (Entry Bytes)}
    (notGeo : ∀ e, live env entry = some e → e.type ≠ .geo) (m : Bytes) :
    (view (lib.load (keyPart lib.mtList env entry).data)).score m =
      keyScore lib view env entry m := by
  have empty : (view (lib.load lib.mtList)).score m = none := by
    rw [ZSetData.score, works.mtList]
    rfl
  rw [keyPart, keyScore]
  cases found : live env entry with
  | none => exact empty
  | some e =>
      by_cases isZset : e.type = .sortedSet
      · by_cases noData : e.data = []
        · simp [Option.filter, isZset, noData, empty]
        · simp [Option.filter, isZset, noData]
      · simp [Option.filter, isZset, notGeo e found, empty]

variable {merging : ZMerge Z S → S → M → Prop} {left : ZMerge Z S → S → M → Nat}
  {merging' : SetOp → T → T → T → N → Prop} {left' : SetOp → T → T → T → N → Nat}

/-- Sources of two types end in an error, in any order of the keys. -/
theorem doZsetop_mixed (works : env.Works) (sets : lib.Works view merging left)
    (places : geo.Works merging' left') (ranked : ∀ h ∈ first :: others, IsRankedKey env (db h))
    (parsed : zsetopOptions lib msg (first :: others).length msg.argc
      (3 + (first :: others).length) {} = some options)
    (all : order.Perm (List.range ((first :: others).length + 1)))
    (mixed : IsMixed env db (first :: others)) :
    ∃ bound, ∀ fuel ≥ bound, ∃ s,
      runKeys (doZsetop lib geo env fuel op msg) .sortedSet arg0 (2 * ((first :: others).length + 1))
          order { db := db, keys := zsetopKeys dest (first :: others) } = some s ∧
        ZsetopRefuses env db arg0 s := by
  have hasPart : ∀ type, HasType env db (first :: others) type →
      type = .sortedSet ∨ type = .geo →
      ∃ part ∈ (first :: others).map fun h => keyPart lib.mtList env (db h), part.type = type := by
    rintro type ⟨h, member, e, isLive, isType⟩ typed
    refine ⟨_, List.mem_map_of_mem member, ?_⟩
    rw [keyPart, isLive, Option.filter_some_pos (by simpa [isType] using typed)]
    exact isType
  have lengths : ∀ weights, options.weights = some weights →
      weights.length = (others.map fun h => keyPart lib.mtList env (db h)).length + 1 := by
    intro weights given
    have length := length_weights parsed (by rintro _ ⟨⟩) weights given
    rw [length, List.length_cons, List.length_map]
  obtain ⟨bound, refuses⟩ := @zsetopMerge_mixed _ _ _ _ _ _ _ lib geo view merging left op options
    (keyPart lib.mtList env (db first)) (others.map fun h => keyPart lib.mtList env (db h)) _ _ sets
    places lengths (hasPart _ mixed.1 (Or.inl rfl)) (hasPart _ mixed.2 (Or.inr rfl))
  refine ⟨bound, fun fuel enough => ?_⟩
  obtain ⟨s, ctx, same, length, parts, -, ends⟩ := @doZsetop_run _ _ _ _ _ _ lib geo env op msg db
    dest (first :: others) arg0 works fuel ranked _ all
  have refused := @doZsetopStore_error _ _ _ _ _ _ lib geo env op msg fuel s options _ _ (s.db dest)
    (by rw [length, Nat.add_sub_cancel, ← Nat.add_assoc, Nat.add_sub_cancel]; exact parsed) parts
    _ (refuses fuel enough)
  rw [refused] at ends
  obtain ⟨s', ran, out, others', isDest⟩ := ends (show ExecStatus.errBadType ≠ .execDepends by decide)
  have reply : (unfetched .errBadType (s.db dest)).reply arg0 =
      sendErrString arg0 .errBadType := by
    rw [KeyRun.reply, unfetched, List.nil_append]
    exact sendStatus_of_isError (show ExecStatus.errBadType.isError by decide) arg0 0
  refine ⟨s', ran, out.trans reply, ?_⟩
  intro h
  by_cases here : h = dest
  · rw [here, isDest, KeyRun.settle, if_neg (fun settles => settles.1 rfl)]
    exact same
  · exact others' h here

/-- Sorted sets end in their result under the condition only, in any order of the keys. -/
theorem doZsetop_zset (works : env.Works) (forever : env.isExpired 0 = false)
    (sets : lib.Works view merging left) (scored : options.aggregateType ≠ .none)
    (ranked : ∀ h ∈ first :: others, IsRankedKey env (db h))
    (parsed : zsetopOptions lib msg (first :: others).length msg.argc
      (3 + (first :: others).length) {} = some options)
    (all : order.Perm (List.range ((first :: others).length + 1)))
    (noGeo : ¬HasType env db (first :: others) .geo) :
    ∃ bound, ∀ fuel ≥ bound, ∃ s,
      runKeys (doZsetop lib geo env fuel op msg) .sortedSet arg0 (2 * ((first :: others).length + 1))
          order { db := db, keys := zsetopKeys dest (first :: others) } = some s ∧
        (ZsetopMeets lib view env op options db dest (first :: others) s ↔
          (∃ m, zkeyResult lib view env op options db (first :: others) m ≠ none) ∧
            ∀ m, FirstWeightFits op options (keyScore lib view env (db first) m)
              (otherScores options (others.map fun h => keyScore lib view env (db h) m))) := by
  have notGeo : ∀ h ∈ first :: others, ∀ e, live env (db h) = some e → e.type ≠ .geo :=
    fun h member e isLive isGeo => noGeo ⟨h, member, e, isLive, isGeo⟩
  have typed : ∀ part ∈ (first :: others).map fun h => keyPart lib.mtList env (db h),
      part.type = .sortedSet ∨ part.type = .noData := by
    intro part member
    obtain ⟨h, isKey, rfl⟩ := List.mem_map.mp member
    rw [keyPart]
    cases found : (live env (db h)).filter fun e => e.type = .sortedSet ∨ e.type = .geo with
    | none => exact Or.inr rfl
    | some e =>
        rw [Option.filter_eq_some_iff] at found
        left
        have isType : e.type = .sortedSet ∨ e.type = .geo := by simpa using found.2
        exact isType.resolve_right (notGeo h isKey e found.1)
  have lengths : ∀ weights, options.weights = some weights →
      weights.length = (others.map fun h => keyPart lib.mtList env (db h)).length + 1 := by
    intro weights given
    have length := length_weights parsed (by rintro _ ⟨⟩) weights given
    rw [length, List.length_cons, List.length_map]
  obtain ⟨set, type, bound, merged, isZset, scores⟩ := @zsetopMerge_zset _ _ _ _ _ _ _ lib geo view
    merging left op options (keyPart lib.mtList env (db first))
    (others.map fun h => keyPart lib.mtList env (db h)) sets scored lengths typed
  have isScore : ∀ m, (view set).score m = op.score options.aggregateType
      (firstScore options (keyScore lib view env (db first) m) ::
        otherScores options (others.map fun h => keyScore lib view env (db h) m)) := by
    intro m
    rw [scores, score_keyPart sets (notGeo first List.mem_cons_self), List.map_map]
    congr 3
    apply List.map_congr_left
    intro h member
    exact score_keyPart sets (notGeo h (List.mem_cons_of_mem _ member)) m
  have exact : ∀ m, (view set).score m =
      zkeyResult lib view env op options db (first :: others) m ↔
      FirstWeightFits op options (keyScore lib view env (db first) m)
        (otherScores options (others.map fun h => keyScore lib view env (db h) m)) := by
    intro m
    rw [isScore, zkeyResult, List.map_cons]
    apply score_first_iff
    intro none
    have length := lengths [] none
    cases length
  refine ⟨bound, fun fuel enough => ?_⟩
  obtain ⟨s, ctx, same, length, parts, -, ends⟩ := @doZsetop_run _ _ _ _ _ _ lib geo env op msg db
    dest (first :: others) arg0 works fuel ranked _ all
  obtain ⟨status, noOut, number, e, isEntry, isType, data⟩ :=
    @doZsetopStore_ok _ _ _ _ _ _ lib geo env op msg fuel s options _ _ (s.db dest) works forever
      (by rw [length, Nat.add_sub_cancel, ← Nat.add_assoc, Nat.add_sub_cancel]; exact parsed) parts
      _ _ _ isZset (merged fuel enough)
  obtain ⟨s', ran, out, others', isDest⟩ := ends (by rw [status]; decide)
  rw [← isDest] at isEntry
  have holds : view (lib.load e.data) = view set := by
    rw [data, sets.listp]
  have reply : s'.out = sendInt (view set).hcount := by
    rw [out, KeyRun.reply, noOut, status, number, ← sets.hcount]
    rfl
  refine ⟨s', ran, ?_⟩
  apply Iff.intro
  · intro meets
    have some' : ∃ m, zkeyResult lib view env op options db (first :: others) m ≠ none := by
      by_contra none
      have absent := meets.absent fun m => not_not.mp fun some' => none ⟨m, some'⟩
      rw [isEntry] at absent
      cases absent
    refine ⟨some', fun m => (exact m).mp ?_⟩
    obtain ⟨e', isEntry', -, result⟩ := meets.stores some'
    rw [isEntry] at isEntry'
    rw [← holds, Option.some.inj isEntry', result]
  · rintro ⟨⟨m, some'⟩, fits⟩
    have result := fun m => (exact m).mpr (fits m)
    refine ⟨⟨(view set).members.map Prod.fst, ?_, (view set).nodup, ?_⟩, ?_, ?_, others'⟩
    · rw [reply, List.length_map]
      rfl
    · intro m
      rw [mem_members_iff, result]
    · intro _
      refine ⟨e, isEntry, isType, fun m => ?_⟩
      rw [holds, result]
    · intro none
      exact absurd (none m) some'

/-- The commands are their reference under the condition only. -/
theorem zsetop_exact (works : env.Works) (forever : env.isExpired 0 = false)
    (sets : lib.Works view merging left) (places : geo.Works merging' left')
    (scored : options.aggregateType ≠ .none)
    (ranked : ∀ h ∈ first :: others, IsRankedKey env (db h))
    (scores : HasType env db (first :: others) .geo → HasType env db (first :: others) .sortedSet)
    (number : msg.getArgInt 2 = some ((first :: others).length : Int))
    (enough : 3 + (first :: others).length ≤ msg.argc)
    (parsed : zsetopOptions lib msg (first :: others).length msg.argc
      (3 + (first :: others).length) {} = some options)
    (all : order.Perm (List.range ((first :: others).length + 1))) :
    ZsetopAgrees lib geo view env op msg options db dest (first :: others) arg0 order ↔
      ZsetopFits lib view env op options db first others := by
  have located := @located_iff op msg dest first others number enough
  by_cases mixed : IsMixed env db (first :: others)
  · obtain ⟨bound, refuses⟩ := @doZsetop_mixed _ _ _ _ _ _ _ lib geo view env op msg options db dest
      first others arg0 order _ _ _ _ works sets places ranked parsed all mixed
    apply Iff.intro
    · intro agrees
      exact ⟨located.mp agrees.located, fun pure => absurd mixed pure,
        fun pure => absurd mixed pure⟩
    · intro fits
      refine ⟨located.mpr fits.few, bound, fun fuel enough => ?_⟩
      obtain ⟨s, ran, refused⟩ := refuses fuel enough
      exact ⟨s, ran, fun _ => refused, fun pure => absurd mixed pure⟩
  · obtain ⟨bound, runs⟩ := @doZsetop_zset _ _ _ _ _ _ _ lib geo view env op msg options db dest
      first others arg0 order _ _ works forever sets scored ranked parsed all
      (fun isGeo => mixed ⟨scores isGeo, isGeo⟩)
    apply Iff.intro
    · intro agrees
      obtain ⟨bound', agree⟩ := agrees.runs
      obtain ⟨s, ran, exact⟩ := runs (max bound bound') (Nat.le_max_left _ _)
      obtain ⟨s', ran', -, meets⟩ := agree (max bound bound') (Nat.le_max_right _ _)
      rw [ran] at ran'
      obtain rfl := Option.some.inj ran'
      obtain ⟨member, weight⟩ := exact.mp (meets mixed)
      exact ⟨located.mp agrees.located, fun _ => member, fun _ => weight⟩
    · intro fits
      refine ⟨located.mpr fits.few, bound, fun fuel enough => ?_⟩
      obtain ⟨s, ran, exact⟩ := runs fuel enough
      exact ⟨s, ran, fun both => absurd both mixed,
        fun _ => exact.mpr ⟨fits.member mixed, fits.weight mixed⟩⟩

end Exact

section Samples

/-- A set of at most one member has one score or none. -/
def oneScore (set : Option Int) : ZSetData Int where
  members := set.toList.map fun score => (text "m", score)
  nodup := by cases set <;> simp

theorem score_oneScore (set : Option Int) (m : Bytes) :
    (oneScore set).score m = if text "m" = m then set else none := by
  rw [ZSetData.score, oneScore]
  by_cases here : text "m" = m
  · cases set <;> simp [here]
  · cases set <;> simp [here]

/-- The sign and the magnitude of a score are the first byte and the number of the others. -/
def saveScore : Option Int → Bytes
  | none => [0]
  | some (.ofNat n) => 1 :: List.replicate n 0
  | some (.negSucc n) => 2 :: List.replicate n 0

def loadScore : Bytes → Option Int
  | 1 :: rest => some (.ofNat rest.length)
  | 2 :: rest => some (.negSucc rest.length)
  | _ => none

theorem loadScore_saveScore (set : Option Int) : loadScore (saveScore set) = set := by
  cases set with
  | none => rfl
  | some score =>
      cases score with
      | ofNat n => simp [saveScore, loadScore]
      | negSucc n => simp [saveScore, loadScore]

/-- The sorted sets of at most one member, whose merges are never full. -/
def oneScores : ZSetLib Int (Option Int) (Int × ZAggregateType × Bool) where
  mtList := [0]
  load := loadScore
  listp := saveScore
  count := fun set => set.toList.length
  hcount := fun set => set.toList.length
  dataLen := fun set => set.toList.length
  lindex := fun _ _ => none
  start := (1, .none, false)
  merge := fun op set set2 ctx =>
    let op := if op = .sunion then ZSetOp.zunion else .zinter
    (true, op.join ctx.2.1 set (weighted ctx.2.2 ctx.1 set2), ctx)
  copy := fun set _ _ => set
  itod := id
  strToScore := fun str => match stringToInt str with
    | .ok score => score
    | .error _ => 0
  zscale := fun set weight => set.map (weight * ·)
  init := fun weight aggregate hasWeights => (weight, aggregate, hasWeights)

theorem oneScores_works :
    oneScores.Works oneScore
      (fun merge set ctx => set = merge.first ∧
        ctx = (merge.weight, merge.aggregateType, merge.hasWeights))
      (fun _ _ _ => 0) where
  mtList := rfl
  listp := fun set => congrArg oneScore (loadScore_saveScore set)
  hcount := by
    intro set
    cases set <;> rfl
  zero := rfl
  zscale := by
    intro set weight m
    rw [score_oneScore, score_oneScore]
    by_cases here : text "m" = m
    · rw [if_pos here, if_pos here]
      rfl
    · rw [if_neg here, if_neg here]
      rfl
  start := fun _ => ⟨rfl, rfl⟩
  ends := by
    rintro ⟨op, first, second, weight, aggregate, hasWeights⟩ set ctx set' ctx' - ⟨same, context⟩
      ended m
    dsimp only at same context
    subst same context
    obtain rfl := (Prod.mk.inj (Prod.mk.inj ended).2).1
    rw [score_oneScore, score_oneScore, score_oneScore]
    by_cases here : text "m" = m
    · rw [if_pos here, if_pos here, if_pos here]
      cases op <;> rfl
    · rw [if_neg here, if_neg here, if_neg here]
      cases op <;> cases hasWeights <;> rfl
  full := by
    rintro merge set ctx set' ctx' - ended
    cases (Prod.mk.inj ended).1

/-- A message with weights behind its sources. -/
theorem zsetopOptions_weights {Z S M : Type} {lib : ZSetLib Z S M} {msg : CommandMsg} {n : Nat}
    {weights : List Z} (isWeights : msg.matchArg (3 + n) [text "aggregate", text "weights"] = 2)
    (parsed : zsetopWeights lib msg n (3 + n + 1) = some weights)
    (size : msg.argc = 3 + n + 1 + n) :
    zsetopOptions lib msg n msg.argc (3 + n) {} = some { weights := some weights } := by
  rw [size, show 3 + n + 1 + n = (2 + n + n) + 1 + 1 by omega, zsetopOptions, if_pos (by omega),
    isWeights, parsed]
  have done : zsetopOptions lib msg n (2 + n + n + 1) (3 + n + 1 + n)
      { weights := some weights } = some { weights := some weights } := by
    rw [zsetopOptions, if_neg (by omega)]
  exact done

def zunionMsg (weights : List String) : CommandMsg :=
  ⟨commandWords (["zunionstore", "d", "2", "x", "y", "weights"] ++ weights.take 2),
    by simp [commandWords]; omega⟩

/-- One of two keys holds a member. -/
def scoreFive (h : KeyHash) : Option (Entry Bytes) :=
  if h = ⟨1, 0⟩ then some ⟨.sortedSet, saveScore (some 5), 0⟩ else none

theorem scoreFive_type {h : KeyHash} {e : Entry Bytes} (isLive : live quietEnv (scoreFive h) = some e) :
    e.type = .sortedSet := by
  have entry := eq_of_live isLive
  rw [scoreFive] at entry
  by_cases here : h = ⟨1, 0⟩
  · rw [if_pos here] at entry
    rw [← Option.some.inj entry]
  · rw [if_neg here] at entry
    cases entry

/-- The member has twice its score in the union. -/
theorem zsetop_exact_two :
    ZsetopAgrees oneScores byteSets oneScore quietEnv .zunion (zunionMsg ["2", "3"])
      { weights := some [2, 3] } scoreFive ⟨3, 0⟩ [⟨1, 0⟩, ⟨2, 0⟩] [] [0, 2, 1] :=
  (zsetop_exact quietEnv_works rfl oneScores_works byteSets_works (by decide)
    (fun _ _ _ isLive => Or.inr (Or.inl (scoreFive_type isLive)))
    (fun ⟨h, member, e, isLive, _⟩ => ⟨h, member, e, isLive, scoreFive_type isLive⟩) (by decide)
    (by decide) (zsetopOptions_weights (by decide) (by decide) rfl) (by decide)).mpr
    { few := by decide
      member := fun _ => ⟨text "m", by decide⟩
      weight := by
        rintro _ _ weights score ⟨⟩ }

/-- A weight of zero does not scale the first set. -/
theorem not_zsetop_exact :
    ¬ZsetopAgrees oneScores byteSets oneScore quietEnv .zunion (zunionMsg ["0", "3"])
      { weights := some [0, 3] } scoreFive ⟨3, 0⟩ [⟨1, 0⟩, ⟨2, 0⟩] [] [0, 2, 1] := by
  intro agrees
  have noGeo : ¬HasType quietEnv scoreFive [⟨1, 0⟩, ⟨2, 0⟩] .geo := by
    rintro ⟨h, member, e, isLive, isGeo⟩
    rw [scoreFive_type isLive] at isGeo
    cases isGeo
  obtain ⟨bound, runs⟩ := @doZsetop_zset _ _ _ _ _ _ _ oneScores byteSets oneScore quietEnv .zunion
    (zunionMsg ["0", "3"]) { weights := some [0, 3] } scoreFive ⟨3, 0⟩ ⟨1, 0⟩ [⟨2, 0⟩] [] [0, 2, 1]
    _ _ quietEnv_works rfl oneScores_works (by decide)
    (fun _ _ _ isLive => Or.inr (Or.inl (scoreFive_type isLive)))
    (zsetopOptions_weights (by decide) (by decide) rfl) (by decide) noGeo
  obtain ⟨bound', agree⟩ := agrees.runs
  obtain ⟨s, ran, exact⟩ := runs (max bound bound') (Nat.le_max_left _ _)
  obtain ⟨s', ran', -, meets⟩ := agree (max bound bound') (Nat.le_max_right _ _)
  obtain rfl := Option.some.inj (ran.symm.trans ran')
  have fits := (exact.mp (meets fun mixed => noGeo mixed.2)).2 (text "m") [3] 5 rfl (by decide)
    (by rintro ⟨⟩)
  exact absurd fits (show ¬(5 : Int) = 0 by decide)

end Samples

end Raids.Key
