import Raids.Proof.Cmd.KeyGeometry

namespace Raids
open Enumeration

section Words

variable {msg : CommandMsg} {m : RedisMsg}

/-- No argument matches two of these words. -/
def DistinctWords (words : List Bytes) : Prop := (words.map (List.map lower)).Nodup

instance (words : List Bytes) : Decidable (DistinctWords words) :=
  inferInstanceAs (Decidable (List.Nodup _))

/-- An argument that matches two words shows that they differ in case only. -/
theorem isWord_lower {first second : Bytes} (isFirst : m.isWord first) (isSecond : m.isWord second) :
    first.map lower = second.map lower := by
  cases m with
  | integer ival => cases isFirst
  | array len elems => cases isFirst
  | string type len strval =>
      cases type with
      | errorString => cases isFirst
      | _ =>
          simp only [RedisMsg.isWord, decide_eq_true_eq] at isFirst isSecond
          have sameLength : first.length = second.length := by omega
          rw [← isFirst.2, ← isSecond.2, sameLength]

/-- The match finds the only word that fits. -/
theorem matchArg_of_isWord {words : List Bytes} (distinct : DistinctWords words) {i k : Nat}
    {word : Bytes} (here : msg.args[i]? = some m) (known : words[k]? = some word)
    (isWord : m.isWord word) : msg.matchArg i words = k + 1 := by
  obtain ⟨bound, rfl⟩ := List.getElem?_eq_some_iff.mp known
  have found : words.findIdx? m.isWord = some k := by
    rw [List.findIdx?_eq_some_iff_getElem]
    refine ⟨bound, isWord, fun j before matched => ?_⟩
    have same := isWord_lower matched isWord
    have later : k < (words.map (List.map lower)).length := by rwa [List.length_map]
    have sooner : j < (words.map (List.map lower)).length := before.trans later
    have equal : (words.map (List.map lower))[j] = (words.map (List.map lower))[k] := by
      simpa using same
    exact absurd (distinct.getElem_inj_iff.mp equal) before.ne
  rw [CommandMsg.matchArg, here]
  simp only [found]
  rfl

theorem drop_eq_cons {i : Nat} {rest : List RedisMsg} (split : msg.args.drop i = m :: rest) :
    msg.args[i]? = some m ∧ msg.argc = i + 1 + rest.length := by
  constructor
  · rw [← List.head?_drop, split]
    rfl
  · have length := congrArg List.length split
    rw [List.length_drop, List.length_cons] at length
    rw [CommandMsg.argc]
    omega

end Words

section Streams

theorem toInt16_eq (i : Int) : ∃ wraps : Int, toInt16 i = i - 2 ^ 16 * wraps ∧
    -2 ^ 15 ≤ toInt16 i ∧ toInt16 i < 2 ^ 15 := by
  refine ⟨(i - toInt16 i) / 2 ^ 16, ?_⟩
  simp only [toInt16, Int.bmod_def]
  split <;> omega

/-- The check of the last key refuses every index that does not fit in its field. -/
theorem streamKeys_some {argc i : Int} {g : Geometry} (start : 0 ≤ i)
    (found : streamKeys argc i = some g) :
    ∃ n : Nat, argc = i + 2 * (n + 1) ∧ g = ⟨i, i + n, 1, 0⟩ := by
  simp only [streamKeys] at found
  split at found
  · split at found
    · rename_i inside exact_
      obtain ⟨wraps, first, lower, upper⟩ := toInt16_eq i
      obtain ⟨wraps', last, lower', upper'⟩ := toInt16_eq (i + (argc - i) / 2 - 1)
      have noWrap : wraps = 0 ∧ wraps' = 0 := by omega
      refine ⟨((argc - i) / 2 - 1).toNat, by omega, ?_⟩
      rw [← Option.some.inj found, Geometry.mk.injEq]
      refine ⟨by omega, by omega, rfl, rfl⟩
    · cases found
  · cases found

/-- The loop over the options finds the keys that the syntax places behind `STREAMS`. -/
theorem locateStreams_some {options : List (Bytes × Nat)} {msg : CommandMsg}
    (distinct : DistinctWords (options.map Prod.fst ++ [text "streams"])) {fuel i : Nat}
    {g : Geometry} (start : 0 < i) (found : locateStreams options msg fuel i = some g) :
    ∃ first n : Nat, msg.argc = first + 2 * (n + 1) ∧ 0 < first ∧ g = ⟨first, first + n, 1, 0⟩ ∧
      ∀ keys, StreamsSyntax options i (msg.args.drop i) keys →
        keys = List.range' first (n + 1) := by
  induction fuel generalizing i with
  | zero => cases found
  | succ fuel ih =>
      simp only [locateStreams] at found
      split at found
      · cases found
      split at found
      · cases found
      rename_i k matched
      split at found
      · -- An option: the loop and the syntax pass the same arguments.
        rename_i word size option
        obtain ⟨first, n, argc, positive, geometry, syntax'⟩ := ih (by omega) found
        refine ⟨first, n, argc, positive, geometry, fun keys positions => syntax' keys ?_⟩
        generalize split : msg.args.drop i = args at positions
        cases positions with
        | option word' known isWord more =>
            rename_i m operands rest
            obtain ⟨here, -⟩ := drop_eq_cons split
            obtain ⟨j, entry⟩ := List.getElem?_of_mem known
            have named : (options.map Prod.fst ++ [text "streams"])[j]? = some word' := by
              rw [List.getElem?_append_left, List.getElem?_map, entry]
              · rfl
              · rw [List.length_map]
                exact (List.getElem?_eq_some_iff.mp entry).1
            have same := matched.symm.trans (matchArg_of_isWord distinct here named isWord)
            obtain rfl : k = j := by omega
            rw [option, Option.some.injEq, Prod.mk.injEq] at entry
            have next : msg.args.drop (i + size) = rest := by
              rw [← List.drop_drop, split, entry.2, List.drop_succ_cons, List.drop_left]
            rw [next, entry.2, ← Nat.add_assoc]
            exact more
        | streams isWord nonempty sameLength =>
            obtain ⟨here, -⟩ := drop_eq_cons split
            have named : (options.map Prod.fst ++ [text "streams"])[options.length]? =
                some (text "streams") := by simp
            have same := matched.symm.trans (matchArg_of_isWord distinct here named isWord)
            obtain rfl : k = options.length := by omega
            simp at option
      · -- The word `STREAMS`: the number of arguments behind it decides.
        rename_i noOption
        obtain ⟨n, argc, geometry⟩ := streamKeys_some (by omega) found
        refine ⟨i + 1, n, by omega, by omega, geometry, fun keys positions => ?_⟩
        generalize split : msg.args.drop i = args at positions
        cases positions with
        | option word known isWord more =>
            obtain ⟨here, -⟩ := drop_eq_cons split
            obtain ⟨j, entry⟩ := List.getElem?_of_mem known
            have named : (options.map Prod.fst ++ [text "streams"])[j]? = some word := by
              rw [List.getElem?_append_left, List.getElem?_map, entry]
              · rfl
              · rw [List.length_map]
                exact (List.getElem?_eq_some_iff.mp entry).1
            have same := matched.symm.trans (matchArg_of_isWord distinct here named isWord)
            obtain rfl : k = j := by omega
            rw [noOption] at entry
            cases entry
        | streams isWord nonempty sameLength =>
            obtain ⟨-, length⟩ := drop_eq_cons split
            rw [List.length_append] at length
            congr 1
            omega

/-- The keys of a stream read are consistent whenever the command is accepted. -/
theorem consistentKeys_streams {cmd : RedisCmd} {options : List (Bytes × Nat)} {msg : CommandMsg}
    (distinct : DistinctWords (options.map Prod.fst ++ [text "streams"])) {g : Geometry}
    (found : locateStreams options msg msg.argc 1 = some g)
    (grammar : ∀ keys, KeySyntax msg cmd keys → StreamsSyntax options 1 msg.args.tail keys) :
    ConsistentKeys cmd msg g := by
  obtain ⟨first, n, argc, positive, rfl, positions⟩ :=
    locateStreams_some distinct Nat.one_pos found
  apply consistentKeys_fixed (n := n) rfl rfl
  · simpa using positive
  · rfl
  · simp only
    omega
  · intro keys inSyntax
    have streams := grammar keys inSyntax
    rw [← List.drop_one] at streams
    rw [positions keys streams, List.range'_eq_map_range, List.map_map]
    exact List.map_congr_left fun k _ => by simp

end Streams

section Mask

theorem shiftCount_lt (i : Int) : shiftCount i < 64 := by
  rw [shiftCount]
  omega

theorem shiftCount_natCast {i : Nat} (inside : i < 64) : shiftCount i = i := by
  rw [shiftCount]
  omega

/-- The mask of a store holds the destination and the source keys, up to argument 63. -/
theorem testBit_storeKeys (i : Int) {k : Nat} (inside : k < 64) :
    (storeKeys i).stepMask.testBit k =
      decide (k = 1 ∨ 3 ≤ k ∧ k < 3 + shiftCount i) := by
  have first : (bit 1).testBit k = decide (k = 1) := by
    rw [bit, shiftCount, Nat.one_shiftLeft, Nat.testBit_two_pow]
    exact decide_eq_decide.mpr eq_comm
  rw [storeKeys, Nat.testBit_or, first, Nat.testBit_mod_two_pow, Nat.testBit_shiftLeft, bit,
    Nat.one_shiftLeft, Nat.testBit_two_pow_sub_one]
  by_cases one : k = 1
  · simp [one]
  · simp only [one, inside, decide_true, Bool.true_and, decide_false, Bool.or_false, false_or]
    by_cases low : 3 ≤ k
    · simp only [low, decide_true, Bool.true_and, true_and]
      exact decide_eq_decide.mpr (by omega)
    · simp [low]

theorem popcount_storeKeys (i : Int) :
    popcount (storeKeys i).stepMask = min (shiftCount i) 61 + 1 := by
  have table : ∀ s < 64, popcount ((1 <<< s - 1) <<< 3 % 2 ^ 64 ||| 2) = min s 61 + 1 := by
    decide
  exact table _ (shiftCount_lt i)

theorem storeKeys_masked (i : Int) : (storeKeys i).stepMask ≠ 0 := by
  intro zero
  have first := testBit_storeKeys i (show 1 < 64 by omega)
  rw [zero] at first
  simp at first

/-- The loop stops at a key of the mask. -/
theorem skipKey_some {g : Geometry} {fuel : Nat} {i j : Int} (found : skipKey g fuel i = some j) :
    g.stepMask.testBit (shiftCount j) := by
  induction fuel generalizing i with
  | zero => cases found
  | succ fuel ih =>
      simp only [skipKey] at found
      split at found
      · rename_i isKey
        obtain rfl := Option.some.inj found
        exact isKey
      · split at found
        · cases found
        · exact ih found

theorem skipKey_key {g : Geometry} {fuel : Nat} {i : Int}
    (isKey : g.stepMask.testBit (shiftCount i)) : skipKey g (fuel + 1) i = some i := by
  rw [skipKey, if_pos isKey]

theorem skipKey_last {g : Geometry} {fuel : Nat} {i : Int}
    (noKey : g.stepMask.testBit (shiftCount i) = false) (last : g.last < i + g.step) :
    skipKey g (fuel + 1) i = none := by
  rw [skipKey, if_neg (by simp [noKey])]
  exact if_pos last

theorem skipKey_next {g : Geometry} {fuel : Nat} {i : Int}
    (noKey : g.stepMask.testBit (shiftCount i) = false) (inside : i + g.step ≤ g.last) :
    skipKey g (fuel + 1) i = skipKey g fuel (i + g.step) := by
  rw [skipKey, if_neg (by simp [noKey])]
  exact if_neg (by omega)

/-- Behind a key the mask decides, except in front of an end that counts from the last argument. -/
theorem nextKey_masked {g : Geometry} {argc : Nat} {i : Int} (masked : g.stepMask ≠ 0)
    (notBefore : ¬(g.last < 0 ∧ i + g.step < argc + g.last + 1)) :
    nextKey g argc i = skipKey g ((g.last - (i + g.step)).toNat + 63 + 1) (i + g.step) := by
  simp only [nextKey, notBefore, if_false, if_pos masked]

theorem nextKey_before {g : Geometry} {argc : Nat} {i : Int} (negative : g.last < 0)
    (before : i + g.step < argc + g.last + 1) : nextKey g argc i = some (i + g.step) := by
  simp only [nextKey, negative, before, and_self, if_true]

end Mask

section Store

variable {cmd : RedisCmd} {msg : CommandMsg} {nkeys : Int}

theorem calcKeyCount_storeKeys (nkeys : Int) (argc : Nat) :
    calcKeyCount (storeKeys nkeys) argc = min (shiftCount nkeys) 61 + 1 := by
  rw [calcKeyCount, if_pos (storeKeys_masked nkeys), popcount_storeKeys]

/-- The mask leaves out the number of keys, so the first source is the next key. -/
theorem not_key_nkeys (nkeys : Int) : (storeKeys nkeys).stepMask.testBit (shiftCount 2) = false := by
  rw [testBit_storeKeys nkeys (shiftCount_lt 2)]
  rfl

theorem keyIndices_storeKeys (nkeys : Int) (argc : Nat) :
    keyIndices (storeKeys nkeys) argc = enumerate (nextKey (storeKeys nkeys) argc) (argc + 1) 1 :=
  if_pos Int.one_pos

/-- A last key in front of the sources leaves the destination alone. -/
theorem keyIndices_storeKeys_one {argc : Nat} (last : (storeKeys nkeys).last < 3)
    (notBefore : ¬((storeKeys nkeys).last < 0 ∧ 2 < (argc : Int) + (storeKeys nkeys).last + 1)) :
    keyIndices (storeKeys nkeys) argc = [1] := by
  rw [keyIndices_storeKeys]
  apply enumerate_none
  rw [nextKey_masked (storeKeys_masked nkeys) notBefore]
  exact skipKey_last (not_key_nkeys nkeys) last

/-- Up to 61 sources fit in the mask, and the keys are those of the syntax. -/
theorem keyIndices_storeKeys_sources {n argc : Nat} (few : n ≤ 61) (enough : 3 + n ≤ argc) :
    keyIndices (storeKeys n) argc = (1 :: List.range' 3 n).map Nat.cast := by
  have last : (storeKeys n).last = 2 + n := by
    obtain ⟨wraps, wrapped, lower, upper⟩ := toInt16_eq (2 + n)
    simp only [storeKeys]
    omega
  have isKey : ∀ k : Nat, k < 64 → (storeKeys n).stepMask.testBit (shiftCount k) =
      decide (k = 1 ∨ 3 ≤ k ∧ k < 3 + n) := by
    intro k inside
    rw [testBit_storeKeys n (shiftCount_lt k), shiftCount_natCast inside,
      shiftCount_natCast (by omega)]
  have notBefore : ∀ i : Int, ¬((storeKeys n).last < 0 ∧
      i + (storeKeys n).step < argc + (storeKeys n).last + 1) := by
    intro i
    omega
  cases n with
  | zero => exact keyIndices_storeKeys_one (by omega) (by omega)
  | succ n =>
      have first : nextKey (storeKeys (n + 1 : Nat)) argc 1 = some 3 := by
        rw [nextKey_masked (storeKeys_masked _) (notBefore 1)]
        change skipKey _ _ 2 = some 3
        have third := isKey 3 (by omega)
        rw [skipKey_next (not_key_nkeys _) (by rw [last]; change 2 + 1 ≤ _; omega)]
        exact skipKey_key (third.trans (by simp))
      have follows : ∀ k < n, nextKey (storeKeys (n + 1 : Nat)) argc (3 + (k : Nat)) =
          some (3 + ((k + 1 : Nat) : Int)) := by
        intro k before
        rw [nextKey_masked (storeKeys_masked _) (notBefore _)]
        have next : (3 + (k : Nat) + (storeKeys (n + 1 : Nat)).step : Int) = (4 + k : Nat) := by
          change (3 + (k : Nat) + 1 : Int) = _
          omega
        have key := isKey (4 + k) (by omega)
        have inside : 3 ≤ 4 + k ∧ 4 + k < 3 + (n + 1) := by omega
        rw [next, skipKey_key (key.trans (decide_eq_true (Or.inr inside))), Option.some.injEq]
        omega
      have ends : nextKey (storeKeys (n + 1 : Nat)) argc (3 + n) = none := by
        rw [nextKey_masked (storeKeys_masked _) (notBefore _)]
        have next : (3 + n + (storeKeys (n + 1 : Nat)).step : Int) = (4 + n : Nat) := by
          change (3 + n + 1 : Int) = _
          omega
        have noKey : (storeKeys (n + 1 : Nat)).stepMask.testBit (shiftCount (4 + n : Nat)) =
            false := by
          rw [testBit_storeKeys _ (shiftCount_lt _), decide_eq_false_iff_not, shiftCount, shiftCount]
          omega
        rw [next, skipKey_last noKey]
        change _ < ((4 + n : Nat) : Int) + 1
        omega
      have sources := enumerate_sequence (fun k : Nat => (3 + k : Int)) follows ends
        (show n < argc by omega)
      rw [keyIndices_storeKeys, enumerate_some first]
      simp only [Nat.cast_zero, Int.add_zero] at sources
      rw [sources, List.map_cons, List.range'_eq_map_range, List.map_map]
      refine congrArg (1 :: ·) (List.map_congr_left fun k _ => ?_)
      simp

/-- The bit of argument 64 is the bit of the command, which is no key. -/
theorem not_key_64 (nkeys : Int) : (storeKeys nkeys).stepMask.testBit (shiftCount 64) = false := by
  rw [testBit_storeKeys nkeys (shiftCount_lt 64)]
  rfl

/-- With more sources the enumeration misses argument 64, or it takes their number for a key. -/
theorem keyIndices_storeKeys_many {n argc : Nat} (many : 62 ≤ n) (enough : 3 + n ≤ argc) :
    keyIndices (storeKeys n) argc ≠ (1 :: List.range' 3 n).map Nat.cast := by
  intro equal
  have member : (64 : Int) ∈ keyIndices (storeKeys n) argc := by
    rw [equal]
    refine List.mem_map.mpr ⟨64, ?_, rfl⟩
    simp only [List.mem_cons, List.mem_range'_1]
    omega
  by_cases before : (storeKeys n).last < 0 ∧ 2 < (argc : Int) + (storeKeys n).last + 1
  · have first : nextKey (storeKeys n) argc 1 = some 2 := nextKey_before before.1 before.2
    obtain ⟨fuel, rfl⟩ : ∃ fuel, argc = fuel + 1 := ⟨argc - 1, by omega⟩
    obtain ⟨n, rfl⟩ : ∃ less, n = less + 1 := ⟨n - 1, by omega⟩
    rw [keyIndices_storeKeys, enumerate_some first, enumerate, List.map_cons,
      List.range'_succ, List.map_cons] at equal
    simp at equal
  · by_cases negative : (storeKeys n).last < 0
    · rw [keyIndices_storeKeys_one (by omega) before] at member
      simp at member
    · rw [keyIndices_storeKeys] at member
      have isKey : ∀ i ∈ enumerate (nextKey (storeKeys n) argc) (argc + 1) 1,
          i = 1 ∨ (storeKeys n).stepMask.testBit (shiftCount i) := by
        refine forall_mem_enumerate ?_ (Or.inl rfl)
        intro i j more
        rw [nextKey_masked (storeKeys_masked _) (by omega)] at more
        exact Or.inr (skipKey_some more)
      rcases isKey 64 member with one | key
      · cases one
      · rw [not_key_64] at key
        cases key

/-- A negative number of sources counts the bits of a shift by its low six bits. -/
theorem not_consistentKeys_negative (lower : -3 ≤ nkeys) (negative : nkeys < 0)
    (enough : 4 ≤ msg.argc) : ¬ConsistentKeys cmd msg (storeKeys nkeys) := by
  intro consistent
  have count : calcKeyCount (storeKeys nkeys) msg.argc = 62 := by
    rw [calcKeyCount_storeKeys, shiftCount]
    omega
  have filled := consistent.filled
  rw [count] at filled
  obtain ⟨wraps, wrapped, small, large⟩ := toInt16_eq (2 + nkeys)
  have last : (storeKeys nkeys).last = 2 + nkeys := by
    simp only [storeKeys]
    omega
  by_cases third : nkeys = -3
  · subst third
    obtain ⟨n, argc⟩ : ∃ n, msg.argc = n + 2 := ⟨msg.argc - 2, by omega⟩
    rw [argc] at filled
    have follows : ∀ k < n, nextKey (storeKeys (-3)) (n + 2) (1 + (k : Nat)) =
        some (1 + ((k + 1 : Nat) : Int)) := by
      intro k before
      have next : (1 + (k : Nat) + (storeKeys (-3)).step : Int) = 1 + ((k + 1 : Nat) : Int) := by
        change (1 + (k : Nat) + 1 : Int) = _
        omega
      rw [nextKey_before (by omega) (by rw [next, last]; omega), next]
    have walk := enumerate_steps (fun k : Nat => (1 + k : Int)) follows 3
    have notBefore : ¬((storeKeys (-3)).last < 0 ∧ (1 + n : Int) + (storeKeys (-3)).step <
        ((n + 2 : Nat) : Int) + (storeKeys (-3)).last + 1) := by
      change ¬(_ ∧ (1 + n : Int) + 1 < _)
      omega
    have final := nextKey_masked (storeKeys_masked (-3)) notBefore
    have end_ : (1 + n : Int) + (storeKeys (-3)).step = (n + 2 : Nat) := by
      change (1 + n : Int) + 1 = _
      omega
    rw [end_] at final
    -- The mask repeats after 64 arguments and does not know the end of the message.
    by_cases key : (storeKeys (-3)).stepMask.testBit (shiftCount (n + 2 : Nat))
    · rw [skipKey_key key] at final
      have outside := consistent.valid (n + 2 : Nat) (by
        rw [keyIndices_storeKeys, argc]
        simp only [Nat.cast_zero, Int.add_zero] at walk
        rw [walk, enumerate_some final, enumerate]
        simp)
      omega
    · rw [skipKey_last (by simpa using key) (by rw [last]; omega)] at final
      simp only [Nat.cast_zero, Int.add_zero] at walk
      rw [keyIndices_storeKeys, walk, enumerate_none final] at filled
      simp only [List.length_append, List.length_map, List.length_range, List.length_cons,
        List.length_nil] at filled
      rw [testBit_storeKeys _ (shiftCount_lt _), decide_eq_true_eq, shiftCount, shiftCount] at key
      omega
  · rw [keyIndices_storeKeys_one (by omega) (by omega)] at filled
    simp at filled

/-- The keys of a store are consistent when its number of sources fits in the mask. -/
theorem consistentKeys_store (accepted : 0 ≤ 3 + nkeys ∧ 3 + nkeys ≤ msg.argc)
    (enough : 4 ≤ msg.argc)
    (grammar : ∀ keys, KeySyntax msg cmd keys ↔
      ∃ n : Nat, nkeys = n ∧ 0 < n ∧ keys = 1 :: List.range' 3 n) :
    ConsistentKeys cmd msg (storeKeys nkeys) ↔ 0 ≤ nkeys ∧ nkeys ≤ 61 := by
  constructor
  · intro consistent
    by_cases negative : nkeys < 0
    · exact absurd consistent (not_consistentKeys_negative (by omega) negative enough)
    · obtain ⟨n, rfl⟩ := Int.eq_ofNat_of_zero_le (not_lt.mp negative)
      refine ⟨by omega, ?_⟩
      by_contra many
      exact keyIndices_storeKeys_many (by omega) (by omega)
        (consistent.positions _ ((grammar _).mpr ⟨n, rfl, by omega, rfl⟩))
  · rintro ⟨nonneg, few⟩
    obtain ⟨n, rfl⟩ := Int.eq_ofNat_of_zero_le nonneg
    have keys : keyIndices (storeKeys n) msg.argc = (1 :: List.range' 3 n).map Nat.cast :=
      keyIndices_storeKeys_sources (by omega) (by omega)
    constructor
    · rw [keys, calcKeyCount_storeKeys, shiftCount_natCast (by omega)]
      simp only [List.map_cons, List.length_cons, List.length_map, List.length_range']
      omega
    · intro i member
      rw [keys] at member
      obtain ⟨k, inside, rfl⟩ := List.mem_map.mp member
      simp only [List.mem_cons, List.mem_range'_1] at inside
      omega
    · rw [keys]
      refine List.Nodup.map Nat.cast_injective (List.nodup_cons.mpr ⟨?_, List.nodup_range'⟩)
      simp only [List.mem_range'_1]
      omega
    · intro keys' inSyntax
      obtain ⟨n', same, -, rfl⟩ := (grammar keys').mp inSyntax
      rw [keys, Int.ofNat_inj.mp same]

end Store

section Radius

variable {cmd : RedisCmd} {msg : CommandMsg}

/-- The mask of a store holds the destination only, but the enumeration starts at the source. -/
theorem not_consistentKeys_radiusStore (enough : 1 ≤ msg.argc) :
    ¬ConsistentKeys cmd msg (radiusStoreKeys msg.argc) := by
  intro consistent
  have single : popcount (radiusStoreKeys msg.argc).stepMask = 1 := by
    have table : ∀ s < 64, popcount (1 <<< s) = 1 := by decide
    exact table _ (shiftCount_lt _)
  have masked : (radiusStoreKeys msg.argc).stepMask ≠ 0 := by
    intro zero
    rw [zero] at single
    cases single
  have second : ∃ i, nextKey (radiusStoreKeys msg.argc) msg.argc 1 = some i := by
    by_cases before : (radiusStoreKeys msg.argc).last < 0 ∧
        1 + (radiusStoreKeys msg.argc).step < msg.argc + (radiusStoreKeys msg.argc).last + 1
    · exact ⟨_, nextKey_before before.1 before.2⟩
    · refine ⟨_, (nextKey_masked masked before).trans (skipKey_key ?_)⟩
      -- The step leads from the first key to the last one, at least modulo the mask.
      obtain ⟨wraps, step, -, -⟩ := toInt16_eq (toInt16 (msg.argc - 1) - 1)
      have same : shiftCount (1 + (radiusStoreKeys msg.argc).step) =
          shiftCount (toInt16 (msg.argc - 1)) := by
        simp only [radiusStoreKeys, shiftCount, step]
        omega
      rw [same]
      simp only [radiusStoreKeys, bit, Nat.one_shiftLeft, Nat.testBit_two_pow_self]
  obtain ⟨i, second⟩ := second
  have keys : keyIndices (radiusStoreKeys msg.argc) msg.argc =
      1 :: enumerate (nextKey (radiusStoreKeys msg.argc) msg.argc) msg.argc i :=
    (if_pos Int.one_pos).trans (enumerate_some second _)
  obtain ⟨fuel, argc⟩ : ∃ fuel, msg.argc = fuel + 1 := ⟨msg.argc - 1, by omega⟩
  have filled := consistent.filled
  rw [calcKeyCount, if_pos masked, single, keys, List.length_cons] at filled
  rw [argc, enumerate] at filled
  simp at filled

/-- Without a store in the syntax the source is the only key. -/
theorem consistentKeys_radius (enough : 2 ≤ msg.argc) :
    ConsistentKeys cmd msg ⟨1, 1, 1, bit 1⟩ ↔ ∀ keys, KeySyntax msg cmd keys → keys = [1] := by
  have masked : (⟨1, 1, 1, bit 1⟩ : Geometry).stepMask ≠ 0 := by decide
  have ends : nextKey ⟨1, 1, 1, bit 1⟩ msg.argc 1 = none := by
    rw [nextKey_masked masked (by simp)]
    exact skipKey_last rfl (by simp)
  have keys : keyIndices ⟨1, 1, 1, bit 1⟩ msg.argc = [1] :=
    (if_pos Int.one_pos).trans (enumerate_none ends _)
  constructor
  · intro consistent keys' inSyntax
    have same : [1].map Nat.cast = keys'.map (Nat.cast : Nat → Int) := by
      rw [← consistent.positions keys' inSyntax, keys]
      rfl
    exact (List.map_injective_iff.mpr Nat.cast_injective same).symm
  · intro single
    constructor
    · rw [keys]
      rfl
    · rw [keys]
      simp only [List.mem_singleton, forall_eq]
      omega
    · rw [keys]
      exact List.nodup_singleton 1
    · intro keys' inSyntax
      rw [keys, single keys' inSyntax]
      rfl

end Radius

end Raids
