import Raids.Construction.Stream.Range
import Raids.Proof.Stream.Increasing
import Mathlib

namespace Raids

section Slice

variable {α : Type*} {l : List α} {p q : α → Bool} {x y : Nat}

/-- The elements between the first place of one condition and the last place of another one. -/
theorem filter_eq_slice (below : ∀ a ∈ l.take x, p a = false) (above : ∀ a ∈ l.drop x, p a = true)
    (inside : ∀ a ∈ l.take y, q a = true) (outside : ∀ a ∈ l.drop y, q a = false) :
    l.filter (fun a => p a && q a) = (l.drop x).take (y - x) := by
  by_cases order : x ≤ y
  · have middle : (l.drop x).take (y - x) = (l.take y).drop x := by
      rw [List.drop_take]
    have behind : (l.drop x).drop (y - x) = l.drop y := by
      rw [List.drop_drop, Nat.add_sub_cancel' order]
    have split : l = l.take x ++ ((l.drop x).take (y - x) ++ l.drop y) := by
      rw [← behind, List.take_append_drop, List.take_append_drop]
    have front : (l.take x).filter (fun a => p a && q a) = [] := by
      rw [List.filter_eq_nil_iff]
      intro a found
      rw [below a found]
      simp
    have back : (l.drop y).filter (fun a => p a && q a) = [] := by
      rw [List.filter_eq_nil_iff]
      intro a found
      rw [outside a found]
      simp
    have all : ((l.drop x).take (y - x)).filter (fun a => p a && q a) =
        (l.drop x).take (y - x) := by
      rw [List.filter_eq_self]
      intro a found
      rw [above a (List.mem_of_mem_take found)]
      rw [middle] at found
      rw [inside a (List.mem_of_mem_drop found)]
      rfl
    conv_lhs => rw [split]
    rw [List.filter_append, List.filter_append, front, back, all, List.append_nil, List.nil_append]
  · have none : l.filter (fun a => p a && q a) = [] := by
      rw [List.filter_eq_nil_iff]
      intro a found
      rw [← List.take_append_drop x l, List.mem_append] at found
      rcases found with front | back
      · rw [below a front]
        simp
      · have later : l.drop x = (l.drop y).drop (x - y) := by
          rw [List.drop_drop, Nat.add_sub_cancel' (by omega)]
        rw [later] at back
        rw [outside a (List.mem_of_mem_drop back)]
        simp
    rw [none, Nat.sub_eq_zero_of_le (by omega), List.take_zero]

end Slice

section Loop

variable (entries : List StreamEntry)

/-- A positive count is a limit. -/
def limited (maxcnt : Int) (items : List StreamEntry) : List StreamEntry :=
  if 0 < maxcnt then items.take maxcnt.toNat else items

theorem limited_nil (maxcnt : Int) : limited maxcnt [] = [] := by
  simp [limited]

/-- The limit counts each entry. -/
theorem limited_cons (maxcnt : Int) (entry : StreamEntry) (items : List StreamEntry) :
    limited maxcnt (entry :: items) =
      if 0 < maxcnt then
        if maxcnt - 1 = 0 then [entry] else entry :: limited (maxcnt - 1) items
      else entry :: limited maxcnt items := by
  by_cases positive : 0 < maxcnt
  · obtain ⟨n, rfl⟩ : ∃ n : Nat, maxcnt = n + 1 := ⟨(maxcnt - 1).toNat, by omega⟩
    have count : ((n : Int) + 1).toNat = n + 1 := by omega
    rw [limited, if_pos positive, if_pos positive, count, List.take_succ_cons]
    cases n with
    | zero => simp
    | succ n =>
        have more : (0 : Int) < (n + 1 : Nat) + 1 - 1 := by omega
        rw [if_neg (by omega), limited, if_pos more]
        simp
  · rw [limited, if_neg positive, if_neg positive, limited, if_neg positive]

/-- The range goes up through the entries that are left. -/
theorem xrangeUp_eq (left i : Nat) (maxcnt : Int) :
    xrangeUp entries left i maxcnt = limited maxcnt ((entries.drop i).take left) := by
  induction left generalizing i maxcnt with
  | zero => simp [xrangeUp, limited_nil]
  | succ left ih =>
      rw [xrangeUp]
      cases found : entries[i]? with
      | none =>
          have past : entries.length ≤ i := List.getElem?_eq_none_iff.mp found
          rw [ih, List.drop_eq_nil_of_le past, List.drop_eq_nil_of_le (by omega), List.take_nil,
            List.take_nil]
      | some entry =>
          obtain ⟨inside, same⟩ := List.getElem?_eq_some_iff.mp found
          rw [List.drop_eq_getElem_cons inside, same, List.take_succ_cons, limited_cons]
          simp only [ih]

/-- The range goes down through the entries that are left. -/
theorem xrangeDown_eq (j left : Nat) (maxcnt : Int) :
    xrangeDown entries j left maxcnt = limited maxcnt ((entries.drop j).take left).reverse := by
  induction left generalizing maxcnt with
  | zero => simp [xrangeDown, limited_nil]
  | succ left ih =>
      rw [xrangeDown, List.take_add_one, List.getElem?_drop]
      cases found : entries[j + left]? with
      | none =>
          rw [Option.toList_none, List.append_nil]
          exact ih maxcnt
      | some entry =>
          rw [Option.toList_some, List.reverse_append, List.reverse_singleton,
            List.singleton_append, limited_cons]
          simp only [ih]

end Loop

section Documented

/-- The id of an entry is below a bound, or at it. -/
def idBelow (lib : StreamData) (b : WithBot (WithTop StreamId)) (gt : Bool)
    (entry : StreamEntry) : Bool :=
  (lib.strToId entry.id).any fun sid => if gt then decide (↑↑sid ≤ b) else decide (↑↑sid < b)

/-- The id of an entry is between two bounds. -/
def inRange (lib : StreamData) (lo hi : WithBot (WithTop StreamId)) (entry : StreamEntry) : Bool :=
  (lib.strToId entry.id).any fun sid => decide (lo ≤ ↑↑sid ∧ ↑↑sid ≤ hi)

/-- What the ranges rely on: a dash is below all ids and a plus above them, the text of an id is
this id, and the place of a bound in increasing ids is behind all entries below it and no others. -/
structure StreamSearch.Documented (lib : StreamSearch)
    (bound : Bytes → Bool → Option (WithBot (WithTop StreamId))) : Prop where
  lowest : ∀ gt, bound (text "-") gt = some ⊥
  highest : ∀ gt, bound (text "+") gt = some ⊤
  bound_idText : ∀ (ms ser : UInt64) (gt : Bool), bound (idText ms ser) gt =
    some ↑(↑(toLex (ms.toNat, ser.toNat) : StreamId) : WithTop StreamId)
  search : ∀ key : StreamKey, key.Increasing lib.toStreamData → ∀ arg gt b,
    bound arg gt = some b → ∃ off, lib.bsearchStr key.value.entries arg gt = some off ∧
      (∀ entry ∈ key.value.entries.take off, idBelow lib.toStreamData b gt entry = true) ∧
      ∀ entry ∈ key.value.entries.drop off, idBelow lib.toStreamData b gt entry = false

end Documented

section Range

variable {lib : StreamSearch} {bound : Bytes → Bool → Option (WithBot (WithTop StreamId))}
  (documented : lib.Documented bound) {key : StreamKey}
  (sorted : key.Increasing lib.toStreamData) {start stop : Bytes}
  {lo hi : WithBot (WithTop StreamId)} (first : bound start false = some lo)
  (last : bound stop true = some hi)

/-- An entry with an id is in the range unless it is below the start or above the end. -/
theorem inRange_eq {entry : StreamEntry} {sid : StreamId}
    (parsed : lib.strToId entry.id = some sid) :
    inRange lib.toStreamData lo hi entry =
      (!idBelow lib.toStreamData lo false entry && idBelow lib.toStreamData hi true entry) := by
  rw [inRange, idBelow, idBelow, parsed]
  simp [Bool.decide_and, ← not_lt]

include sorted in
theorem exists_id {entry : StreamEntry} (found : entry ∈ key.value.entries) :
    ∃ sid, lib.strToId entry.id = some sid := by
  obtain ⟨ids, same, _⟩ := sorted
  have mapped : lib.strToId entry.id ∈ key.ids lib.toStreamData :=
    List.mem_map_of_mem found
  rw [same, List.mem_map] at mapped
  obtain ⟨sid, _, parsed⟩ := mapped
  exact ⟨sid, parsed.symm⟩

include documented sorted first last

/-- The entries between the two places are those of the range. -/
theorem slice_eq_filter : ∃ x y, lib.bsearchStr key.value.entries start false = some x ∧
    lib.bsearchStr key.value.entries stop true = some y ∧
    (key.value.entries.drop x).take (y - x) =
      key.value.entries.filter (inRange lib.toStreamData lo hi) := by
  obtain ⟨x, placeX, belowX, aboveX⟩ := documented.search key sorted start false lo first
  obtain ⟨y, placeY, belowY, aboveY⟩ := documented.search key sorted stop true hi last
  refine ⟨x, y, placeX, placeY, ?_⟩
  have slice := @filter_eq_slice _ key.value.entries
    (fun entry => !idBelow lib.toStreamData lo false entry)
    (idBelow lib.toStreamData hi true) x y
    (fun entry found => by rw [belowX entry found]; rfl)
    (fun entry found => by rw [aboveX entry found]; rfl) belowY aboveY
  rw [← slice]
  apply List.filter_congr
  intro entry found
  obtain ⟨sid, parsed⟩ := exists_id sorted found
  rw [inRange_eq parsed]

/-- The range upwards is the entries of the range, up to the count from their front. -/
theorem xrangeEntries_up (maxcnt : Int) :
    xrangeEntries lib .xrange key.value.entries ⟨start, stop, maxcnt⟩ =
      .entries (limited maxcnt (key.value.entries.filter (inRange lib.toStreamData lo hi))) := by
  obtain ⟨x, y, placeX, placeY, slice⟩ := slice_eq_filter documented sorted first last
  rw [xrangeEntries]
  simp only [if_true, placeX, placeY, xrangeUp_eq, slice]

/-- The range downwards is the reverse of these entries, up to the count from their back. -/
theorem xrangeEntries_down (maxcnt : Int) :
    xrangeEntries lib .xrevrange key.value.entries ⟨stop, start, maxcnt⟩ =
      .entries (limited maxcnt
        (key.value.entries.filter (inRange lib.toStreamData lo hi)).reverse) := by
  obtain ⟨x, y, placeX, placeY, slice⟩ := slice_eq_filter documented sorted first last
  have other : ¬RangeCmd.xrevrange = RangeCmd.xrange := by decide
  rw [xrangeEntries]
  simp only [if_neg other, placeX, placeY, xrangeDown_eq, slice]

end Range

section Trim

theorem streamLtrim_eq (maxlen : Nat) (entries : List StreamEntry) :
    streamLtrim maxlen entries = entries.rtake maxlen := by
  rw [streamLtrim, List.rtake]
  split
  · rfl
  · rw [Nat.sub_eq_zero_of_le (by omega), List.drop_zero]

variable {lib : StreamData} {env : StreamEnv} (granted : env.Granted) {key : StreamKey}
  {entries : List StreamEntry} (isStream : key.value = .stream entries)

include granted isStream

/-- A positive length keeps the last entries, and the reply counts the others. -/
theorem execXtrim_trims {msg : CommandMsg} {n j : Nat}
    (word : msg.matchArg 2 [text "maxlen"] ≠ 0) (length : lengthArg msg 3 = some (n, j))
    (positive : 0 < n) : execXtrim env msg key =
      (.int (entries.length - n), { key with value := .stream (entries.rtake n) }) := by
  have some : n ≠ 0 := Nat.ne_of_gt positive
  rw [execXtrim, if_neg word, length]
  simp only [if_neg some, isStream, getKeyWrite, granted.1, granted.2.1, if_true,
    StreamValue.entries, streamLtrim_eq]

/-- An entry that is added with a positive length is the last one of those that are kept. -/
theorem execXadd_trims {msg : CommandMsg} {args : XaddArgs} {idval : Bytes} {key' : StreamKey}
    (parsed : xaddArgs msg = some args) (positive : 0 < args.maxlen)
    (added : execXadd lib env msg key = (.string idval, key')) :
    key'.value = .stream ((entries ++ [StreamEntry.mk idval args.fields]).rtake args.maxlen) := by
  have typed : key.value ≠ .other := by
    rw [isStream]
    simp
  rw [execXadd_opened parsed granted.1 granted.2.1 typed, xaddEntry] at added
  cases taken : xaddId lib env.clock key.upd key.value.entries args.id with
  | error status =>
      rw [taken] at added
      simp at added
  | ok result =>
      rw [taken] at added
      simp only [xaddPush_granted granted, Prod.mk.injEq, StreamReply.string.injEq] at added
      obtain ⟨rfl, rfl⟩ := added
      simp only [XaddArgs.added, if_pos positive, isStream, StreamValue.entries, streamLtrim_eq]

end Trim

/-- On a stream of increasing ids both ranges are the entries of the range, from the front or from
the back up to a positive count, and a trim to a positive length keeps the last entries. -/
theorem streamRanges_meet (lib : StreamSearch)
    (bound : Bytes → Bool → Option (WithBot (WithTop StreamId)))
    (documented : lib.Documented bound) (env : StreamEnv) (granted : env.Granted)
    (key : StreamKey) (entries : List StreamEntry) (isStream : key.value = .stream entries)
    (sorted : key.Increasing lib.toStreamData) :
    (∀ msg rev start stop maxcnt lo hi, xrangeArgs msg = some ⟨start, stop, maxcnt⟩ →
      xrangeArgs rev = some ⟨stop, start, maxcnt⟩ → bound start false = some lo →
        bound stop true = some hi →
          execXrange lib env true .xrange msg key =
              .entries (limited maxcnt (entries.filter (inRange lib.toStreamData lo hi))) ∧
            execXrange lib env true .xrevrange rev key = .entries
              (limited maxcnt (entries.filter (inRange lib.toStreamData lo hi)).reverse)) ∧
      (∀ msg n j, msg.matchArg 2 [text "maxlen"] ≠ 0 → lengthArg msg 3 = some (n, j) → 0 < n →
        execXtrim env msg key =
          (.int (entries.length - n), { key with value := .stream (entries.rtake n) })) ∧
      ∀ msg args idval key', xaddArgs msg = some args → 0 < args.maxlen →
        execXadd lib.toStreamData env msg key = (.string idval, key') →
          key'.value = .stream ((entries ++ [StreamEntry.mk idval args.fields]).rtake args.maxlen) := by
  apply And.intro
  · intro msg rev start stop maxcnt lo hi parsed reversed first last
    have up := xrangeEntries_up documented sorted first last maxcnt
    have down := xrangeEntries_down documented sorted first last maxcnt
    have same : key.value.entries = entries := by
      rw [isStream]
      rfl
    have read : getKeyRead env key.value = some .keyOk := by
      rw [isStream, getKeyRead, if_pos granted.1]
    rw [same] at up down
    rw [execXrange, execXrange, parsed, reversed]
    simp only [read, granted.2.1, if_true, same, up, down, and_self]
  · apply And.intro
    · intro msg n j word length positive
      exact execXtrim_trims granted isStream word length positive
    · intro msg args idval key' parsed positive added
      exact execXadd_trims granted isStream parsed positive added

section Decimal

/-- The bound of a dash, of a plus, or of an id. -/
def decimalBound (arg : Bytes) (_ : Bool) : Option (WithBot (WithTop StreamId)) :=
  if arg = text "-" then some ⊥
  else if arg = text "+" then some ⊤
  else (decimalStrToId arg).map fun sid => ↑↑sid

/-- The place is found by a search from the front. -/
def decimalSearch : StreamSearch where
  toStreamData := decimalStreams
  bsearchStr entries arg gt :=
    (decimalBound arg gt).map fun b => (entries.takeWhile (idBelow decimalStreams b gt)).length

/-- Behind the first element that fails all fail where a failure is kept. -/
theorem forall_drop_takeWhile {α : Type*} {p : α → Bool} {l : List α}
    (keeps : l.Pairwise fun a b => p a = false → p b = false) :
    ∀ a ∈ l.drop (l.takeWhile p).length, p a = false := by
  induction l with
  | nil => simp
  | cons a l ih =>
      rw [List.pairwise_cons] at keeps
      cases front : p a with
      | true =>
          rw [List.takeWhile_cons_of_pos front, List.length_cons, List.drop_succ_cons]
          exact ih keeps.2
      | false =>
          rw [List.takeWhile_cons_of_neg (by simp [front])]
          intro other found
          rw [List.length_nil, List.drop_zero, List.mem_cons] at found
          rcases found with rfl | found
          · exact front
          · exact keeps.1 other found front

/-- In increasing ids the search from the front passes the entries below a bound and no others. -/
theorem search_takeWhile {key : StreamKey} (sorted : key.Increasing decimalStreams)
    (b : WithBot (WithTop StreamId)) (gt : Bool) :
    (∀ entry ∈ key.value.entries.take
        (key.value.entries.takeWhile (idBelow decimalStreams b gt)).length,
      idBelow decimalStreams b gt entry = true) ∧
    ∀ entry ∈ key.value.entries.drop
        (key.value.entries.takeWhile (idBelow decimalStreams b gt)).length,
      idBelow decimalStreams b gt entry = false := by
  constructor
  · rw [← List.prefix_iff_eq_take.mp (List.takeWhile_prefix _)]
    intro entry found
    exact List.mem_takeWhile_imp found
  · apply forall_drop_takeWhile
    obtain ⟨ids, same, increasing⟩ := sorted
    have pairs : (ids.map some).Pairwise fun first second =>
        ∃ sid sid2, first = some sid ∧ second = some sid2 ∧ sid < sid2 := by
      rw [List.pairwise_map]
      exact increasing.imp fun less => ⟨_, _, rfl, rfl, less⟩
    rw [← same, StreamKey.ids, List.pairwise_map] at pairs
    refine pairs.imp ?_
    rintro first second ⟨sid, sid2, parsed, parsed2, less⟩
    have below : (↑↑sid : WithBot (WithTop StreamId)) < ↑↑sid2 := by simpa using less
    rw [idBelow, idBelow, show decimalStreams.strToId first.id = some sid from parsed,
      show decimalStreams.strToId second.id = some sid2 from parsed2]
    cases gt with
    | false => simpa using fun above : b ≤ ↑↑sid => above.trans below.le
    | true => simpa using fun above : b < ↑↑sid => above.trans below

theorem decimalSearch_documented : decimalSearch.Documented decimalBound where
  lowest _ := rfl
  highest _ := rfl
  bound_idText ms ser gt := by
    have read := decimalStreams_documented.strToId_idText ms ser
    have long : 1 < (idText ms ser).length := by
      have some := List.length_pos_of_ne_nil (Decimal.decimal_ne_nil ms.toNat)
      rw [idText, List.length_append, List.length_cons, uint64ToString]
      omega
    have other : ∀ arg : Bytes, arg.length = 1 → idText ms ser ≠ arg := by
      rintro arg one rfl
      omega
    rw [decimalBound, if_neg (other _ rfl), if_neg (other _ rfl)]
    exact congrArg (Option.map _) read
  search key sorted arg gt b read := by
    have place : decimalSearch.bsearchStr key.value.entries arg gt =
        some (key.value.entries.takeWhile (idBelow decimalStreams b gt)).length := by
      show (decimalBound arg gt).map _ = _
      rw [read]
      rfl
    exact ⟨_, place, search_takeWhile sorted b gt⟩

/-- A stream of two entries. -/
def twoEntries (first second : String) : StreamKey :=
  { value := .stream [⟨text first, [text "a", text "1"]⟩, ⟨text second, [text "b", text "2"]⟩] }

/-- The message of some words. -/
def streamWords (words : List String) (fits : (commandWords words).length < 2 ^ 31 := by decide) :
    CommandMsg := ⟨commandWords words, fits⟩

theorem twoEntries_increasing : (twoEntries "1-1" "2-2").Increasing decimalStreams := by
  refine ⟨[toLex (1, 1), toLex (2, 2)], by decide, ?_⟩
  rw [List.pairwise_pair]
  decide

theorem streamRanges_meet_two :
    (execXrange decimalSearch { clock := 3 } true .xrange (streamWords ["xrange", "s", "-", "+"])
          (twoEntries "1-1" "2-2") =
        .entries (limited 0 ((twoEntries "1-1" "2-2").value.entries.filter
          (inRange decimalStreams ⊥ ⊤))) ∧
      execXrange decimalSearch { clock := 3 } true .xrevrange (streamWords ["xrevrange", "s", "+", "-"])
          (twoEntries "1-1" "2-2") =
        .entries (limited 0 ((twoEntries "1-1" "2-2").value.entries.filter
          (inRange decimalStreams ⊥ ⊤)).reverse)) ∧
      execXtrim { clock := 3 } (streamWords ["xtrim", "s", "maxlen", "1"]) (twoEntries "1-1" "2-2") =
        (.int 1, { twoEntries "1-1" "2-2" with
          value := .stream ((twoEntries "1-1" "2-2").value.entries.rtake 1) }) := by
  have meets := streamRanges_meet decimalSearch decimalBound decimalSearch_documented
    { clock := 3 }
    ⟨rfl, rfl, by simp⟩ (twoEntries "1-1" "2-2") _ rfl twoEntries_increasing
  apply And.intro
  · exact meets.1 _ _ (text "-") (text "+") 0 ⊥ ⊤ (by decide) (by decide) rfl rfl
  · exact meets.2.1 (streamWords ["xtrim", "s", "maxlen", "1"]) 1 4 (by decide) (by decide)
      (by decide)

/-- A count of zero does not limit, a length of zero does not trim, the reply of an `XADD` is its
id, and entries that are not in order are not found. -/
theorem not_streamRanges_meet :
    execXrange decimalSearch { clock := 3 } true .xrange
          (streamWords ["xrange", "s", "-", "+", "count", "0"]) (twoEntries "1-1" "2-2") =
        .entries (twoEntries "1-1" "2-2").value.entries ∧
      execXtrim { clock := 3 } (streamWords ["xtrim", "s", "maxlen", "0"])
          (twoEntries "1-1" "2-2") = (.int 0, twoEntries "1-1" "2-2") ∧
      (execXadd decimalStreams { clock := 3 }
          (streamWords ["xadd", "s", "maxlen", "1", "3-3", "c", "3"])
          (twoEntries "1-1" "2-2")).1 = .string (text "3-3") ∧
      execXrange decimalSearch { clock := 3 } true .xrange
          (streamWords ["xrange", "s", "0-0", "5-0"]) (twoEntries "9-5" "3-0") = .entries [] ∧
      decimalStrToId (text "3-0") = some (toLex (3, 0)) := by
  have read : xrangeArgs (streamWords ["xrange", "s", "-", "+", "count", "0"]) =
      some ⟨text "-", text "+", 0⟩ := by
    decide
  refine ⟨?_, by decide, by decide, by decide, by decide⟩
  rw [execXrange, read]
  decide

end Decimal

end Raids
