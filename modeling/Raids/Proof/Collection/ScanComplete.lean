import Raids.Proof.Collection.ScanArgs

namespace Raids

section Loop

variable {index : Nat → Option ScanElement} (re : Option (Bytes → Bool))
  (items : ScanElement → List Bytes) (maxcnt : Nat)

/-- The items of the elements that match. -/
def keptItems (re : Option (Bytes → Bool)) (items : ScanElement → List Bytes)
    (elements : List ScanElement) : List Bytes :=
  (elements.filter fun e => re.all (· e.name)).flatMap items

theorem keptItems_append (first second : List ScanElement) :
    keptItems re items (first ++ second) =
      keptItems re items first ++ keptItems re items second := by
  simp [keptItems]

/-- A page takes elements up to its stop, and at least one unless it is full or at the end. -/
theorem scanLoop_rest {rest : List ScanElement} {i : Nat}
    (slots : ∀ k, index (i + k) = rest[k]?) {fuel : Nat} (enough : rest.length ≤ fuel)
    (q : List Bytes) :
    ∃ k ≤ rest.length,
      scanLoop index re items (i + rest.length) maxcnt fuel i q =
        (i + k, q ++ keptItems re items (rest.take k)) ∧
      (rest ≠ [] → q.length < maxcnt → 0 < k) := by
  induction rest generalizing i fuel q with
  | nil =>
      refine ⟨0, le_refl _, ?_, fun nonempty => absurd rfl nonempty⟩
      cases fuel <;> simp [scanLoop, keptItems]
  | cons e rest ih =>
      obtain ⟨fuel, rfl⟩ : ∃ less, fuel = less + 1 := ⟨fuel - 1, by
        rw [List.length_cons] at enough
        omega⟩
      have inside : ¬i + (e :: rest).length ≤ i := by
        rw [List.length_cons]
        omega
      by_cases full : maxcnt ≠ 0 ∧ maxcnt ≤ q.length
      · refine ⟨0, Nat.zero_le _, ?_, fun _ room => by omega⟩
        simp [scanLoop, full, keptItems]
      · have here : index i = some e := slots 0
        have later : ∀ k, index (i + 1 + k) = rest[k]? := by
          intro k
          rw [show i + 1 + k = i + (k + 1) by omega, slots (k + 1)]
          rfl
        have fewer : rest.length ≤ fuel := by
          rw [List.length_cons] at enough
          omega
        have next := fun q => ih later fewer q
        rw [show i + 1 + rest.length = i + (e :: rest).length by
          rw [List.length_cons]; omega] at next
        have step : ∃ q', scanLoop index re items (i + (e :: rest).length) maxcnt (fuel + 1) i q =
            scanLoop index re items (i + (e :: rest).length) maxcnt fuel (i + 1) q' ∧
              q' = q ++ keptItems re items [e] := by
          rw [scanLoop, if_neg (not_or.mpr ⟨inside, full⟩), here]
          by_cases hit : re.all (· e.name) = true
          · exact ⟨q ++ items e, by simp only [if_pos hit], by simp [keptItems, hit]⟩
          · exact ⟨q, by simp only [if_neg hit], by simp [keptItems, hit]⟩
        obtain ⟨q', taken, same⟩ := step
        obtain ⟨k, bound, equal, -⟩ := next q'
        refine ⟨k + 1, by rw [List.length_cons]; omega, ?_, fun _ _ => by omega⟩
        have split := keptItems_append re items [e] (rest.take k)
        rw [List.singleton_append] at split
        rw [taken, equal, same, List.take_succ_cons, split, List.append_assoc,
          show i + 1 + k = i + (k + 1) by omega]

end Loop

/-- A client follows the cursors until one is zero. -/
def followScan (call : Nat → ScanReply) : Nat → Nat → Option (List Bytes)
  | 0, _ => none
  | calls + 1, cursor =>
      match call cursor with
      | .status _ => none
      | .page next items =>
          if next = 0 then some items else (followScan call calls next).map (items ++ ·)

/-- A client that only gets the cursor one never ends. -/
theorem followScan_stuck {call : Nat → ScanReply}
    (stuck : ∀ cursor ≤ 1, call cursor = .page 1 []) (calls cursor : Nat) (start : cursor ≤ 1) :
    followScan call calls cursor = none := by
  induction calls generalizing cursor with
  | zero => rfl
  | succ calls ih =>
      rw [followScan, stuck cursor start]
      simp only [if_neg Nat.one_ne_zero, ih 1 (le_refl _), Option.map_none]

section Follow

variable {index : Nat → Option ScanElement} (re : Option (Bytes → Bool))
  (items : ScanElement → List Bytes) {maxcnt base : Nat} {elements : List ScanElement}
  {call : Nat → ScanReply}

/-- The position of a cursor; zero stands for the first one. -/
def scanPosition (base cursor : Nat) : Nat := if cursor = 0 then base else cursor

theorem cursor_le_position {cursor skipped : Nat}
    (position : scanPosition base cursor = base + skipped) (inside : skipped ≤ elements.length) :
    cursor ≤ base + elements.length := by
  unfold scanPosition at position
  split at position <;> omega

/-- A call returns some elements behind its cursor, and at least one if there is any. -/
theorem scanPage (slots : ∀ k, index (base + k) = elements[k]?) (positive : 0 < maxcnt)
    {skipped : Nat} (inside : skipped ≤ elements.length) :
    ∃ k ≤ elements.length - skipped,
      scanLoop index re items (base + elements.length) maxcnt (base + elements.length)
          (base + skipped) [] =
        (base + (skipped + k), keptItems re items ((elements.drop skipped).take k)) ∧
      (skipped < elements.length → 0 < k) := by
  have later : ∀ k, index (base + skipped + k) = (elements.drop skipped)[k]? := by
    intro k
    rw [Nat.add_assoc, slots, List.getElem?_drop]
  obtain ⟨k, bound, equal, moves⟩ := scanLoop_rest re items maxcnt later
    (show (elements.drop skipped).length ≤ base + elements.length by rw [List.length_drop]; omega) []
  rw [List.length_drop] at bound equal
  refine ⟨k, bound, ?_, fun more => moves ?_ positive⟩
  · rw [show base + skipped + (elements.length - skipped) = base + elements.length by omega] at equal
    rw [equal, Nat.add_assoc, List.nil_append]
  · intro empty
    rw [List.drop_eq_nil_iff] at empty
    omega

/-- The calls from a cursor on return the rest of the collection. -/
theorem followScan_rest (slots : ∀ k, index (base + k) = elements[k]?) (positive : 0 < maxcnt)
    (calls : ∀ cursor ≤ base + elements.length,
      call cursor = prependCursorArray (base + elements.length)
        (scanLoop index re items (base + elements.length) maxcnt (base + elements.length)
          (scanPosition base cursor) []))
    (n cursor skipped : Nat) (position : scanPosition base cursor = base + skipped)
    (inside : skipped ≤ elements.length) (size : elements.length - skipped ≤ n) :
    ∃ count, followScan call count cursor = some (keptItems re items (elements.drop skipped)) := by
  induction n generalizing cursor skipped with
  | zero =>
      obtain ⟨k, bound, page, moves⟩ := scanPage re items slots positive inside
      have reply := calls cursor (cursor_le_position position inside)
      have none : k = 0 := by omega
      rw [position, page, prependCursorArray, none, if_pos (by omega)] at reply
      refine ⟨1, ?_⟩
      have empty : elements.drop skipped = [] := List.drop_eq_nil_iff.mpr (by omega)
      simp only [followScan, reply, if_true, empty, List.take_zero]
  | succ n ih =>
      obtain ⟨k, bound, page, moves⟩ := scanPage re items slots positive inside
      have reply := calls cursor (cursor_le_position position inside)
      rw [position, page, prependCursorArray] at reply
      by_cases last : skipped + k = elements.length
      · refine ⟨1, ?_⟩
        have whole : (elements.drop skipped).take k = elements.drop skipped :=
          List.take_of_length_le (by rw [List.length_drop]; omega)
        rw [if_pos (by rw [last]), whole] at reply
        simp only [followScan, reply, if_true]
      · have more : 0 < k := moves (by omega)
        have next : scanPosition base (base + (skipped + k)) = base + (skipped + k) := by
          rw [scanPosition, if_neg (by omega)]
        obtain ⟨count, rest⟩ := ih (base + (skipped + k)) (skipped + k) next (by omega) (by omega)
        refine ⟨count + 1, ?_⟩
        rw [if_neg (by omega)] at reply
        simp only [followScan, reply, if_neg (show base + (skipped + k) ≠ 0 by omega), rest,
          Option.map_some]
        rw [← keptItems_append, ← List.drop_drop, List.take_append_drop]

end Follow

/-- The items that a command returns for an element. -/
def ScanCmd.items : ScanCmd → ScanElement → List Bytes
  | .sscan => fun e => [e.name]
  | _ => fun e => [e.name, e.data]

/-- The first position of a command. -/
def ScanCmd.base : ScanCmd → Nat
  | .hscan => 1
  | _ => 0

/-- What a command finds: a collection, or no key. -/
def scanKey (content : Option Collection) : ScanKey := content.elim .missing .stored

theorem zero_small : 0 < 2 ^ 63 := by omega

theorem toSize_natCast {n : Nat} (small : n < 2 ^ 64) : toSize n = n := by
  unfold toSize
  omega

namespace ScanRequest

variable (compile : Bytes → Option (Bytes → Bool)) (req : ScanRequest)

/-- The patterns have bytes, and the one that counts compiles. -/
def Accepted : Prop :=
  req.options.all ScanOption.filled = true ∧
    ∀ pattern ∈ req.settings.1, (compile pattern).isSome = true

/-- The pattern of the request. -/
def re : Option (Bytes → Bool) := req.settings.1.bind compile

/-- A page counts the fields and the values. -/
def pageSize : Nat :=
  match req.cmd with
  | .sscan => toSize req.settings.2
  | _ => toSize (req.settings.2 * 2)

/-- The calls of the request from cursor zero on end, and their pages hold the items of each
matching element once, and nothing else. -/
def Complete (content : Option Collection) : Prop :=
  ∃ calls,
    followScan (fun cursor => execScan compile req.cmd (req.message cursor) (scanKey content))
        calls 0 =
      some (keptItems (req.re compile) req.cmd.items (content.elim [] (·.elements)))

/-- The page size is positive and fits in an int64. -/
theorem settings_bounds : 0 < req.settings.2 ∧ req.settings.2 < 2 ^ 63 := by
  have general : ∀ (options : List ScanOption) (before : Option Bytes × Int),
      0 < before.2 ∧ before.2 < 2 ^ 63 →
        0 < (options.foldl ScanOption.set before).2 ∧
          (options.foldl ScanOption.set before).2 < 2 ^ 63 := by
    intro options
    induction options with
    | nil => exact fun before bounds => bounds
    | cons option options ih =>
        intro before bounds
        apply ih
        cases option with
        | pattern bytes fits => exact bounds
        | count n positive fits =>
            simp only [ScanOption.set]
            omega
  exact general req.options (none, 10) (by decide)

/-- A page has room. -/
theorem pageSize_pos : 0 < req.pageSize := by
  have bounds := req.settings_bounds
  unfold pageSize toSize
  cases req.cmd <;> simp only <;> omega

variable {compile} {req}

/-- An accepted request reads its arguments. -/
theorem scanArgs_accepted (accepted : req.Accepted compile) (cursor : Nat) :
    req.scanArgs compile cursor = some ⟨cursor, req.settings.2, req.re compile⟩ := by
  obtain ⟨filled, compiles⟩ := accepted
  unfold scanArgs re
  rw [if_pos filled]
  cases found : req.settings with
  | mk pattern maxcnt =>
      rw [found] at compiles
      cases pattern with
      | none => rfl
      | some pattern =>
          obtain ⟨re, compiled⟩ := Option.isSome_iff_exists.mp (compiles pattern rfl)
          simp [compiled]

/-- A request that is not accepted has no arguments. -/
theorem scanArgs_refused (refused : ¬req.Accepted compile) (cursor : Nat) :
    req.scanArgs compile cursor = none := by
  unfold scanArgs
  by_cases filled : req.options.all ScanOption.filled = true
  · rw [if_pos filled]
    cases found : req.settings with
    | mk pattern maxcnt =>
        cases pattern with
        | none =>
            exfalso
            apply refused
            exact ⟨filled, fun pattern member => by rw [found] at member; cases member⟩
        | some pattern =>
            cases compiled : compile pattern with
            | none => simp [compiled]
            | some re =>
                exfalso
                apply refused
                refine ⟨filled, fun other member => ?_⟩
                rw [found] at member
                cases member
                rw [compiled]
                rfl
  · rw [if_neg filled]

/-- The message of a call has the cursor as its position. -/
theorem execScan_accepted (accepted : req.Accepted compile) {cursor : Nat}
    (small : cursor < 2 ^ 63) (key : ScanKey) :
    execScan compile req.cmd (req.message cursor) key =
      doMultiscan req.cmd key ⟨cursor, req.settings.2, req.re compile⟩ := by
  rw [execScan, matchScanArgs_message req compile small, scanArgs_accepted accepted]

/-- The first position of a call. -/
theorem first_position {cursor base : Nat} (small : cursor < 2 ^ 63) :
    (if 0 < (cursor : Int) then toSize cursor else base) = scanPosition base cursor := by
  unfold scanPosition
  by_cases start : cursor = 0
  · rw [if_neg (by omega), if_pos start]
  · rw [if_pos (by omega), if_neg start, toSize_natCast (by omega)]

/-- A call of an accepted request on a collection runs the loop from its position. -/
theorem execScan_stored (accepted : req.Accepted compile) (c : Collection) {cursor : Nat}
    (inside : cursor ≤ req.cmd.base + c.elements.length) :
    execScan compile req.cmd (req.message cursor) (.stored c) =
      prependCursorArray (req.cmd.base + c.elements.length)
        (scanLoop (fun i => c.lindex (i + 1 - req.cmd.base)) (req.re compile) req.cmd.items
          (req.cmd.base + c.elements.length) req.pageSize
          (req.cmd.base + c.elements.length) (scanPosition req.cmd.base cursor) []) := by
  have bound := c.fits
  have small : cursor < 2 ^ 63 := by
    cases found : req.cmd <;> rw [found] at inside <;> simp only [ScanCmd.base] at inside <;> omega
  rw [execScan_accepted accepted small]
  unfold pageSize
  cases found : req.cmd with
  | hscan =>
      simp only [doMultiscan, doHmultiscan, ScanCmd.base, first_position small, Collection.count,
        Nat.add_sub_cancel, Nat.add_comm 1]
      rfl
  | sscan =>
      rw [found] at inside
      simp only [ScanCmd.base, Nat.zero_add] at inside
      simp only [doMultiscan, doSmultiscan, ScanCmd.base, first_position small, Collection.hcount,
        Nat.zero_add, Nat.sub_zero]
      by_cases empty : c.elements.length = 0
      · rw [if_pos empty, empty]
        rfl
      · rw [if_neg empty]
        rfl
  | zscan =>
      rw [found] at inside
      simp only [ScanCmd.base, Nat.zero_add] at inside
      simp only [doMultiscan, doZmultiscan, ScanCmd.base, first_position small, Collection.hcount,
        Nat.zero_add, Nat.sub_zero]
      by_cases empty : c.elements.length = 0
      · rw [if_pos empty, empty]
        rfl
      · rw [if_neg empty]
        rfl

/-- An accepted request on a collection is complete. -/
theorem complete_stored (accepted : req.Accepted compile) (c : Collection) :
    req.Complete compile (some c) := by
  have slots : ∀ k, (fun i => c.lindex (i + 1 - req.cmd.base)) (req.cmd.base + k) =
      c.elements[k]? := by
    intro k
    show c.lindex (req.cmd.base + k + 1 - req.cmd.base) = _
    rw [show req.cmd.base + k + 1 - req.cmd.base = k + 1 by omega]
    rfl
  obtain ⟨calls, rest⟩ := followScan_rest (req.re compile) req.cmd.items slots
    (req.pageSize_pos) (fun cursor inside => execScan_stored accepted c inside)
    c.elements.length 0 0 rfl (Nat.zero_le _) (le_refl _)
  exact ⟨calls, rest⟩

/-- A scan of no key ends at once, when its first position is zero. -/
theorem complete_missing (accepted : req.Accepted compile) (other : req.cmd ≠ .hscan) :
    req.Complete compile none := by
  refine ⟨1, ?_⟩
  simp only [followScan]
  rw [execScan_accepted accepted zero_small]
  cases found : req.cmd with
  | hscan => exact absurd found other
  | sscan => rfl
  | zscan => rfl

/-- A hash scan of no key replies the cursor one. -/
theorem hscan_missing (accepted : req.Accepted compile) (hash : req.cmd = .hscan) {cursor : Nat}
    (start : cursor ≤ 1) :
    execScan compile req.cmd (req.message cursor) .missing = .page 1 [] := by
  have small : cursor < 2 ^ 63 := by omega
  have one : scanPosition 1 cursor = 1 := by
    unfold scanPosition
    split <;> omega
  rw [execScan_accepted accepted small, hash]
  simp only [doMultiscan, doHmultiscan, first_position small, prependCursorArray, one]
  rfl

/-- A hash scan of no key never ends. -/
theorem not_complete_hscan_missing (accepted : req.Accepted compile) (hash : req.cmd = .hscan) :
    ¬req.Complete compile none := by
  rintro ⟨calls, complete⟩
  have endless := followScan_stuck (fun cursor start => hscan_missing accepted hash start) calls 0
    (Nat.zero_le _)
  rw [scanKey, Option.elim_none, endless] at complete
  cases complete

/-- A request that is not accepted has an error reply. -/
theorem not_complete_refused (refused : ¬req.Accepted compile) (content : Option Collection) :
    ¬req.Complete compile content := by
  rintro ⟨calls, complete⟩
  have reply : ∀ key, execScan compile req.cmd (req.message 0) key = .status .errBadArgs := by
    intro key
    rw [execScan, matchScanArgs_message req compile zero_small, scanArgs_refused refused]
  cases calls with
  | zero => cases complete
  | succ calls =>
      simp only [followScan, reply] at complete
      cases complete

end ScanRequest

/-- The scan of a collection or of no key is complete, when its arguments are accepted and it does
not look for the fields of no key. -/
theorem scanComplete_iff (compile : Bytes → Option (Bytes → Bool)) (req : ScanRequest)
    (content : Option Collection) :
    req.Complete compile content ↔
      req.Accepted compile ∧ ¬(req.cmd = .hscan ∧ content = none) := by
  by_cases accepted : req.Accepted compile
  · cases content with
    | none =>
        by_cases hash : req.cmd = .hscan
        · have endless := ScanRequest.not_complete_hscan_missing accepted hash
          simp [endless, hash]
        · have ends := ScanRequest.complete_missing accepted hash
          simp [ends, accepted, hash]
    | some c =>
        have ends := ScanRequest.complete_stored accepted c
        simp [ends, accepted]
  · have refused := ScanRequest.not_complete_refused accepted content
    simp [refused, accepted]

/-- `HSCAN key 0` for a key that does not exist. -/
def scanOfNoKey : ScanRequest := ⟨.hscan, text "key", [], by decide⟩

/-- The cursors of `HSCAN` for a key that does not exist never reach zero. -/
theorem not_scanComplete_hscan_missing :
    ¬∀ (compile : Bytes → Option (Bytes → Bool)) (req : ScanRequest)
        (content : Option Collection), req.Accepted compile → req.Complete compile content := by
  intro complete
  have accepted : scanOfNoKey.Accepted fun _ => none := ⟨rfl, fun pattern member => by cases member⟩
  exact ScanRequest.not_complete_hscan_missing accepted rfl
    (complete (fun _ => none) scanOfNoKey none accepted)

section Table

variable (re : Option (Bytes → Bool))

/-- A walk with a positive count reads some slots and takes what matches there. It ends at the last
slot, or stops at the last one that it reads. -/
theorem scanKeysLoop_page (slots : List (Option Bytes)) (pos : Nat) {maxcnt : Int}
    (positive : 0 < maxcnt) (q : List Bytes) :
    ∃ k ≤ slots.length, ∃ stop : Nat, ∃ left : Int, 0 ≤ left ∧
      scanKeysLoop re slots pos maxcnt q =
        (stop, left, q ++ (slots.take k).filterMap (slotHit re)) ∧
      (k = slots.length ∧ stop = pos + k ∨ 0 < k ∧ stop + 1 = pos + k) := by
  induction slots generalizing pos maxcnt q with
  | nil => exact ⟨0, le_refl _, pos, maxcnt, positive.le, by simp [scanKeysLoop], by simp⟩
  | cons slot slots ih =>
      cases hit : slotHit re slot with
      | none =>
          obtain ⟨k, bound, stop, left, rest, walk, ends⟩ := ih (pos + 1) positive q
          have further : k + 1 ≤ (slot :: slots).length := by
            rw [List.length_cons]
            omega
          have step : scanKeysLoop re (slot :: slots) pos maxcnt q =
              scanKeysLoop re slots (pos + 1) maxcnt q := by
            simp only [scanKeysLoop, hit]
          refine ⟨k + 1, further, stop, left, rest, ?_, ?_⟩
          · rw [step, walk, List.take_succ_cons, List.filterMap_cons_none hit]
          · rw [List.length_cons]
            omega
      | some key =>
          by_cases full : maxcnt - 1 = 0
          · have step : scanKeysLoop re (slot :: slots) pos maxcnt q =
                (pos, maxcnt - 1, q ++ [key]) := by
              simp only [scanKeysLoop, hit, if_pos full]
            refine ⟨1, by simp, pos, maxcnt - 1, full.ge, ?_, Or.inr ⟨one_pos, rfl⟩⟩
            rw [step, List.take_succ_cons, List.take_zero, List.filterMap_cons_some hit,
              List.filterMap_nil]
          · obtain ⟨k, bound, stop, left, rest, walk, ends⟩ :=
              ih (pos + 1) (show 0 < maxcnt - 1 by omega) (q ++ [key])
            have further : k + 1 ≤ (slot :: slots).length := by
              rw [List.length_cons]
              omega
            have step : scanKeysLoop re (slot :: slots) pos maxcnt q =
                scanKeysLoop re slots (pos + 1) (maxcnt - 1) (q ++ [key]) := by
              simp only [scanKeysLoop, hit, if_neg full]
            refine ⟨k + 1, further, stop, left, rest, ?_, ?_⟩
            · rw [step, walk, List.take_succ_cons, List.filterMap_cons_some hit,
                List.append_assoc, List.singleton_append]
            · rw [List.length_cons]
              omega

/-- A walk without a positive count reads every slot. -/
theorem scanKeysLoop_whole (slots : List (Option Bytes)) (pos : Nat) {maxcnt : Int}
    (unlimited : maxcnt ≤ 0) (q : List Bytes) :
    ∃ left ≤ maxcnt, scanKeysLoop re slots pos maxcnt q =
      (pos + slots.length, left, q ++ slots.filterMap (slotHit re)) := by
  induction slots generalizing pos maxcnt q with
  | nil => exact ⟨maxcnt, le_refl _, by simp [scanKeysLoop]⟩
  | cons slot slots ih =>
      have length : pos + 1 + slots.length = pos + (slot :: slots).length := by
        rw [List.length_cons]
        omega
      cases hit : slotHit re slot with
      | none =>
          obtain ⟨left, less, walk⟩ := ih (pos + 1) unlimited q
          refine ⟨left, less, ?_⟩
          rw [scanKeysLoop, hit, List.filterMap_cons_none hit]
          rw [walk, length]
      | some key =>
          obtain ⟨left, less, walk⟩ := ih (pos + 1) (show maxcnt - 1 ≤ 0 by omega) (q ++ [key])
          refine ⟨left, by omega, ?_⟩
          rw [scanKeysLoop, hit, List.filterMap_cons_some hit]
          simp only [if_neg (show ¬maxcnt - 1 = 0 by omega)]
          rw [walk, length, List.append_assoc, List.singleton_append]

variable (table : KeyTable)

/-- A page holds what matches in the slots from its cursor to the next one, and the cursor behind
the last slot is zero. -/
theorem scanKeys_page {maxcnt : Int} (positive : 0 < maxcnt) {cursor : Nat}
    (inside : cursor ≤ table.slots.length) :
    ∃ k, cursor + k ≤ table.slots.length ∧ ∃ next,
      scanKeys table ⟨cursor, maxcnt, re⟩ =
        .page next (((table.slots.drop cursor).take k).filterMap (slotHit re)) ∧
      (next = 0 ∧ cursor + k = table.slots.length ∨ next = cursor + k ∧ 0 < k) := by
  have fits := table.fits
  have start : toSize (cursor : Int) = cursor := toSize_natCast (by omega)
  obtain ⟨k, bound, stop, left, rest, walk, ends⟩ :=
    scanKeysLoop_page re (table.slots.drop cursor) cursor positive []
  rw [List.length_drop] at bound ends
  have page : scanKeys table ⟨cursor, maxcnt, re⟩ =
      .page (if stop = table.slots.length then 0 else toSize ((stop : Int) + 1))
        (((table.slots.drop cursor).take k).filterMap (slotHit re)) := by
    simp only [scanKeys, start, walk, if_pos rest, List.nil_append]
  refine ⟨k, by omega, _, page, ?_⟩
  rcases ends with ⟨whole, last⟩ | ⟨some, last⟩
  · exact Or.inl ⟨if_pos (by omega), by omega⟩
  · have next : toSize ((stop : Int) + 1) = stop + 1 :=
      toSize_natCast (n := stop + 1) (by omega)
    rw [if_neg (by omega), next]
    exact Or.inr ⟨last, some⟩

/-- A walk without a count holds what matches in the whole table. -/
theorem scanKeys_whole : scanKeys table ⟨0, -1, re⟩ = .array (table.slots.filterMap (slotHit re)) := by
  obtain ⟨left, less, walk⟩ :=
    scanKeysLoop_whole re table.slots 0 (show (-1 : Int) ≤ 0 by decide) []
  have zero : toSize 0 = 0 := rfl
  simp only [scanKeys, zero, List.drop_zero, walk, if_neg (show ¬0 ≤ left by omega), List.nil_append]

end Table

/-- A client follows the cursors of a table that may change between its calls. -/
def followKeys (call : Nat → Nat → KeysReply) : Nat → Nat → Nat → Option (List Bytes)
  | 0, _, _ => none
  | calls + 1, k, cursor =>
      match call k cursor with
      | .page next keys =>
          if next = 0 then some keys
          else (followKeys call calls (k + 1) next).map (keys ++ ·)
      | _ => none

section FollowKeys

variable {size : Nat} {tables : Nat → KeyTable} (sizes : ∀ k, (tables k).slots.length = size)
  {maxcnt : Nat → Int} (positive : ∀ k, 0 < maxcnt k) (re : Nat → Option (Bytes → Bool))
  {call : Nat → Nat → KeysReply}
  (calls : ∀ k, ∀ cursor ≤ size, call k cursor = scanKeys (tables k) ⟨cursor, maxcnt k, re k⟩)

/-- What call `k` finds in slot `s`. -/
def slotAt (tables : Nat → KeyTable) (re : Nat → Option (Bytes → Bool)) (k s : Nat) :
    Option Bytes :=
  ((tables k).slots[s]?).bind (slotHit (re k))

include sizes in
/-- A part of the slots is read slot by slot. -/
theorem filterMap_slots {k cursor count : Nat} (inside : cursor + count ≤ size) :
    (((tables k).slots.drop cursor).take count).filterMap (slotHit (re k)) =
      (List.range' cursor count).filterMap (slotAt tables re k) := by
  induction count generalizing cursor with
  | zero => rfl
  | succ count ih =>
      have here : cursor < (tables k).slots.length := by
        rw [sizes]
        omega
      have slot : slotAt tables re k cursor = slotHit (re k) (tables k).slots[cursor] := by
        rw [slotAt, List.getElem?_eq_getElem here, Option.bind_some]
      rw [List.drop_eq_getElem_cons here, List.take_succ_cons, List.range'_succ,
        List.filterMap_cons, List.filterMap_cons, ih (by omega), slot]

include sizes positive calls in
/-- The calls from a cursor on read each later slot once, one call behind the other. -/
theorem followKeys_rest (fuel k cursor : Nat) (inside : cursor ≤ size)
    (enough : size - cursor < fuel) (early : k ≤ cursor) :
    ∃ visit : Nat → Nat, Monotone visit ∧ (∀ s, k ≤ visit s) ∧ (∀ s, cursor ≤ s → visit s ≤ s) ∧
      followKeys call fuel k cursor =
        some ((List.range' cursor (size - cursor)).filterMap fun s =>
          slotAt tables re (visit s) s) := by
  induction fuel generalizing k cursor with
  | zero => omega
  | succ fuel ih =>
      have within : cursor ≤ (tables k).slots.length := by
        rw [sizes]
        exact inside
      obtain ⟨count, bound, next, page, ends⟩ :=
        scanKeys_page (re k) (tables k) (positive k) within
      rw [sizes] at bound ends
      rw [filterMap_slots sizes re bound, ← calls k cursor inside] at page
      rcases ends with ⟨zero, last⟩ | ⟨behind, some⟩
      · refine ⟨fun _ => k, monotone_const, fun _ => le_refl _, fun s later => early.trans later, ?_⟩
        rw [followKeys, page]
        simp only [if_pos zero, show size - cursor = count by omega]
      · obtain ⟨visit, ordered, late, soon, rest⟩ :=
          ih (k + 1) next (by omega) (by omega) (by omega)
        refine ⟨fun s => if s < next then k else visit s, ?_, ?_, ?_, ?_⟩
        · intro s t before
          have order := ordered before
          have first := late t
          simp only
          split <;> split <;> omega
        · intro s
          have first := late s
          simp only
          split <;> omega
        · intro s later
          simp only
          split
          · omega
          · exact soon s (by omega)
        · rw [followKeys, page]
          simp only [if_neg (show ¬next = 0 by omega), rest, Option.map_some, Option.some.injEq]
          have parts : List.range' cursor (size - cursor) =
              List.range' cursor count ++ List.range' next (size - next) := by
            rw [behind, show size - cursor = count + (size - (cursor + count)) by omega]
            simp
          rw [parts, List.filterMap_append]
          congr 1
          · apply List.filterMap_congr
            intro s member
            rw [List.mem_range'_1] at member
            rw [if_pos (by omega)]
          · apply List.filterMap_congr
            intro s member
            rw [List.mem_range'_1] at member
            rw [if_neg (by omega)]

end FollowKeys

namespace ScanRequest

variable (compile : Bytes → Option (Bytes → Bool)) (req : ScanRequest)

/-- The message of one call on the whole table, with the same options. -/
def tableMessage (cursor : Nat) : CommandMsg where
  args := [mkStr (text "scan"), mkStr (int64ToString cursor)] ++ req.options.flatMap ScanOption.args
  fits := by
    have fits := req.fits
    rw [List.length_append, length_options, List.length_cons, List.length_singleton]
    omega

variable {compile} {req}

/-- A call on the whole table reads back its cursor and the options. -/
theorem execScanKeys_accepted (accepted : req.Accepted compile) {cursor : Nat}
    (small : cursor < 2 ^ 63) (table : KeyTable) :
    execScanKeys compile (req.tableMessage cursor) table =
      scanKeys table ⟨cursor, req.settings.2, req.re compile⟩ := by
  have second : (req.tableMessage cursor).args[1]? = some (mkStr (int64ToString cursor)) := by
    simp [tableMessage]
  have pos : (req.tableMessage cursor).getArgInt 1 = some (cursor : Int) :=
    getArgInt_int64ToString second small
  have enough : req.options.length < (req.tableMessage cursor).argc + 1 := by
    simp only [CommandMsg.argc, tableMessage, List.length_append, length_options]
    omega
  have options := scanOptions_eq (req.tableMessage cursor) req.options _ rfl _ enough none 10
  have read := scanArgs_accepted accepted cursor
  have same : matchScanArgs compile (req.tableMessage cursor) 1 = req.scanArgs compile cursor := by
    rw [List.length_cons, List.length_singleton] at options
    rw [matchScanArgs, pos, scanArgs, settings, options]
    cases req.options.all ScanOption.filled with
    | false => rfl
    | true =>
        simp only [if_true]
        cases List.foldl ScanOption.set (none, (10 : Int)) req.options with
        | mk pattern maxcnt => cases pattern <;> simp
  rw [execScanKeys, same, read]

end ScanRequest

section Complete

variable (compile : Bytes → Option (Bytes → Bool)) (tables : Nat → KeyTable)
  (scans : Nat → ScanRequest)

/-- What call `k` finds in slot `s`. -/
def scanHit (k s : Nat) : Option Bytes := slotAt tables (fun k => (scans k).re compile) k s

/-- A client that scans a table from cursor zero on. Other clients may change the table between
two calls, and each call has a pattern and a count of its own. The calls end, each slot is read by
one of them, and they read the slots in order. A key that stays in its slot is returned once, and
without changes the keys are those of `KEYS`. -/
structure ScansOnce (size : Nat) (keys : List Bytes) : Prop where
  visits : ∃ visit : Nat → Nat, Monotone visit ∧ (∀ s, visit s ≤ s) ∧
    keys = (List.range size).filterMap fun s => scanHit compile tables scans (visit s) s
  stays : ∀ key s, s < size → (∀ k, scanHit compile tables scans k s = some key) →
    (∀ k t, t ≠ s → scanHit compile tables scans k t ≠ some key) → keys.count key = 1
  absent : ∀ key, (∀ k s, scanHit compile tables scans k s ≠ some key) → key ∉ keys
  agrees : ∀ table msg pattern, msg.getArgStr 1 = some pattern → (∀ k, tables k = table) →
    (∀ k, (scans k).settings.1 = if pattern = text "*" then none else some pattern) →
      execKeys compile msg table = .array keys

variable {compile tables scans} {size : Nat}

/-- A key that one slot holds throughout is counted once. -/
theorem count_visits {visit : Nat → Nat} {key : Bytes} {s : Nat} (inside : s < size)
    (stays : ∀ k, scanHit compile tables scans k s = some key)
    (alone : ∀ k t, t ≠ s → scanHit compile tables scans k t ≠ some key) :
    ((List.range size).filterMap fun t => scanHit compile tables scans (visit t) t).count key =
      1 := by
  have only : ∀ t ∈ List.range size,
      (scanHit compile tables scans (visit t) t == some key) = true ↔ (t == s) = true := by
    intro t _
    rw [beq_iff_eq, beq_iff_eq]
    constructor
    · intro found
      by_contra other
      exact alone (visit t) t other found
    · rintro rfl
      exact stays (visit t)
  rw [List.count_filterMap, List.countP_congr only]
  exact List.count_eq_one_of_mem List.nodup_range (List.mem_range.mpr inside)

/-- A walk for `KEYS` reads what the scans of an unchanged table read. -/
theorem execKeys_unchanged (accepted : ∀ k, (scans k).Accepted compile)
    (sizes : ∀ k, (tables k).slots.length = size) (visit : Nat → Nat) {table : KeyTable}
    {msg : CommandMsg} {pattern : Bytes} (arg : msg.getArgStr 1 = some pattern)
    (unchanged : ∀ k, tables k = table)
    (same : ∀ k, (scans k).settings.1 = if pattern = text "*" then none else some pattern) :
    execKeys compile msg table =
      .array ((List.range size).filterMap fun s => scanHit compile tables scans (visit s) s) := by
  have reads : ∀ re : Option (Bytes → Bool), (∀ k, (scans k).re compile = re) →
      (List.range size).filterMap (fun s => scanHit compile tables scans (visit s) s) =
        table.slots.filterMap (slotHit re) := by
    intro re patterns
    have whole : (((tables 0).slots.drop 0).take size).filterMap (slotHit ((scans 0).re compile)) =
        (List.range' 0 size).filterMap (slotAt tables (fun k => (scans k).re compile) 0) :=
      filterMap_slots sizes (fun k => (scans k).re compile) (by omega)
    rw [unchanged 0, patterns 0, List.drop_zero, List.take_of_length_le (by
      rw [← unchanged 0, sizes])] at whole
    rw [whole, ← List.range_eq_range']
    apply List.filterMap_congr
    intro s _
    simp only [scanHit, slotAt, unchanged, patterns]
  rw [execKeys, arg]
  by_cases star : pattern = text "*"
  · simp only [if_pos star] at same ⊢
    rw [scanKeys_whole, reads none fun k => by rw [ScanRequest.re, same, Option.bind_none]]
  · simp only [if_neg star] at same ⊢
    obtain ⟨re, compiled⟩ :=
      Option.isSome_iff_exists.mp ((accepted 0).2 pattern (by rw [same]; rfl))
    rw [compiled]
    simp only
    rw [scanKeys_whole, reads (some re) fun k => by
      rw [ScanRequest.re, same, Option.bind_some, compiled]]

/-- Scans from cursor zero on end, whatever happens to the table between the calls, and they read
each slot once. -/
theorem scan_reads_once (accepted : ∀ k, (scans k).Accepted compile)
    (sizes : ∀ k, (tables k).slots.length = size) :
    ∃ keys,
      followKeys (fun k cursor => execScanKeys compile ((scans k).tableMessage cursor) (tables k))
          (size + 1) 0 0 = some keys ∧
        ScansOnce compile tables scans size keys := by
  have fits : size + 1 < 2 ^ 63 := by
    have bound := (tables 0).fits
    rw [sizes] at bound
    exact bound
  obtain ⟨visit, ordered, -, early, ends⟩ :=
    followKeys_rest sizes (fun k => (scans k).settings_bounds.1) (fun k => (scans k).re compile)
      (fun k cursor inside => ScanRequest.execScanKeys_accepted (accepted k) (by omega) (tables k))
      (size + 1) 0 0 (Nat.zero_le _) (by omega) (le_refl _)
  rw [Nat.sub_zero, ← List.range_eq_range'] at ends
  refine ⟨_, ends, ⟨visit, ordered, fun s => early s (Nat.zero_le _), rfl⟩, ?_, ?_, ?_⟩
  · intro key s inside stays alone
    exact count_visits inside stays alone
  · intro key nowhere member
    obtain ⟨s, _, found⟩ := List.mem_filterMap.mp member
    exact nowhere (visit s) s found
  · intro table msg pattern arg unchanged same
    exact execKeys_unchanged accepted sizes visit arg unchanged same

/-- Two keys and an empty slot. -/
def smallTable : KeyTable := ⟨[some (text "a"), none, some (text "b")], by decide⟩

theorem one_small : 1 < 2 ^ 63 := by omega

/-- A scan of one key at a time. -/
def oneByOne : ScanRequest := ⟨.sscan, [], [.count 1 Nat.one_pos one_small], by decide⟩

theorem scan_reads_once_small :
    ∃ keys,
      followKeys (fun _ cursor =>
          execScanKeys (fun _ => none) (oneByOne.tableMessage cursor) smallTable) 4 0 0 =
        some keys ∧
      ScansOnce (fun _ => none) (fun _ => smallTable) (fun _ => oneByOne) 3 keys :=
  scan_reads_once (fun _ => ⟨rfl, fun pattern member => by cases member⟩) fun _ => rfl

end Complete

end Raids
