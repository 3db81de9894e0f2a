import Raids.Proof.Key.Bitcount
import Raids.Proof.Key.Bitop
import Raids.Proof.Key.Continue

namespace Raids.Key

variable {env : KeyEnv}

theorem stringValue_of_live {first second : Option (Entry Bytes)}
    (same : live env first = live env second) : stringValue env first = stringValue env second := by
  rw [stringValue, stringValue, same]

/-- The bytes of a string key. -/
def keyBytes (env : KeyEnv) (db : KeyHash → Option (Entry Bytes)) (ctx : KeyCtx) : Bytes :=
  ((stringValue env (db ctx.hash)).string?).getD []

/-- The type that a fetch finds. -/
def liveType (env : KeyEnv) (entry : Option (Entry Bytes)) : MdType :=
  ((live env entry).map Entry.type).getD .noData

/-- The context of a source whose value is saved. -/
def saved (env : KeyEnv) (db : KeyHash → Option (Entry Bytes)) (ctx : KeyCtx) : KeyCtx :=
  { ctx with
    part := some (keyBytes env db ctx)
    ival := 0
    status := .execOk
    type := if liveType env (db ctx.hash) = .noData then ctx.type
      else liveType env (db ctx.hash) }

/-- A source is saved, and its entry stays unless it expired. -/
theorem bitopSource_spec (works : env.Works) {entry : Option (Entry Bytes)} {bytes : Bytes}
    (string : (stringValue env entry).string? = some bytes) :
    ∃ run, bitopSource env entry = (run, some bytes) ∧ run.status = .execOk ∧ run.out = [] ∧
      run.ival = 0 ∧ run.type = liveType env entry ∧
        ∀ catg, run.settle catg = live env entry := by
  rw [stringValue] at string
  rw [liveType, bitopSource, getKeyRead_works works]
  cases found : live env entry with
  | none =>
      rw [found] at string
      obtain rfl := Option.some.inj string
      simp only [works.validated, if_true]
      exact ⟨_, rfl, rfl, rfl, rfl, rfl, fun _ => rfl⟩
  | some e =>
      rw [found] at string
      by_cases isString : e.type = .string
      · obtain rfl : e.data = bytes := by simpa [isString, Value.string?] using string
        simp only [isString, works.valued, works.validated, if_true]
        exact ⟨_, rfl, rfl, rfl, rfl, isString.symm, fun _ => rfl⟩
      · by_cases untyped : e.type = .noData
        · obtain rfl : [] = bytes := by simpa [untyped, Value.string?] using string
          simp only [untyped, works.validated, if_true, reduceCtorEq, if_false]
          exact ⟨_, rfl, rfl, rfl, rfl, untyped.symm, fun _ => rfl⟩
        · simp [isString, untyped, Value.string?] at string

/-- The sources have their turns one behind the other, and their values are saved. -/
theorem runKeys_sources (works : env.Works) (msg : CommandMsg) (catg : MdType) (arg0 : Bytes)
    (db : KeyHash → Option (Entry Bytes)) (fuel : Nat) (rest : List Nat)
    (todo before : List KeyCtx) (s : CommandRun Bytes) (keys : s.keys = before ++ todo)
    (sources : ∀ ctx ∈ todo, ctx.argn ≠ 2 ∧ (stringValue env (db ctx.hash)).string?.isSome)
    (same : ∀ h, live env (s.db h) = live env (db h))
    (left : s.keyDone + todo.length < s.keys.length) :
    ∃ db', (∀ h, live env (db' h) = live env (db h)) ∧
      runKeys (execBitop env msg) catg arg0 (todo.length + fuel)
          (List.range' before.length todo.length ++ rest) s =
        runKeys (execBitop env msg) catg arg0 fuel rest
          { db := db', keys := before ++ todo.map (saved env db),
            keyDone := s.keyDone + todo.length, out := s.out } := by
  induction todo generalizing before s with
  | nil =>
      apply Exists.intro s.db
      apply And.intro same
      simp only [List.length_nil, List.range'_zero, List.nil_append, List.map_nil, Nat.zero_add,
        Nat.add_zero, ← keys]
  | cons ctx todo ih =>
      obtain ⟨argn, isString⟩ := sources ctx (by simp)
      obtain ⟨bytes, string⟩ := Option.isSome_iff_exists.mp isString
      have here : (stringValue env (s.db ctx.hash)).string? = some bytes := by
        rw [stringValue_of_live (same ctx.hash), string]
      obtain ⟨run, handled, ok, noOut, noIval, type, settled⟩ := bitopSource_spec works here
      have handledHere : execBitop env msg s ctx (s.db ctx.hash) = (run, some bytes) := by
        rw [execBitop, if_neg argn, handled]
      have turn := @execKeyContinue_more _ _ catg arg0 _ _ _ _ _ _ keys handledHere
        (by rw [ok]; decide) (by rw [List.length_cons] at left; omega) (by rw [ok]; decide)
      have after : ctx.after run (some bytes) = saved env db ctx := by
        rw [KeyCtx.after, saved, keyBytes, string, noIval, ok, type, liveType, liveType, same]
        rfl
      rw [after, settled, noOut, List.append_nil] at turn
      obtain ⟨db', sameDb, ran⟩ := ih (before ++ [saved env db ctx])
        { db := Function.update s.db ctx.hash (live env (s.db ctx.hash))
          keys := before ++ saved env db ctx :: todo
          keyDone := s.keyDone + 1
          out := s.out }
        (by simp) (fun other member => sources other (by simp [member]))
        (by
          intro h
          dsimp only
          by_cases this : h = ctx.hash
          · rw [this, Function.update_self, live_live, same]
          · rw [Function.update_of_ne this, same])
        (by
          rw [keys] at left
          simp only [List.length_append, List.length_cons] at left ⊢
          omega)
      apply Exists.intro db'
      apply And.intro sameDb
      rw [List.length_append, List.length_singleton] at ran
      rw [List.length_cons, List.range'_succ, List.cons_append, Nat.add_right_comm, runKeys, turn]
      simp only [ran]
      rw [List.map_cons, List.append_assoc, List.singleton_append, Nat.add_assoc,
        Nat.add_comm 1 todo.length]

/-- The operation that the client asks for. -/
def bitopKind (msg : CommandMsg) : Option BitOp :=
  match msg.matchArg 1 [text "and", text "or", text "xor", text "not"] with
  | 1 => some .bitAndOp
  | 2 => some .bitOrOp
  | 3 => some .bitXorOp
  | 4 => some .bitNotOp
  | _ => none

theorem bitopOp_eq {msg : CommandMsg} {op : BitOp} (kind : bitopKind msg = some op) :
    bitopOp msg = if op = .bitNotOp ∧ 4 < msg.argc then none else some op := by
  rw [bitopKind] at kind
  rw [bitopOp]
  generalize msg.matchArg 1 [text "and", text "or", text "xor", text "not"] = n at kind ⊢
  match n with
  | 0 => cases kind
  | 1 | 2 | 3 =>
      obtain rfl := Option.some.inj kind
      rfl
  | 4 =>
      obtain rfl := Option.some.inj kind
      simp
  | n + 5 => cases kind

/-- The destination gets the merged bytes, or the command is refused. -/
theorem bitopDest_spec (works : env.Works) {msg : CommandMsg} {op : BitOp}
    (kind : bitopKind msg = some op) (parts : List Bytes) (entry : Option (Entry Bytes)) :
    (bitopDest env msg parts entry).out = [] ∧ (bitopDest env msg parts entry).ival = maxSize parts ∧
      (bitopDest env msg parts entry).status ≠ .execDepends ∧
      if stringValue env entry ≠ .other ∧ (op = .bitNotOp → msg.argc ≤ 4) then
        (bitopDest env msg parts entry).status = .execSendInt ∧
          ∃ e, (bitopDest env msg parts entry).settle .string = some e ∧ e.type = .string ∧
            e.data = bitopData op parts
      else (bitopDest env msg parts entry).status.isError := by
  rw [bitopDest, bitopOp_eq kind]
  by_cases many : op = .bitNotOp ∧ 4 < msg.argc
  · rw [if_pos many, if_neg (by intro both; have few := both.2 many.1; omega)]
    exact ⟨rfl, rfl, show ExecStatus.errBadArgs ≠ .execDepends by decide, rfl⟩
  · rw [if_neg many]
    have few : op = .bitNotOp → msg.argc ≤ 4 := fun negation => by
      by_contra more
      exact many ⟨negation, by omega⟩
    simp only [and_iff_left few]
    rw [getKeyWrite_works works, stringValue]
    cases found : live env entry with
    | none =>
        simp only [works.resized, if_true]
        refine ⟨rfl, trivial, show ExecStatus.execSendInt ≠ .execDepends by decide, ?_⟩
        rw [if_pos (by simp)]
        exact ⟨rfl, _, rfl, rfl, rfl⟩
    | some e =>
        by_cases isString : e.type = .string
        · simp only [isString, works.resized, if_true, reduceCtorEq, if_false]
          refine ⟨rfl, trivial, show ExecStatus.execSendInt ≠ .execDepends by decide, ?_⟩
          rw [if_pos (by simp)]
          exact ⟨rfl, _, rfl, isString, rfl⟩
        · by_cases untyped : e.type = .noData
          · simp only [untyped, works.resized, if_true, reduceCtorEq, if_false]
            refine ⟨rfl, trivial, show ExecStatus.execSendInt ≠ .execDepends by decide, ?_⟩
            rw [if_pos (by simp)]
            exact ⟨rfl, _, rfl, rfl, rfl⟩
          · simp only [isString, untyped, if_false]
            refine ⟨rfl, trivial, show ExecStatus.errBadType ≠ .execDepends by decide, ?_⟩
            rw [if_neg (by simp)]
            rfl

/-- The reply is the length of the longest source, and the destination has the bytes of the
operation. -/
def BitopStores (op : BitOp) (parts : List Bytes) (dest : KeyCtx) (s : CommandRun Bytes) : Prop :=
  s.out = sendInt (maxSize parts) ∧
    ∃ e, s.db dest.hash = some e ∧ e.type = .string ∧ e.data = pointwise op parts

/-- The command completes with the turn of its destination. -/
theorem execBitop_run (works : env.Works) {msg : CommandMsg} {op : BitOp}
    (kind : bitopKind msg = some op) (arg0 : Bytes) (db : KeyHash → Option (Entry Bytes))
    {dest : KeyCtx} (isDest : dest.argn = 2 ∧ dest.dep = 0) (source : KeyCtx)
    (others : List KeyCtx)
    (sources : ∀ ctx ∈ source :: others,
      ctx.argn ≠ 2 ∧ (stringValue env (db ctx.hash)).string?.isSome) :
    ∃ entry s, live env entry = live env (db dest.hash) ∧
      execRunToCompletion (execBitop env msg) .string arg0
        { db := db, keys := dest :: source :: others } = some s ∧
      s.db dest.hash = (bitopDest env msg ((source :: others).map (keyBytes env db)) entry).settle
        .string ∧
      s.out = sendStatus arg0 (maxSize ((source :: others).map (keyBytes env db)))
        (bitopDest env msg ((source :: others).map (keyBytes env db)) entry).status := by
  have parts : ((source :: others).map (saved env db)).map (fun key => key.part.getD []) =
      (source :: others).map (keyBytes env db) := by
    rw [List.map_map]
    rfl
  obtain ⟨waiting, isWaiting⟩ : ∃ waiting : KeyCtx, waiting =
      { dest with dep := 1, ival := 0, status := .execDepends } :=
    ⟨_, rfl⟩
  have waitingArgs : waiting.argn = 2 ∧ waiting.dep = 1 ∧ waiting.hash = dest.hash := by
    rw [isWaiting]
    exact ⟨isDest.1, rfl, rfl⟩
  -- The destination waits for the sources.
  have first : execKeyContinue (execBitop env msg) .string arg0 0
      { db := db, keys := dest :: source :: others } =
      (.depends, { db := db, keys := waiting :: source :: others }) := by
    have turn := @execKeyContinue_depends _ (execBitop env msg) .string arg0
      { db := db, keys := dest :: source :: others } [] (source :: others) dest
      (unfetched .execDepends (db dest.hash)) none rfl
      (by rw [execBitop, if_pos isDest.1, if_pos isDest.2]) rfl rfl
    rw [List.length_nil] at turn
    rw [turn, isWaiting]
    simp [unfetched, KeyCtx.after, isDest.2]
  obtain ⟨db', same, ran⟩ := runKeys_sources works msg .string arg0 db (others.length + 2) [0]
    (source :: others) [waiting] { db := db, keys := waiting :: source :: others } rfl sources
    (fun _ => rfl) (by simp)
  obtain ⟨noOut, ival, notDepends, _⟩ := bitopDest_spec works kind
    ((source :: others).map (keyBytes env db)) (db' dest.hash)
  -- All sources are saved when the destination has its second turn.
  have last := @execKeyContinue_success _ (execBitop env msg) .string arg0
    { db := db', keys := waiting :: (source :: others).map (saved env db),
      keyDone := (source :: others).length } [] ((source :: others).map (saved env db)) waiting
    (bitopDest env msg ((source :: others).map (keyBytes env db)) (db' dest.hash)) none rfl
    (by
      rw [execBitop, if_pos waitingArgs.1, if_neg (by rw [waitingArgs.2.1]; decide), List.tail_cons,
        parts, waitingArgs.2.2])
    notDepends (Or.inl (by simp))
  rw [List.length_nil, noOut, waitingArgs.2.2] at last
  have total : (([] ++ waiting.after (bitopDest env msg ((source :: others).map (keyBytes env db))
      (db' dest.hash)) none :: (source :: others).map (saved env db)).map KeyCtx.ival).sum =
      ((maxSize ((source :: others).map (keyBytes env db)) : Nat) : Int) := by
    have none : (((source :: others).map (saved env db)).map KeyCtx.ival).sum = 0 := by
      apply List.sum_eq_zero
      simp [saved]
    rw [List.nil_append, List.map_cons, List.sum_cons, none, KeyCtx.after, ival, add_zero]
  have order : List.range (others.length + 2) = 0 :: List.range' 1 (others.length + 1) := by
    rw [List.range_eq_range', List.range'_succ]
  rw [total] at last
  simp only [List.length_cons, List.length_nil, Nat.zero_add, List.singleton_append] at ran last
  refine ⟨db' dest.hash, (execKeyContinue (execBitop env msg) .string arg0 0
    { db := db', keys := waiting :: (source :: others).map (saved env db),
      keyDone := others.length + 1 }).2, same dest.hash, ?_, ?_, ?_⟩
  · rw [execRunToCompletion]
    simp only [List.length_cons]
    rw [order, show 2 * (others.length + 1 + 1) = others.length + 1 + (others.length + 2) + 1 by omega,
      runKeys, first]
    simp only [ran]
    rw [runKeys, last]
  · rw [last]
    exact Function.update_self _ _ _
  · rw [last]
    simp

/-- The command always completes, and it stores the pointwise operation under the condition only:
the destination has no other type, a negation has one source, and for an exclusive or an even number
of the later sources has ended at every place. -/
theorem execBitop_exact (works : env.Works) {msg : CommandMsg} {op : BitOp}
    (kind : bitopKind msg = some op) (arg0 : Bytes) (db : KeyHash → Option (Entry Bytes))
    {dest : KeyCtx} (isDest : dest.argn = 2 ∧ dest.dep = 0) (source : KeyCtx)
    (others : List KeyCtx)
    (sources : ∀ ctx ∈ source :: others,
      ctx.argn ≠ 2 ∧ (stringValue env (db ctx.hash)).string?.isSome) :
    ∃ s, execRunToCompletion (execBitop env msg) .string arg0
          { db := db, keys := dest :: source :: others } = some s ∧
      (BitopStores op ((source :: others).map (keyBytes env db)) dest s ↔
        stringValue env (db dest.hash) ≠ .other ∧ (op = .bitNotOp → msg.argc ≤ 4) ∧
          (op = .bitXorOp → ∀ i < maxSize ((source :: others).map (keyBytes env db)),
            endedAt (others.map (keyBytes env db)) i % 2 = 0)) := by
  obtain ⟨entry, s, same, ran, stored, sent⟩ :=
    execBitop_run works kind arg0 db isDest source others sources
  apply Exists.intro s
  apply And.intro ran
  have outcome := (bitopDest_spec works kind ((source :: others).map (keyBytes env db)) entry).2.2.2
  rw [stringValue_of_live same] at outcome
  rw [BitopStores, stored, sent]
  by_cases accepted : stringValue env (db dest.hash) ≠ .other ∧ (op = .bitNotOp → msg.argc ≤ 4)
  · rw [if_pos accepted] at outcome
    obtain ⟨ok, e, settled, isString, data⟩ := outcome
    have merged := bitopData_eq_iff op (keyBytes env db source) (others.map (keyBytes env db))
    rw [← List.map_cons] at merged
    rw [ok, settled]
    simp only [accepted.1, not_false_eq_true, true_and, ← merged, ← data, ne_eq]
    apply Iff.intro
    · rintro ⟨_, e', isEntry, _, same⟩
      rw [Option.some.inj isEntry]
      exact ⟨accepted.2, same⟩
    · intro same
      exact ⟨rfl, e, rfl, isString, same.2⟩
  · rw [if_neg accepted] at outcome
    apply iff_of_false
    · rintro ⟨number, _⟩
      rw [sendStatus_of_isError outcome] at number
      exact sendErrString_ne_sendInt _ _ _ number
    · exact fun meets => accepted ⟨meets.1, meets.2.1⟩

/-- The words of an operation on two sources. -/
def bitopMsg (word : String) : CommandMsg :=
  ⟨commandWords ["bitop", word, "d", "a", "b"], by simp [commandWords]⟩

/-- A table with two strings. -/
def twoStrings (h : KeyHash) : Option (Entry Bytes) :=
  if h = ⟨1, 0⟩ then some ⟨.string, [1, 2], 0⟩
  else if h = ⟨2, 0⟩ then some ⟨.string, [4], 0⟩
  else none

def destKey : KeyCtx := { argn := 2, hash := ⟨0, 0⟩ }

def firstKey : KeyCtx := { argn := 3, hash := ⟨1, 0⟩ }

def secondKey : KeyCtx := { argn := 4, hash := ⟨2, 0⟩ }

/-- The bytes of two strings. -/
theorem execBitop_exact_and :
    ∃ s, execRunToCompletion (execBitop quietEnv (bitopMsg "and")) .string []
          { db := twoStrings, keys := [destKey, firstKey, secondKey] } = some s ∧
      BitopStores .bitAndOp ([firstKey, secondKey].map (keyBytes quietEnv twoStrings)) destKey s := by
  obtain ⟨s, ran, exact⟩ := @execBitop_exact _ quietEnv_works (bitopMsg "and") .bitAndOp
    (by decide +kernel) [] twoStrings destKey (by decide) firstKey [secondKey] (by decide +kernel)
  apply Exists.intro s
  apply And.intro ran
  apply exact.mpr
  exact ⟨by decide +kernel, by decide, by decide⟩

/-- The second byte of the longer string is turned over. -/
theorem not_execBitop_exact :
    ¬∃ s, execRunToCompletion (execBitop quietEnv (bitopMsg "xor")) .string []
          { db := twoStrings, keys := [destKey, firstKey, secondKey] } = some s ∧
      BitopStores .bitXorOp ([firstKey, secondKey].map (keyBytes quietEnv twoStrings)) destKey s := by
  rintro ⟨s, ran, _, e, isEntry, _, data⟩
  have facts : (execRunToCompletion (execBitop quietEnv (bitopMsg "xor")) .string []
        { db := twoStrings, keys := [destKey, firstKey, secondKey] }).map (·.db destKey.hash) =
        some (some ⟨.string, [5, 253], 0⟩) ∧
      pointwise .bitXorOp ([firstKey, secondKey].map (keyBytes quietEnv twoStrings)) = [5, 2] := by
    decide +kernel
  rw [ran, Option.map_some, isEntry, Option.some.injEq, Option.some.injEq] at facts
  rw [facts.2, facts.1] at data
  exact absurd data (by decide)

end Raids.Key
