import Raids.Proof.Cmd.ConsistentKeys
import Raids.Proof.Stream.Read

namespace Raids

/-- A stream of a command with the id that is given for it. -/
structure Ask where
  kbuf : Bytes
  hash : KeyHash
  id : Bytes
  deriving DecidableEq

/-- Half of the arguments behind the options are keys, and the other half are their ids. -/
structure AsksFor (hash : Bytes → KeyHash) (msg : CommandMsg) (first : Nat) (asks : List Ask) :
    Prop where
  length : asks.length = (msg.argc - first) / 2
  kbuf : ∀ i ask, asks[i]? = some ask → msg.getArgStr (first + i : Nat) = some ask.kbuf
  hash : ∀ ask ∈ asks, ask.hash = hash ask.kbuf
  id : ∀ i ask, asks[i]? = some ask → msg.getArgStr (first + asks.length + i : Nat) = some ask.id

section Setup

variable {hash : Bytes → KeyHash} {req : Request} {g : Geometry} {asks : List Ask}

/-- A context of a command that has not run yet. -/
structure Asks (msg : CommandMsg) (g : Geometry) (ask : Ask) (ctx : XreadCtx) : Prop where
  kbuf : ctx.kbuf = ask.kbuf
  hash : ctx.hash = ask.hash
  id : msg.getArgStr (g.last + 1 + ctx.argn - g.first) = some ask.id
  fresh : ctx.isSavedCont = false
  new : ctx.part = none

theorem locateStreams_of_accepted (accepted : prepareExecCommand req = .ok (.xreadCmd, g)) :
    locateStreams xreadOptions req.msg req.msg.argc 1 = some g := by
  rw [prepareExecCommand] at accepted
  split at accepted
  · cases accepted
  · split at accepted
    · cases accepted
    · rename_i located
      cases accepted
      exact movableKeys located (by decide)

/-- An accepted command has a context for each of its streams. -/
theorem xreadSetup_ok (granted : ∀ a, req.grants a = true)
    (accepted : prepareExecCommand req = .ok (.xreadCmd, g))
    (asked : AsksFor hash req.msg g.first.toNat asks) :
    asks ≠ [] ∧ ∃ keys, xreadSetup hash req g = .ok keys ∧
      List.Forall₂ (Asks req.msg g) asks keys := by
  have located := locateStreams_of_accepted accepted
  have consistent : ConsistentKeys .xreadCmd req.msg g := by
    apply consistentKeys_streams (by decide) located
    intro keys inSyntax
    cases inSyntax
    assumption
  obtain ⟨first, n, argc, positive, rfl, _⟩ := locateStreams_some (by decide) Nat.one_pos located
  have count : asks.length = n + 1 := by
    rw [asked.length]
    simp only [Int.toNat_natCast]
    omega
  have indices : keyIndices ⟨first, first + n, 1, 0⟩ req.msg.argc =
      (List.range (n + 1)).map fun k : Nat => (first : Int) + 1 * (k : Nat) := by
    apply keyIndices_progression rfl
    · simpa using positive
    · simp
    · simp only [Geometry.stop]
      omega
    · simp only [Geometry.stop]
      omega
    · omega
  have isKey : ∀ k : Nat, ∀ ask, asks[k]? = some ask →
      req.msg.getArgStr (first + 1 * (k : Nat)) = some ask.kbuf := by
    intro k ask isAsk
    have key := asked.kbuf k ask isAsk
    rwa [Int.toNat_natCast, Nat.cast_add, ← Int.one_mul (k : Int)] at key
  obtain ⟨keys, ok, keyOf, hashes⟩ := execSetup_ok hash req granted
    (by
      rw [indices, List.forall_mem_map]
      intro k member
      rw [List.mem_range, ← count] at member
      rw [isKey k _ (List.getElem?_eq_getElem member)]
      rfl)
    (by
      intro some
      rw [keyCount, if_pos (by simpa using positive), ← consistent.filled]
      exact (List.length_pos_of_ne_nil some).ne')
  refine ⟨List.ne_nil_of_length_pos (by omega), _, by rw [xreadSetup, ok]; rfl, ?_⟩
  rw [indices] at keyOf
  obtain ⟨length, get⟩ := List.forall₂_iff_get.mp keyOf
  rw [List.length_map, List.length_range] at length
  rw [List.forall₂_iff_get]
  refine ⟨by rw [List.length_map, count, length], ?_⟩
  intro k inside inside'
  rw [List.length_map] at inside'
  have key := get k inside' (by rw [List.length_map, List.length_range]; omega)
  simp only [List.get_eq_getElem, List.getElem_map, List.getElem_range] at key ⊢
  have isAsk : asks[k]? = some asks[k] := List.getElem?_eq_getElem inside
  have kbuf : keys[k].kbuf = asks[k].kbuf :=
    Option.some.inj (key.kbuf.symm.trans (isKey k _ isAsk))
  have id := asked.id k _ isAsk
  constructor
  · exact kbuf
  · rw [hashes _ (List.getElem_mem inside'), kbuf, asked.hash _ (List.getElem_mem inside)]
  · rw [← id]
    congr 1
    simp only [key.argn, Int.toNat_natCast]
    omega
  · rfl
  · rfl

end Setup

section Replies

variable (lib : StreamRead) (bound : Bytes → Bool → Option IdBound)

/-- The bound of the last entry; nothing is in front of the start of an empty stream. -/
def lastBound (entries : List StreamEntry) : IdBound :=
  ((entries.getLast?.bind fun last => lib.strToId last.id).map fun sid => (↑↑sid : IdBound)).getD ⊥

/-- The tail stands for the last id when the command was issued. -/
def Ask.start (ask : Ask) (value : ReadValue) : IdBound :=
  if isTail ask.id then lastBound lib value.entries else (bound ask.id true).getD ⊤

def Ask.reader (table : KeyHash → ReadValue) (ask : Ask) : StreamReader :=
  ⟨ask.kbuf, ask.hash, ask.id, ask.start lib bound (table ask.hash)⟩

/-- The first wake-up that finds entries replies them, and a timeout ends the command too. -/
def wakeReplies (maxcnt : Int) (readers : List StreamReader) :
    List (XreadRound × Bool) → List XreadReply
  | [] => []
  | (round, timeout) :: wakes =>
      if readerParts lib maxcnt round.table readers ≠ [] then
        [sentParts (readerParts lib maxcnt round.table readers)]
      else if timeout then [.status .execSendNull]
      else wakeReplies maxcnt readers wakes

/-- A command replies the entries that its readers find, and a blocking one waits for some. -/
def readReplies (args : XreadArgs) (issued resumed : List StreamReader) (round : XreadRound)
    (wakes : List (XreadRound × Bool)) : List XreadReply :=
  if readerParts lib args.maxcnt round.table issued ≠ [] then
    [sentParts (readerParts lib args.maxcnt round.table issued)]
  else if args.blocking then wakeReplies lib args.maxcnt resumed wakes
  else [.status .execSendNull]

/-- Of several keys none loses its type while the command is blocked. -/
def KeepsType (asks : List Ask) (round : XreadRound) (wakes : List (XreadRound × Bool)) : Prop :=
  asks.length ≠ 1 → ∀ ask ∈ asks, round.table ask.hash ≠ .noType ∧
    ∀ wake ∈ wakes, wake.1.table ask.hash ≠ .noType

/-- The tail of a stream without entries is not asked for, the entries of a stream that was missing
are above zero where they are above the given id and nowhere else, and of several keys none loses
its type. -/
structure ReadFits (asks : List Ask) (round : XreadRound) (wakes : List (XreadRound × Bool)) :
    Prop where
  tail : ∀ ask ∈ asks, isTail ask.id → round.table ask.hash ≠ .stream []
  missing : ∀ ask ∈ asks, round.table ask.hash = .missing ∨ round.table ask.hash = .noType →
    ∀ wake ∈ wakes, ∀ entry ∈ (wake.1.table ask.hash).entries,
      idAbove lib.toStreamData ↑(↑(toLex (0, 0) : StreamId) : WithTop StreamId) entry =
        idAbove lib.toStreamData (ask.start lib bound .missing) entry
  typed : KeepsType asks round wakes

end Replies

section Start

variable {lib : StreamRead} {bound : Bytes → Bool → Option IdBound} {value : ReadValue}

/-- Each entry has an id, and the ids increase. -/
theorem ReadValue.Increasing.pairwise (sorted : value.Increasing lib.toStreamData) :
    value.entries.Pairwise fun first second =>
      ∃ sid sid2, lib.strToId first.id = some sid ∧ lib.strToId second.id = some sid2 ∧
        sid < sid2 := by
  obtain ⟨ids, same, increasing⟩ := sorted
  have pairs : (ids.map some).Pairwise fun first second =>
      ∃ sid sid2, first = some sid ∧ second = some sid2 ∧ sid < sid2 := by
    rw [List.pairwise_map]
    exact increasing.imp fun less => ⟨_, _, rfl, rfl, less⟩
  rw [← same, StreamKey.ids, List.pairwise_map] at pairs
  exact pairs

theorem ReadValue.Increasing.exists_id (sorted : value.Increasing lib.toStreamData)
    {entry : StreamEntry} (member : entry ∈ value.entries) :
    ∃ sid, lib.strToId entry.id = some sid :=
  Raids.exists_id sorted member

theorem lastBound_append {front : List StreamEntry} {last : StreamEntry} {sid : StreamId}
    (parsed : lib.strToId last.id = some sid) : lastBound lib (front ++ [last]) = ↑↑sid := by
  rw [lastBound, List.getLast?_concat, Option.bind_some, parsed]
  rfl

/-- The last entry has the greatest id. -/
theorem filter_lastBound (sorted : value.Increasing lib.toStreamData) :
    value.entries.filter (idAbove lib.toStreamData (lastBound lib value.entries)) = [] := by
  have pairs := sorted.pairwise
  have exists_id := fun entry => @ReadValue.Increasing.exists_id lib value sorted entry
  rcases List.eq_nil_or_concat value.entries with none | concat
  · rw [none, List.filter_nil]
  · obtain ⟨front, last, split⟩ := concat
    rw [split, List.concat_eq_append] at pairs exists_id ⊢
    obtain ⟨sid, parsed⟩ := exists_id last (by simp)
    rw [lastBound_append parsed, List.filter_eq_nil_iff]
    intro entry member
    rcases List.mem_append.mp member with before | isLast
    · obtain ⟨sid', sid2, parsed', parsed2, less⟩ :=
        (List.pairwise_append.mp pairs).2.2 entry before last (by simp)
      rw [parsed] at parsed2
      rw [idAbove, parsed', Option.some.inj parsed2]
      simpa using less.le
    · rw [List.mem_singleton.mp isLast, idAbove, parsed]
      simp

theorem items_top (maxcnt : Int) (value : ReadValue) : itemsAbove lib maxcnt ⊤ value = [] := by
  rw [itemsAbove, limited_eq_nil, List.filter_eq_nil_iff]
  intro entry _
  rw [idAbove]
  cases lib.strToId entry.id with
  | none => simp
  | some sid => simp

/-- Nothing is found at the tail when the command is issued. -/
theorem items_start (documented : lib.Documented bound) (sorted : value.Increasing lib.toStreamData)
    (maxcnt : Int) {ask : Ask} {b : IdBound} (known : bound ask.id true = some b) :
    itemsAbove lib maxcnt b value = itemsAbove lib maxcnt (ask.start lib bound value) value := by
  rw [Ask.start]
  by_cases isLast : isTail ask.id
  · have top : b = ⊤ := Option.some.inj (known.symm.trans (documented.tail _ isLast))
    rw [if_pos isLast, top, items_top, itemsAbove, filter_lastBound sorted, limited_nil]
  · rw [if_neg isLast, known]
    rfl

/-- A blocked key goes on behind the id at which it was issued. -/
theorem items_resumed (documented : lib.Documented bound)
    (sorted : value.Increasing lib.toStreamData) (typed : value ≠ .other) (maxcnt : Int) {ask : Ask}
    (known : (bound ask.id true).isSome) (tail : isTail ask.id → value ≠ .stream [])
    {value' : ReadValue}
    (missing : value = .missing ∨ value = .noType → ∀ entry ∈ value'.entries,
      idAbove lib.toStreamData ↑(↑(toLex (0, 0) : StreamId) : WithTop StreamId) entry =
        idAbove lib.toStreamData (ask.start lib bound .missing) entry) :
    ∃ b, bound ((keptId ask.id value).getD ask.id) true = some b ∧
      itemsAbove lib maxcnt b value' =
        itemsAbove lib maxcnt (ask.start lib bound value) value' := by
  have isMissing : value = .missing ∨ value = .noType →
      ∃ b, bound ((keptId ask.id value).getD ask.id) true = some b ∧
        itemsAbove lib maxcnt b value' =
          itemsAbove lib maxcnt (ask.start lib bound value) value' := by
    intro isMissing
    have kept : keptId ask.id value = some (text "0") := by
      rcases isMissing with rfl | rfl <;> rfl
    have start : ask.start lib bound value = ask.start lib bound .missing := by
      rcases isMissing with rfl | rfl <;> rfl
    refine ⟨_, by rw [kept]; exact documented.zero, ?_⟩
    rw [start, itemsAbove, itemsAbove, List.filter_congr (missing isMissing)]
  cases value with
  | other => exact absurd rfl typed
  | missing => exact isMissing (Or.inl rfl)
  | noType => exact isMissing (Or.inr rfl)
  | stream entries =>
      by_cases isLast : isTail ask.id
      · rcases List.eq_nil_or_concat entries with none | concat
        · exact absurd (by rw [none]) (tail isLast)
        · obtain ⟨front, last, rfl⟩ := concat
          obtain ⟨sid, parsed⟩ := sorted.exists_id
            (show last ∈ (ReadValue.stream (front.concat last)).entries by
              simp [ReadValue.entries])
          have kept : keptId ask.id (.stream (front.concat last)) = some last.id := by
            simp [keptId, isLast]
          refine ⟨↑↑sid, by rw [kept]; exact documented.entry _ _ parsed, ?_⟩
          rw [Ask.start, if_pos isLast, show (ReadValue.stream (front.concat last)).entries =
            front ++ [last] from List.concat_eq_append, lastBound_append parsed]
      · obtain ⟨b, isBound⟩ := Option.isSome_iff_exists.mp known
        have kept : keptId ask.id (.stream entries) = none := by simp [keptId, isLast]
        refine ⟨b, by rw [kept]; exact isBound, ?_⟩
        rw [Ask.start, if_neg isLast, isBound]
        rfl

end Start

section Wakes

variable {lib : StreamRead} {bound : Bytes → Bool → Option IdBound} {hash : Bytes → KeyHash}
  {req : Request} {g : Geometry} {args : XreadArgs} {asks : List Ask} {keys : List XreadCtx}
  {round : XreadRound} {wakes : List (XreadRound × Bool)}

/-- The reader of a key that has not been blocked. -/
def Ask.issued (bound : Bytes → Bool → Option IdBound) (ask : Ask) : StreamReader :=
  ⟨ask.kbuf, ask.hash, ask.id, (bound ask.id true).getD ⊤⟩

/-- The reader of a key that was blocked at a value. -/
def Ask.resumed (bound : Bytes → Bool → Option IdBound) (table : KeyHash → ReadValue) (ask : Ask) :
    StreamReader :=
  let arg := (keptId ask.id (table ask.hash)).getD ask.id
  ⟨ask.kbuf, ask.hash, arg, (bound arg true).getD ⊤⟩

/-- Readers of the same entries reply the same. -/
theorem readerParts_congr {maxcnt : Int} {table : KeyHash → ReadValue}
    {reader reader' : Ask → StreamReader}
    (kbuf : ∀ ask ∈ asks, (reader ask).kbuf = (reader' ask).kbuf)
    (items : ∀ ask ∈ asks,
      (reader ask).items lib maxcnt table = (reader' ask).items lib maxcnt table) :
    readerParts lib maxcnt table (asks.map reader) =
      readerParts lib maxcnt table (asks.map reader') := by
  rw [readerParts, readerParts, List.filterMap_map, List.filterMap_map]
  apply List.filterMap_congr
  intro ask member
  rw [Function.comp_apply, Function.comp_apply, kbuf ask member, items ask member]

theorem standsFor_issued (known : ∀ ask ∈ asks, (bound ask.id true).isSome)
    (contexts : List.Forall₂ (Asks req.msg g) asks keys) :
    List.Forall₂ (StandsFor bound req.msg g) (asks.map (Ask.issued bound)) keys := by
  obtain ⟨length, get⟩ := List.forall₂_iff_get.mp contexts
  rw [List.forall₂_iff_get]
  refine ⟨by rw [List.length_map, length], ?_⟩
  intro i inside inside'
  rw [List.length_map] at inside
  have context := get i inside inside'
  obtain ⟨b, isBound⟩ := Option.isSome_iff_exists.mp (known _ (List.getElem_mem inside))
  simp only [List.get_eq_getElem, List.getElem_map] at context ⊢
  constructor
  · exact context.kbuf
  · exact context.hash
  · rw [XreadCtx.arg, if_neg (by simp [context.fresh]), context.id]
    rfl
  · rw [Ask.issued, isBound]
    rfl

/-- The kept ids are put back in front of the arguments. -/
theorem standsFor_resumed (table : KeyHash → ReadValue)
    (known : ∀ ask ∈ asks,
      (bound ((keptId ask.id (table ask.hash)).getD ask.id) true).isSome)
    (contexts : List.Forall₂ (Asks req.msg g) asks keys) :
    List.Forall₂ (StandsFor bound req.msg g) (asks.map (Ask.resumed bound table))
      (restoreIds keys (asks.map fun ask => keptId ask.id (table ask.hash))) := by
  obtain ⟨length, get⟩ := List.forall₂_iff_get.mp contexts
  rw [List.forall₂_iff_get]
  refine ⟨by simp [restoreIds, length], ?_⟩
  intro i inside inside'
  rw [List.length_map] at inside
  have context := get i inside (by omega)
  obtain ⟨b, isBound⟩ := Option.isSome_iff_exists.mp (known _ (List.getElem_mem inside))
  simp only [List.get_eq_getElem, List.getElem_map, restoreIds, List.getElem_zipWith] at context ⊢
  have start : (Ask.resumed bound table asks[i]).start = b := by
    rw [Ask.resumed, isBound]
    rfl
  cases kept : keptId asks[i].id (table asks[i].hash) with
  | none =>
      have arg : (Ask.resumed bound table asks[i]).arg = asks[i].id := by
        rw [Ask.resumed, kept]
        rfl
      constructor
      · exact context.kbuf
      · exact context.hash
      · rw [XreadCtx.arg, if_neg (by simp [context.fresh]), context.id, arg]
      · rw [start, arg, ← isBound, kept]
        rfl
  | some id =>
      have arg : (Ask.resumed bound table asks[i]).arg = id := by
        rw [Ask.resumed, kept]
        rfl
      constructor
      · exact context.kbuf
      · exact context.hash
      · rw [arg]
        rfl
      · rw [start, arg, ← isBound, kept]
        rfl

/-- What the table answers in all executions of a command. -/
structure AnswersAll (lib : StreamRead) (asks : List Ask) (round : XreadRound)
    (wakes : List (XreadRound × Bool)) : Prop where
  issue : round.Works lib (asks.map Ask.hash)
  wakes : ∀ wake ∈ wakes, wake.1.Works lib (asks.map Ask.hash)

/-- The id that a blocked key keeps is a bound. -/
theorem isSome_resumed (documented : lib.Documented bound) {value : ReadValue}
    (sorted : value.Increasing lib.toStreamData) {id : Bytes} (known : (bound id true).isSome) :
    (bound ((keptId id value).getD id) true).isSome := by
  have zero : (bound (text "0") true).isSome := by
    rw [documented.zero]
    rfl
  cases value with
  | stream entries =>
      by_cases isLast : isTail id
      · rw [keptId, if_pos isLast]
        rcases List.eq_nil_or_concat entries with none | concat
        · rw [none]
          exact known
        · obtain ⟨front, last, rfl⟩ := concat
          obtain ⟨sid, parsed⟩ := sorted.exists_id
            (show last ∈ (ReadValue.stream (front.concat last)).entries by
              simp [ReadValue.entries])
          rw [List.concat_eq_append, List.getLast?_concat]
          show (bound last.id true).isSome
          rw [documented.entry _ _ parsed]
          rfl
      · rw [keptId, if_neg isLast]
        exact known
  | _ => exact zero

/-- A blocked command is executed with the ids that were kept, until it finds entries. -/
theorem drainContinuations_eq (documented : lib.Documented bound)
    (parsed : xreadArgs lib req.msg g.first = some args) (blocking : args.blocking = true)
    (setup : xreadSetup hash req g = .ok keys)
    (contexts : List.Forall₂ (Asks req.msg g) asks keys) (some : asks ≠ [])
    (known : ∀ ask ∈ asks, (bound ask.id true).isSome)
    (answers : AnswersAll lib asks round wakes) (typed : KeepsType asks round wakes) :
    drainContinuations lib hash req g (asks.map fun ask => keptId ask.id (round.table ask.hash))
        wakes =
      wakeReplies lib args.maxcnt (asks.map (Ask.resumed bound round.table)) wakes := by
  have resumed : ∀ ask ∈ asks,
      (bound ((keptId ask.id (round.table ask.hash)).getD ask.id) true).isSome :=
    fun ask member => isSome_resumed documented
      (answers.issue.sorted _ (List.mem_map_of_mem member)) (known ask member)
  induction wakes with
  | nil => rfl
  | cons wake wakes ih =>
      obtain ⟨wakeRound, timeout⟩ := wake
      have run : RunWorks lib bound req.msg g args wakeRound
          (asks.map (Ask.resumed bound round.table))
          (restoreIds keys (asks.map fun ask => keptId ask.id (round.table ask.hash))) := by
        constructor
        · exact documented
        · exact parsed
        · exact standsFor_resumed round.table resumed contexts
        · rw [List.map_map]
          exact answers.wakes _ List.mem_cons_self
        · simp [blocking]
        · intro _ several reader member
          rw [List.length_map] at several
          obtain ⟨ask, isAsk, rfl⟩ := List.mem_map.mp member
          exact (typed several ask isAsk).2 _ List.mem_cons_self
      have order : (List.range keys.length).Perm
          (List.range (asks.map (Ask.resumed bound round.table)).length) := by
        rw [List.length_map, contexts.length_eq]
      obtain ⟨ended, _⟩ := runXread_ends (.some timeout) run (by simpa using some) order
      rw [blocking] at ended
      have more := ih
        ⟨answers.issue, fun wake member => answers.wakes wake (List.mem_cons_of_mem _ member)⟩
        (fun several ask member => ⟨(typed several ask member).1, fun wake later =>
            (typed several ask member).2 wake (List.mem_cons_of_mem _ later)⟩)
      rw [drainContinuations, setup, wakeReplies]
      dsimp only
      by_cases none : readerParts lib args.maxcnt wakeRound.table
          (asks.map (Ask.resumed bound round.table)) = []
      · obtain ⟨out, _, complete⟩ := ended.blocks none rfl
        rw [if_neg (not_not.mpr none), complete, out]
        cases timeout with
        | false => simpa using more
        | true => simp
      · obtain ⟨out, _, complete⟩ := ended.replies none
        rw [if_pos none, complete, out]
        rfl

/-- The first execution replies, or keeps the ids of a command that is blocked. -/
theorem xread_eq (documented : lib.Documented bound) (granted : ∀ a, req.grants a = true)
    (accepted : prepareExecCommand req = .ok (.xreadCmd, g))
    (parsed : xreadArgs lib req.msg g.first = some args)
    (asked : AsksFor hash req.msg g.first.toNat asks)
    (known : ∀ ask ∈ asks, (bound ask.id true).isSome) {order : List Nat}
    (orders : order.Perm (List.range asks.length)) (answers : AnswersAll lib asks round wakes)
    (typed : args.blocking = true → KeepsType asks round wakes) :
    xread lib hash req g round order wakes =
      readReplies lib args (asks.map (Ask.issued bound)) (asks.map (Ask.resumed bound round.table))
        round wakes := by
  obtain ⟨some, keys, setup, contexts⟩ := xreadSetup_ok granted accepted asked
  have contextOf : ∀ ctx ∈ keys, ctx.isSavedCont = false ∧ ctx.part = none := by
    intro ctx member
    obtain ⟨i, inside, rfl⟩ := List.mem_iff_getElem.mp member
    have context := contexts.get (by rwa [contexts.length_eq]) inside
    exact ⟨context.fresh, context.new⟩
  have run : RunWorks lib bound req.msg g args round (asks.map (Ask.issued bound)) keys := by
    constructor
    · exact documented
    · exact parsed
    · exact standsFor_issued known contexts
    · rw [List.map_map]
      exact answers.issue
    · exact fun _ ctx member => (contextOf ctx member).2
    · intro blocking several reader member
      rw [List.length_map] at several
      obtain ⟨ask, isAsk, rfl⟩ := List.mem_map.mp member
      exact (typed blocking several ask isAsk).1
  obtain ⟨ended, kept⟩ := runXread_ends none run (by simpa using some)
    (by rwa [List.length_map] : order.Perm (List.range (asks.map (Ask.issued bound)).length))
  rw [xread, setup, readReplies]
  dsimp only
  by_cases none : readerParts lib args.maxcnt round.table (asks.map (Ask.issued bound)) = []
  · rw [if_neg (not_not.mpr none)]
    cases blocking : args.blocking with
    | false =>
        rw [blocking] at ended
        obtain ⟨out, goesOn, _⟩ := ended.silent none rfl
        rw [goesOn, out]
        simp
    | true =>
        rw [blocking] at ended
        obtain ⟨out, goesOn, _⟩ := ended.blocks none rfl
        have saved := kept none blocking fun ctx member => (contextOf ctx member).1
        have ids : (runXread lib req.msg g .none round order keys).keys.map XreadCtx.savedId =
            asks.map fun ask => keptId ask.id (round.table ask.hash) := by
          obtain ⟨length, get⟩ := List.forall₂_iff_get.mp saved
          apply List.ext_getElem
          · simpa using length.symm
          · intro i inside inside'
            rw [List.length_map] at inside inside'
            have same := get i (by rwa [List.length_map]) inside
            simpa [Ask.issued] using same
        rw [goesOn, out, ids, drainContinuations_eq documented parsed blocking setup contexts some
          known answers (typed blocking)]
        simp
  · obtain ⟨out, goesOn, _⟩ := ended.replies none
    rw [if_pos none, goesOn, out]
    simp

/-- Readers of the same entries are woken up by the same changes. -/
theorem wakeReplies_congr {maxcnt : Int} {readers readers' : List StreamReader}
    (same : ∀ wake ∈ wakes, readerParts lib maxcnt wake.1.table readers =
      readerParts lib maxcnt wake.1.table readers') :
    wakeReplies lib maxcnt readers wakes = wakeReplies lib maxcnt readers' wakes := by
  induction wakes with
  | nil => rfl
  | cons wake wakes ih =>
      obtain ⟨wakeRound, timeout⟩ := wake
      rw [wakeReplies, wakeReplies, same _ List.mem_cons_self,
        ih fun wake later => same wake (List.mem_cons_of_mem _ later)]

/-- The readers of a command that fits read the entries above their starts. -/
theorem readReplies_eq (documented : lib.Documented bound)
    (known : ∀ ask ∈ asks, (bound ask.id true).isSome) (answers : AnswersAll lib asks round wakes)
    (fits : args.blocking = true → ReadFits lib bound asks round wakes) :
    readReplies lib args (asks.map (Ask.issued bound)) (asks.map (Ask.resumed bound round.table))
        round wakes =
      readReplies lib args (asks.map (Ask.reader lib bound round.table))
        (asks.map (Ask.reader lib bound round.table)) round wakes := by
  have hashes : ∀ ask ∈ asks, ask.hash ∈ asks.map Ask.hash := fun ask => List.mem_map_of_mem
  have parts : readerParts lib args.maxcnt round.table (asks.map (Ask.issued bound)) =
      readerParts lib args.maxcnt round.table (asks.map (Ask.reader lib bound round.table)) := by
    apply readerParts_congr
    · exact fun _ _ => rfl
    · intro ask member
      obtain ⟨b, isBound⟩ := Option.isSome_iff_exists.mp (known ask member)
      rw [StreamReader.items, StreamReader.items, Ask.issued, Ask.reader, isBound]
      exact items_start documented (answers.issue.sorted _ (hashes ask member)) _ isBound
  rw [readReplies, readReplies, parts]
  cases blocking : args.blocking with
  | false => rfl
  | true =>
      have fits := fits blocking
      rw [wakeReplies_congr]
      intro wake isWake
      apply readerParts_congr
      · exact fun _ _ => rfl
      · intro ask member
        obtain ⟨b, isBound, same⟩ := items_resumed documented
          (answers.issue.sorted _ (hashes ask member)) (answers.issue.typed _ (hashes ask member))
          args.maxcnt (known ask member) (fits.tail ask member)
          (fun isMissing => fits.missing ask member isMissing wake isWake)
        rw [StreamReader.items, StreamReader.items, Ask.resumed, Ask.reader, isBound]
        exact same

end Wakes

section Added

variable (lib : StreamRead) (bound : Bytes → Bool → Option IdBound)

/-- The entries that were added to the streams, as far as they are above the ids that were given. -/
def addedParts (maxcnt : Int) (asks : List Ask) (added : KeyHash → List StreamEntry) :
    List RedisMsg :=
  asks.filterMap fun ask =>
    let items := limited maxcnt ((added ask.hash).filter fun entry =>
      isTail ask.id || idAbove lib.toStreamData ((bound ask.id true).getD ⊤) entry)
    if items = [] then none else some (streamReply ask.kbuf items)

variable {lib bound}

/-- Entries that were added at the end are what is above the start. -/
theorem filter_start_append {ask : Ask} {value value' : ReadValue} {added : List StreamEntry}
    (sorted : value'.Increasing lib.toStreamData) (grown : value'.entries = value.entries ++ added)
    (none : value.entries.filter (idAbove lib.toStreamData (ask.start lib bound value)) = []) :
    value'.entries.filter (idAbove lib.toStreamData (ask.start lib bound value)) =
      added.filter fun entry =>
        isTail ask.id || idAbove lib.toStreamData ((bound ask.id true).getD ⊤) entry := by
  have pairs := sorted.pairwise
  have exists_id := fun entry => @ReadValue.Increasing.exists_id lib value' sorted entry
  rw [grown] at pairs exists_id ⊢
  rw [List.filter_append, none, List.nil_append]
  apply List.filter_congr
  intro entry member
  rw [Ask.start]
  by_cases isLast : isTail ask.id
  · obtain ⟨sid, parsed⟩ := exists_id entry (List.mem_append_right _ member)
    rw [if_pos isLast, isLast, Bool.true_or]
    rcases List.eq_nil_or_concat value.entries with none | concat
    · rw [none, idAbove, parsed]
      show decide ((⊥ : IdBound) < ↑↑sid) = true
      exact decide_eq_true (WithBot.bot_lt_coe _)
    · obtain ⟨front, last, split⟩ := concat
      rw [split, List.concat_eq_append] at pairs ⊢
      obtain ⟨sid', sid2, parsed', parsed2, less⟩ :=
        (List.pairwise_append.mp pairs).2.2 last (by simp) entry member
      rw [parsed] at parsed2
      rw [lastBound_append parsed', idAbove, parsed, Option.some.inj parsed2]
      simpa using less
  · rw [if_neg isLast, Bool.eq_false_iff.mpr isLast, Bool.false_or]

theorem readerParts_added {maxcnt : Int} {asks : List Ask} {table table' : KeyHash → ReadValue}
    {added : KeyHash → List StreamEntry}
    (sorted : ∀ ask ∈ asks, (table' ask.hash).Increasing lib.toStreamData)
    (grown : ∀ ask ∈ asks, (table' ask.hash).entries = (table ask.hash).entries ++ added ask.hash)
    (none : readerParts lib maxcnt table (asks.map (Ask.reader lib bound table)) = []) :
    readerParts lib maxcnt table' (asks.map (Ask.reader lib bound table)) =
      addedParts lib bound maxcnt asks added := by
  rw [readerParts, List.filterMap_map, addedParts]
  apply List.filterMap_congr
  intro ask member
  have before := readerParts_eq_nil.mp none _ (List.mem_map_of_mem member)
  rw [StreamReader.items, itemsAbove, limited_eq_nil] at before
  rw [Function.comp_apply, StreamReader.items, itemsAbove]
  have same := filter_start_append (sorted ask member) (grown ask member) before
  rw [show (Ask.reader lib bound table ask).start = ask.start lib bound (table ask.hash) from rfl,
    show (Ask.reader lib bound table ask).hash = ask.hash from rfl, same]
  rfl

end Added

section Main

variable {lib : StreamRead} {bound : Bytes → Bool → Option IdBound} {hash : Bytes → KeyHash}
  {req : Request} {g : Geometry} {args : XreadArgs} {asks : List Ask} {round : XreadRound}
  {wakes : List (XreadRound × Bool)}

/-- A command replies the first entries above its ids, and a blocking one replies at the first
wake-up that finds some; these are the entries that were added since. -/
theorem xread_exact (documented : lib.Documented bound) (granted : ∀ a, req.grants a = true)
    (accepted : prepareExecCommand req = .ok (.xreadCmd, g))
    (parsed : xreadArgs lib req.msg g.first = some args)
    (asked : AsksFor hash req.msg g.first.toNat asks)
    (known : ∀ ask ∈ asks, (bound ask.id true).isSome) {order : List Nat}
    (orders : order.Perm (List.range asks.length)) (answers : AnswersAll lib asks round wakes)
    (fits : args.blocking = true → ReadFits lib bound asks round wakes) :
    xread lib hash req g round order wakes =
        readReplies lib args (asks.map (Ask.reader lib bound round.table))
          (asks.map (Ask.reader lib bound round.table)) round wakes ∧
      ∀ wake ∈ wakes, ∀ added : KeyHash → List StreamEntry,
        (∀ ask ∈ asks,
          (wake.1.table ask.hash).entries = (round.table ask.hash).entries ++ added ask.hash) →
        readerParts lib args.maxcnt round.table
          (asks.map (Ask.reader lib bound round.table)) = [] →
        readerParts lib args.maxcnt wake.1.table (asks.map (Ask.reader lib bound round.table)) =
          addedParts lib bound args.maxcnt asks added := by
  constructor
  · rw [xread_eq documented granted accepted parsed asked known orders answers
      fun blocking => (fits blocking).typed]
    exact readReplies_eq documented known answers fits
  · intro wake member added grown none
    exact readerParts_added
      (fun ask isAsk => (answers.wakes wake member).sorted _ (List.mem_map_of_mem isAsk)) grown none

end Main

section Decimal

/-- The forms of the last element, a zero, or a bound of a range. -/
def tailBound (arg : Bytes) (gt : Bool) : Option IdBound :=
  if isTail arg then some ⊤
  else if arg = text "0" then some ↑(↑(toLex (0, 0) : StreamId) : WithTop StreamId)
  else decimalBound arg gt

/-- A reader of decimal ids whose timeouts are decimal milliseconds. -/
def decimalRead : StreamRead where
  toStreamData := decimalStreams
  bsearchStr entries arg gt :=
    (tailBound arg gt).map fun b => (entries.takeWhile (idBelow decimalStreams b gt)).length
  lastId entries := entries.getLast?.map StreamEntry.id
  blockNanos m :=
    match m with
    | .string _ _ str => (stringToUint str).toOption.map fun ms => (ms : Int) * 1000000
    | .integer ms => some (ms * 1000000)
    | _ => none

theorem decimalStrToId_length {id : Bytes} {sid : StreamId}
    (parsed : decimalStrToId id = some sid) : 1 < id.length := by
  rw [decimalStrToId] at parsed
  split at parsed
  · cases parsed
  · rename_i digits
    simp only [Bool.or_eq_true, not_or] at digits
    have ms := List.length_pos_of_ne_nil fun none => digits.1.1 (List.isEmpty_iff.mpr none)
    have ser := List.length_pos_of_ne_nil fun none => digits.1.2 (List.isEmpty_iff.mpr none)
    rw [List.length_drop] at ser
    omega

/-- The forms of the last element and the zero have one byte. -/
theorem tailBound_of_length {id : Bytes} (long : 1 < id.length) (gt : Bool) :
    tailBound id gt = (decimalStrToId id).map fun sid => ↑↑sid := by
  have other : ∀ arg : Bytes, arg.length = 1 → id ≠ arg := by
    intro arg one same
    rw [same, one] at long
    exact absurd long (lt_irrefl 1)
  have notTail : isTail id = false := by
    simp [isTail, other (text "$") rfl, other (text ">") rfl, other (text "+") rfl]
  rw [tailBound, notTail, if_neg Bool.false_ne_true, if_neg (other _ rfl), decimalBound,
    if_neg (other _ rfl), if_neg (other _ rfl)]

theorem decimalRead_documented : decimalRead.Documented tailBound where
  lowest _ := rfl
  highest _ := rfl
  bound_idText ms ser gt := by
    have read := decimalStreams_documented.strToId_idText ms ser
    rw [tailBound_of_length (decimalStrToId_length read)]
    exact congrArg (Option.map _) read
  search key sorted arg gt b read := by
    have place : decimalRead.bsearchStr key.value.entries arg gt =
        some (key.value.entries.takeWhile (idBelow decimalStreams b gt)).length := by
      show (tailBound arg gt).map _ = _
      rw [read]
      rfl
    exact ⟨_, place, search_takeWhile sorted b gt⟩
  tail arg isLast := by rw [tailBound, if_pos isLast]
  zero := rfl
  entry id sid parsed := by
    rw [tailBound_of_length (decimalStrToId_length parsed)]
    exact congrArg (Option.map _) parsed
  lastId _ := rfl
  inside entries arg off place := by
    obtain ⟨b, _, rfl⟩ := Option.map_eq_some_iff.mp place
    exact (List.takeWhile_prefix _).length_le

def xreadRequest : Request where
  cmd := some .xreadCmd
  msg := ⟨commandWords ["xread", "block", "0", "streams", "s", "$"], by simp [commandWords]⟩

theorem prepare_xreadRequest :
    prepareExecCommand xreadRequest = .ok (.xreadCmd, ⟨4, 4, 1, 0⟩) := by
  have geometry : keyGeometry .xreadCmd xreadRequest.msg = some ⟨4, 4, 1, 0⟩ := by decide
  rw [prepareExecCommand, show xreadRequest.cmd = some .xreadCmd from rfl]
  dsimp only
  rw [geometry]

theorem parse_xreadRequest :
    xreadArgs decimalRead xreadRequest.msg 4 = some { blocking := true } := by
  have isBlock : xreadRequest.msg.matchArg 1 [text "count", text "block"] = 2 := by decide
  have forever : xreadRequest.msg.args[1 + 1]?.bind decimalRead.blockNanos = some 0 := by decide
  rw [xreadArgs, show xreadRequest.msg.argc = 5 + 1 from rfl, xreadOptionArgs,
    if_pos (by decide), isBlock]
  simp only [forever]
  rfl

/-- The one stream of the request, read at its tail. -/
def tailAsk (hash : Bytes → KeyHash) : Ask := ⟨text "s", hash (text "s"), text "$"⟩

theorem asksFor_xreadRequest (hash : Bytes → KeyHash) :
    AsksFor hash xreadRequest.msg 4 [tailAsk hash] := by
  constructor
  · rfl
  · intro i ask isAsk
    obtain ⟨inside, rfl⟩ := List.getElem?_eq_some_iff.mp isAsk
    obtain rfl : i = 0 := by simpa using inside
    show xreadRequest.msg.getArgStr (4 : Nat) = some (text "s")
    decide
  · intro ask member
    rw [List.mem_singleton.mp member]
    rfl
  · intro i ask isAsk
    obtain ⟨inside, rfl⟩ := List.getElem?_eq_some_iff.mp isAsk
    obtain rfl : i = 0 := by simpa using inside
    show xreadRequest.msg.getArgStr (5 : Nat) = some (text "$")
    decide

/-- A table whose keys all hold the same. -/
def roundOf (value : ReadValue) : XreadRound where
  table _ := value

def oneEntry : ReadValue := .stream [⟨text "1-1", [text "a", text "1"]⟩]

theorem oneEntry_increasing : oneEntry.Increasing decimalStreams := by
  refine ⟨[toLex (1, 1)], by decide, ?_⟩
  exact List.pairwise_singleton _ _

theorem roundOf_works {value : ReadValue} (typed : value ≠ .other)
    (sorted : value.Increasing decimalStreams) (hashes : List KeyHash) :
    (roundOf value).Works decimalRead hashes :=
  ⟨fun _ => rfl, fun _ _ => typed, fun _ _ => sorted⟩

theorem nothing_increasing {value : ReadValue} (none : value.entries = []) :
    value.Increasing decimalStreams := by
  refine ⟨[], ?_, List.Pairwise.nil⟩
  simp [StreamKey.ids, StreamValue.entries, none]

theorem known_tailAsk (hash : Bytes → KeyHash) :
    ∀ ask ∈ [tailAsk hash], (tailBound ask.id true).isSome := by
  intro ask member
  rw [List.mem_singleton.mp member]
  rfl

theorem answersAll_roundOf {value value' : ReadValue} (typed : value ≠ .other)
    (typed' : value' ≠ .other) (sorted : value.Increasing decimalStreams)
    (sorted' : value'.Increasing decimalStreams) (asks : List Ask) :
    AnswersAll decimalRead asks (roundOf value) [(roundOf value', false)] := by
  refine ⟨roundOf_works typed sorted _, ?_⟩
  intro wake member
  rw [List.mem_singleton.mp member]
  exact roundOf_works typed' sorted' _

/-- One key for all names. -/
def oneHash : Bytes → KeyHash := fun _ => ⟨1, 0⟩

theorem idAbove_oneEntry {b : IdBound} {entry : StreamEntry} (member : entry ∈ oneEntry.entries)
    (below : b < ↑(↑(toLex (1, 1) : StreamId) : WithTop StreamId)) :
    idAbove decimalStreams b entry = true := by
  have parsed : decimalStreams.strToId entry.id = some (toLex (1, 1)) := by
    rw [List.mem_singleton.mp member]
    decide
  rw [idAbove, parsed]
  exact decide_eq_true below

/-- A reader of a missing stream is woken up by its first entry. -/
theorem xread_exact_missing :
    xread decimalRead oneHash xreadRequest ⟨4, 4, 1, 0⟩ (roundOf .missing) [0]
        [(roundOf oneEntry, false)] =
      readReplies decimalRead { blocking := true }
        ([tailAsk oneHash].map (Ask.reader decimalRead tailBound fun _ => .missing))
        ([tailAsk oneHash].map (Ask.reader decimalRead tailBound fun _ => .missing))
        (roundOf .missing) [(roundOf oneEntry, false)] := by
  refine (xread_exact decimalRead_documented (fun _ => rfl) prepare_xreadRequest
    parse_xreadRequest (asksFor_xreadRequest oneHash) (known_tailAsk oneHash)
    (show [0].Perm (List.range 1) from List.Perm.refl _)
    (answersAll_roundOf (by decide) (by decide) (nothing_increasing rfl) oneEntry_increasing _)
    fun _ => ⟨?_, ?_, fun several => absurd rfl several⟩).1
  · simp [roundOf]
  · intro ask member _ wake isWake entry isEntry
    rw [List.mem_singleton.mp isWake] at isEntry
    have isLast : isTail ask.id = true := by
      rw [List.mem_singleton.mp member]
      rfl
    have start : ask.start decimalRead tailBound .missing = ⊥ := by
      rw [Ask.start, if_pos isLast]
      rfl
    rw [start]
    exact (idAbove_oneEntry isEntry (by decide)).trans
      (idAbove_oneEntry isEntry (WithBot.bot_lt_coe _)).symm

/-- The first entry of a stream that was there and empty does not wake up its reader. -/
theorem not_xread_exact :
    xread decimalRead oneHash xreadRequest ⟨4, 4, 1, 0⟩ (roundOf (.stream [])) [0]
        [(roundOf oneEntry, false)] = [] ∧
      readReplies decimalRead { blocking := true }
        ([tailAsk oneHash].map (Ask.reader decimalRead tailBound fun _ => .stream []))
        ([tailAsk oneHash].map (Ask.reader decimalRead tailBound fun _ => .stream []))
        (roundOf (.stream [])) [(roundOf oneEntry, false)] ≠ [] := by
  constructor
  · rw [xread_eq decimalRead_documented (fun _ => rfl) prepare_xreadRequest parse_xreadRequest
      (asksFor_xreadRequest oneHash) (known_tailAsk oneHash)
      (show [0].Perm (List.range 1) from List.Perm.refl _)
      (answersAll_roundOf (by decide) (by decide) (nothing_increasing rfl) oneEntry_increasing _)
      fun _ several => absurd rfl several]
    rfl
  · decide

end Decimal

end Raids
