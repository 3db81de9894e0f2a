import Mathlib
import Raids.Construction.Stream.Read
import Raids.Proof.Stream.Range
import Raids.Proof.Multi.Serial

namespace Raids

/-- An id below all entries, an id, or an id above all entries. -/
abbrev IdBound := WithBot (WithTop StreamId)

/-- The id of an entry is above a bound. -/
def idAbove (lib : StreamData) (b : IdBound) (entry : StreamEntry) : Bool :=
  (lib.strToId entry.id).any fun sid => decide (b < ↑↑sid)

/-- What the readers rely on besides the ranges: the forms of the last element are above all ids, a
zero is the first id, the id of an entry is a bound, the last id is the one of the last entry, and a
place is inside the stream. -/
structure StreamRead.Documented (lib : StreamRead) (bound : Bytes → Bool → Option IdBound) : Prop
    extends lib.toStreamSearch.Documented bound where
  tail : ∀ arg, isTail arg → bound arg true = some ⊤
  zero : bound (text "0") true = some ↑(↑(toLex (0, 0) : StreamId) : WithTop StreamId)
  entry : ∀ id sid, lib.strToId id = some sid → bound id true = some ↑↑sid
  lastId : ∀ entries, lib.lastId entries = entries.getLast?.map StreamEntry.id
  inside : ∀ entries arg off, lib.bsearchStr entries arg true = some off → off ≤ entries.length

section Entries

variable {lib : StreamRead} {bound : Bytes → Bool → Option IdBound}

/-- A count leaves an entry where there is one. -/
theorem limited_eq_nil {maxcnt : Int} {items : List StreamEntry} :
    limited maxcnt items = [] ↔ items = [] := by
  constructor
  · intro none
    cases items with
    | nil => rfl
    | cons entry items =>
        rw [limited_cons] at none
        split at none
        · split at none <;> cases none
        · cases none
  · intro none
    rw [none, limited_nil]

/-- In a list of two halves the second half is what meets a condition. -/
theorem filter_eq_drop {α : Type*} {p : α → Bool} {l : List α} {n : Nat}
    (front : ∀ a ∈ l.take n, p a = false) (back : ∀ a ∈ l.drop n, p a = true) :
    l.filter p = l.drop n := by
  conv_lhs => rw [← List.take_append_drop n l]
  rw [List.filter_append, List.filter_eq_nil_iff.mpr, List.filter_eq_self.mpr back,
    List.nil_append]
  intro a member
  rw [front a member]
  exact Bool.false_ne_true

/-- The entries of a value are in the order of their ids. -/
def ReadValue.Increasing (lib : StreamData) (value : ReadValue) : Prop :=
  StreamKey.Increasing lib { value := .stream value.entries }

theorem idAbove_eq {b : IdBound} {entry : StreamEntry} {sid : StreamId}
    (parsed : lib.strToId entry.id = some sid) :
    idAbove lib.toStreamData b entry = !idBelow lib.toStreamData b true entry := by
  rw [idAbove, idBelow, parsed]
  simp [← not_le]

/-- The place of an id is in front of the entries above it. -/
theorem search_above (documented : lib.Documented bound) {value : ReadValue}
    (sorted : value.Increasing lib.toStreamData) {arg : Bytes} {b : IdBound}
    (read : bound arg true = some b) :
    ∃ off, lib.bsearchStr value.entries arg true = some off ∧ off ≤ value.entries.length ∧
      value.entries.filter (idAbove lib.toStreamData b) = value.entries.drop off := by
  obtain ⟨off, place, below, above⟩ :=
    documented.search { value := .stream value.entries } sorted arg true b read
  refine ⟨off, place, documented.inside _ _ _ place, filter_eq_drop ?_ ?_⟩
  · intro entry member
    obtain ⟨sid, parsed⟩ := exists_id sorted (List.mem_of_mem_take member)
    rw [idAbove_eq parsed, below entry member]
    rfl
  · intro entry member
    obtain ⟨sid, parsed⟩ := exists_id sorted (List.mem_of_mem_drop member)
    rw [idAbove_eq parsed, above entry member]
    rfl

end Entries

section Key

variable (lib : StreamRead) {bound : Bytes → Bool → Option IdBound}

/-- The entries of a value above an id, up to the count. -/
def itemsAbove (maxcnt : Int) (b : IdBound) (value : ReadValue) : List StreamEntry :=
  limited maxcnt (value.entries.filter (idAbove lib.toStreamData b))

/-- The id that a blocked key keeps: a zero where the key is missing, and the last id where the
stream is read at its tail. -/
def keptId (arg : Bytes) (value : ReadValue) : Option Bytes :=
  match value with
  | .stream entries => if isTail arg then entries.getLast?.map StreamEntry.id else none
  | _ => some (text "0")

/-- What a read leaves: a key that is found where there are entries, a key that is not found or has
no part where there are none, and the id that is kept. -/
structure ReadLeaves (blocking : Bool) (arg : Bytes) (value : ReadValue) (items : List StreamEntry)
    (ctx ctx' : XreadCtx) : Prop where
  kbuf : ctx'.kbuf = ctx.kbuf
  found : items ≠ [] → ctx'.kstatus = .keyOk
  silent : items = [] → (blocking = true → value ≠ .noType) →
    (blocking = false → ctx.part = none) → ctx'.kstatus = .keyNotFound ∨ ctx'.part = none
  kept : items = [] → blocking = true → ctx.isSavedCont = false →
    ctx'.savedId = keptId arg value

variable {lib}

theorem saveZero_savedId {ctx : XreadCtx} (new : ctx.isSavedCont = false) :
    (ctx.saveZero true).savedId = some (text "0") := by
  rw [XreadCtx.saveZero, if_pos ⟨rfl, new⟩]
  rfl

theorem saveZero_of_not_blocking (ctx : XreadCtx) : ctx.saveZero false = ctx := by
  rw [XreadCtx.saveZero, if_neg]
  simp

theorem saveZero_kbuf (ctx : XreadCtx) (blocking : Bool) :
    (ctx.saveZero blocking).kbuf = ctx.kbuf := by
  rw [XreadCtx.saveZero]
  split <;> rfl

theorem saveZero_kstatus (ctx : XreadCtx) (blocking : Bool) :
    (ctx.saveZero blocking).kstatus = ctx.kstatus := by
  rw [XreadCtx.saveZero]
  split <;> rfl

theorem saveTail_kbuf (ctx : XreadCtx) (blocking : Bool) (arg : Bytes)
    (entries : List StreamEntry) : (ctx.saveTail lib blocking arg entries).kbuf = ctx.kbuf := by
  rw [XreadCtx.saveTail]
  split
  · split <;> rfl
  · rfl

theorem saveTail_kstatus (ctx : XreadCtx) (arg : Bytes) (entries : List StreamEntry) :
    (ctx.saveTail lib true arg entries).kstatus = .keyNotFound := by
  rw [XreadCtx.saveTail, if_pos rfl]
  split <;> rfl

theorem saveTail_of_not_blocking (ctx : XreadCtx) (arg : Bytes) (entries : List StreamEntry) :
    ctx.saveTail lib false arg entries = ctx := by
  rw [XreadCtx.saveTail, if_neg Bool.false_ne_true]

theorem saveTail_savedId (documented : lib.Documented bound) {ctx : XreadCtx}
    (new : ctx.isSavedCont = false) (arg : Bytes) (entries : List StreamEntry) :
    (ctx.saveTail lib true arg entries).savedId = keptId arg (.stream entries) := by
  rw [XreadCtx.saveTail, if_pos rfl, new, documented.lastId, keptId]
  cases isTail arg with
  | false => simp [XreadCtx.savedId]
  | true =>
      cases entries.getLast?.map StreamEntry.id with
      | none => simp [XreadCtx.savedId]
      | some id => rfl

/-- A key that is read as missing has no entries. -/
theorem readLeaves_missing {value : ReadValue} (missing : value = .missing ∨ value = .noType)
    {blocking : Bool} {arg : Bytes} (ctx : XreadCtx) :
    ReadLeaves blocking arg value [] ctx
      (({ ctx with kstatus := value.kstatus } : XreadCtx).saveZero blocking) where
  kbuf := saveZero_kbuf _ _
  found := fun found => absurd rfl found
  silent := by
    intro _ typed new
    cases blocking with
    | false =>
        rw [saveZero_of_not_blocking]
        exact Or.inr (new rfl)
    | true =>
        rw [saveZero_kstatus, missing.resolve_right (typed rfl)]
        exact Or.inl rfl
  kept := by
    intro _ isBlocking new
    have kept : keptId arg value = some (text "0") := by
      rcases missing with rfl | rfl <;> rfl
    rw [isBlocking, kept]
    exact saveZero_savedId new

/-- A read that works leaves the entries above its id. -/
theorem readKey_leaves (documented : lib.Documented bound) {value : ReadValue}
    (sorted : value.Increasing lib.toStreamData) (typed : value ≠ .other) {arg : Bytes}
    {b : IdBound} (read : bound arg true = some b) (args : XreadArgs) (ctx : XreadCtx) :
    ∃ ctx', readKey lib {} args arg ctx value = .ok (ctx', itemsAbove lib args.maxcnt b value) ∧
      ReadLeaves args.blocking arg value (itemsAbove lib args.maxcnt b value) ctx ctx' := by
  cases value with
  | other => exact absurd rfl typed
  | missing =>
      have none : itemsAbove lib args.maxcnt b .missing = [] := limited_eq_nil.mpr rfl
      rw [none]
      exact ⟨_, rfl, readLeaves_missing (Or.inl rfl) ctx⟩
  | noType =>
      have none : itemsAbove lib args.maxcnt b .noType = [] := limited_eq_nil.mpr rfl
      rw [none]
      exact ⟨_, rfl, readLeaves_missing (Or.inr rfl) ctx⟩
  | stream entries =>
      obtain ⟨off, place, inside, above⟩ := search_above documented sorted read
      have items : itemsAbove lib args.maxcnt b (.stream entries) =
          limited args.maxcnt (entries.drop off) := by
        rw [itemsAbove, above]
        rfl
      rw [items]
      have search : lib.bsearchStr entries arg true = some off := place
      by_cases last : off = entries.length
      · have none : limited args.maxcnt (entries.drop off) = [] := by
          rw [limited_eq_nil, List.drop_eq_nil_iff]
          omega
        rw [none]
        refine ⟨(({ ctx with kstatus := .keyOk } : XreadCtx).saveTail lib args.blocking arg
          entries), ?_, ?_⟩
        · simp [readKey, search, last, ReadValue.kstatus]
        · constructor
          · exact saveTail_kbuf _ _ _ _
          · exact fun found => absurd rfl found
          · intro _ _ new
            cases blocking : args.blocking with
            | false => exact Or.inr (by rw [saveTail_of_not_blocking]; exact new blocking)
            | true => exact Or.inl (saveTail_kstatus _ _ _)
          · intro _ blocking new
            rw [blocking, saveTail_savedId documented (by exact new)]
      · have some : limited args.maxcnt (entries.drop off) ≠ [] := by
          rw [ne_eq, limited_eq_nil, List.drop_eq_nil_iff]
          have within : off ≤ entries.length := inside
          omega
        refine ⟨{ ctx with kstatus := .keyOk }, ?_, ?_⟩
        · have whole : xrangeUp entries (entries.length - off) off args.maxcnt =
              limited args.maxcnt (entries.drop off) := by
            rw [xrangeUp_eq, List.take_of_length_le (by rw [List.length_drop])]
          simp [readKey, search, last, ReadValue.kstatus, whole]
        · exact ⟨rfl, fun _ => rfl, fun none => absurd none some, fun none => absurd none some⟩

end Key

/-- One stream of a command, with the id at which it is read. -/
structure StreamReader where
  kbuf : Bytes
  hash : KeyHash
  arg : Bytes
  start : IdBound

section Parts

variable (lib : StreamRead) (maxcnt : Int) (table : KeyHash → ReadValue)

def StreamReader.items (reader : StreamReader) : List StreamEntry :=
  itemsAbove lib maxcnt reader.start (table reader.hash)

/-- The streams that have entries reply in their order. -/
def readerParts (readers : List StreamReader) : List RedisMsg :=
  readers.filterMap fun reader =>
    if reader.items lib maxcnt table = [] then none
    else some (streamReply reader.kbuf (reader.items lib maxcnt table))

def sentParts (parts : List RedisMsg) : XreadReply := .msg (.array parts.length parts)

/-- What the turn of a key leaves: its reply where it has entries, and no part for the reply where
it has none. -/
structure TurnLeaves (blocking : Bool) (reader : StreamReader) (ctx ctx' : XreadCtx) : Prop where
  replies : reader.items lib maxcnt table ≠ [] → ctx'.kstatus = .keyOk ∧
    ctx'.part = some (.reply (streamReply reader.kbuf (reader.items lib maxcnt table)))
  silent : reader.items lib maxcnt table = [] →
    ctx'.kstatus = .keyNotFound ∨ ctx'.part = none
  kept : reader.items lib maxcnt table = [] → blocking = true → ctx.isSavedCont = false →
    ctx'.savedId = keptId reader.arg (table reader.hash)

variable {lib maxcnt table}

/-- Nothing is replied where no stream has entries. -/
theorem readerParts_eq_nil {readers : List StreamReader} :
    readerParts lib maxcnt table readers = [] ↔
      ∀ reader ∈ readers, reader.items lib maxcnt table = [] := by
  simp [readerParts, List.filterMap_eq_nil_iff]

/-- The parts are those of the streams that have entries. -/
theorem xreadParts_eq {blocking : Bool} {readers : List StreamReader} {keys : List XreadCtx}
    (leaves : List.Forall₂ (fun reader ctx' => ∃ ctx,
      TurnLeaves lib maxcnt table blocking reader ctx ctx') readers keys) :
    xreadParts keys = some (readerParts lib maxcnt table readers) := by
  induction leaves with
  | nil => rfl
  | @cons reader ctx' readers keys first _ ih =>
      obtain ⟨ctx, leaves⟩ := first
      rw [xreadParts, readerParts, List.filterMap_cons]
      by_cases none : reader.items lib maxcnt table = []
      · rw [if_pos none]
        rcases leaves.silent none with notFound | noPart
        · rw [if_neg (by simp [notFound]), ih]
          rfl
        · rw [noPart, ih]
          split <;> rfl
      · obtain ⟨found, part⟩ := leaves.replies none
        rw [if_neg none, if_pos (by simp [found]), part, ih]
        rfl

end Parts

section Turn

variable {lib : StreamRead} {bound : Bytes → Bool → Option IdBound} {msg : CommandMsg}
  {g : Geometry} {args : XreadArgs} {round : XreadRound} {reader : StreamReader} {ctx : XreadCtx}
  {s : XreadRun} {idx : Nat}

/-- A context stands for a reader. -/
structure StandsFor (bound : Bytes → Bool → Option IdBound) (msg : CommandMsg) (g : Geometry)
    (reader : StreamReader) (ctx : XreadCtx) : Prop where
  kbuf : ctx.kbuf = reader.kbuf
  hash : ctx.hash = reader.hash
  arg : ctx.arg msg g = some reader.arg
  start : bound reader.arg true = some reader.start

/-- The table answers, and the keys are streams or missing. -/
structure XreadRound.Works (lib : StreamRead) (round : XreadRound) (hashes : List KeyHash) :
    Prop where
  env : ∀ idx, round.env idx = {}
  typed : ∀ hash ∈ hashes, round.table hash ≠ .other
  sorted : ∀ hash ∈ hashes, (round.table hash).Increasing lib.toStreamData

/-- The part of a key that was found. -/
def XreadCtx.withPart (ctx : XreadCtx) (items : List StreamEntry) : XreadCtx :=
  if ctx.kstatus ≠ .keyNotFound ∧ items ≠ [] then
    { ctx with part := some (.reply (streamReply ctx.kbuf items)) }
  else ctx

/-- A key of several ones saves its part. -/
theorem finishXread_more (several : s.keys.length ≠ 1) (left : s.keyDone + 1 ≠ s.keys.length)
    (items : List StreamEntry) :
    finishXread s idx ctx items = (ctx.withPart items, [], .execOk) := by
  rw [finishXread, if_neg several]
  simp only [if_neg left]
  rfl

theorem finishXread_last (several : s.keys.length ≠ 1) (last : s.keyDone + 1 = s.keys.length)
    (items : List StreamEntry) {parts : List RedisMsg}
    (read : xreadParts (s.keys.set idx (ctx.withPart items)) = some parts) :
    finishXread s idx ctx items =
      (ctx.withPart items, if parts = [] then [] else [sentParts parts],
        if parts = [] then .execSendNull else .execOk) := by
  rw [finishXread, if_neg several]
  rw [XreadCtx.withPart] at read
  simp only [if_pos last, read]
  cases parts <;> rfl

theorem finishXread_one (one : s.keys.length = 1) (items : List StreamEntry)
    (found : items ≠ [] → ctx.kstatus = .keyOk) :
    finishXread s idx ctx items =
      (ctx, if items = [] then [] else [sentParts [streamReply ctx.kbuf items]],
        if items = [] then .execSendNull else .execOk) := by
  rw [finishXread, if_pos one]
  by_cases none : items = []
  · simp [none]
  · simp [none, found none, sentParts]

/-- A part is left where entries are found. -/
theorem turnLeaves_withPart {ctx' : XreadCtx} (kbuf : ctx.kbuf = reader.kbuf)
    (new : args.blocking = false → ctx.part = none)
    (typed : args.blocking = true → round.table reader.hash ≠ .noType)
    (leaves : ReadLeaves args.blocking reader.arg (round.table reader.hash)
      (reader.items lib args.maxcnt round.table) ctx ctx') :
    TurnLeaves lib args.maxcnt round.table args.blocking reader ctx
      (ctx'.withPart (reader.items lib args.maxcnt round.table)) := by
  constructor
  · intro some
    have found := leaves.found some
    rw [XreadCtx.withPart, if_pos ⟨by simp [found], some⟩, leaves.kbuf, kbuf]
    exact ⟨found, rfl⟩
  · intro none
    rw [XreadCtx.withPart, if_neg (by simp [none])]
    exact leaves.silent none typed new
  · intro none blocking fresh
    rw [XreadCtx.withPart, if_neg (by simp [none])]
    exact leaves.kept none blocking fresh

/-- The read of a key, in front of its end. -/
theorem execXread_eq (s : XreadRun) (idx : Nat) (documented : lib.Documented bound)
    (parsed : xreadArgs lib msg g.first = some args) (reads : StandsFor bound msg g reader ctx)
    {hashes : List KeyHash} (works : round.Works lib hashes) (member : reader.hash ∈ hashes) :
    ∃ ctx', ReadLeaves args.blocking reader.arg (round.table reader.hash)
        (reader.items lib args.maxcnt round.table) ctx ctx' ∧
      ∀ ctx'' out status,
        finishXread s idx ctx' (reader.items lib args.maxcnt round.table) = (ctx'', out, status) →
        execXread lib msg g (round.env idx) (round.table ctx.hash) s idx ctx =
          (ctx'', out,
            if status = .execSendNull ∧ args.blocking then .execBlocked else status) := by
  obtain ⟨ctx', read, leaves⟩ := readKey_leaves documented (works.sorted _ member)
    (works.typed _ member) reads.start args ctx
  refine ⟨ctx', leaves, ?_⟩
  intro ctx'' out status finished
  rw [execXread, parsed]
  simp only [reads.arg, reads.hash, works.env, read]
  rw [show itemsAbove lib args.maxcnt reader.start (round.table reader.hash) =
    reader.items lib args.maxcnt round.table from rfl, finished]

end Turn

section Reading

variable {lib : StreamRead} {bound : Bytes → Bool → Option IdBound} {msg : CommandMsg}
  {g : Geometry} {args : XreadArgs} {round : XreadRound} {readers : List StreamReader}
  {fresh : List XreadCtx} {s : XreadRun} {blk : Option Bool} {done : List Nat} {idx : Nat}

/-- Some keys have had their turns, and nothing is sent yet. -/
structure Reading (lib : StreamRead) (args : XreadArgs) (table : KeyHash → ReadValue)
    (readers : List StreamReader) (fresh : List XreadCtx) (done : List Nat) (s : XreadRun) :
    Prop where
  quiet : s = { keys := s.keys, keyDone := done.length }
  length : s.keys.length = readers.length
  before : ∀ i, i ∉ done → s.keys[i]? = fresh[i]?
  behind : ∀ i ∈ done, ∀ reader ctx, readers[i]? = some reader → fresh[i]? = some ctx →
    ∃ ctx', s.keys[i]? = some ctx' ∧
      TurnLeaves lib args.maxcnt table args.blocking reader ctx ctx'

/-- How a command ends that has the parts of its reply. -/
structure RunEnds (blk : Option Bool) (blocking : Bool) (parts : List RedisMsg) (s : XreadRun) :
    Prop where
  replies : parts ≠ [] → s.out = [sentParts parts] ∧ s.blocked = false ∧ s.complete = blk.isSome
  silent : parts = [] → blocking = false →
    s.out = [.status .execSendNull] ∧ s.blocked = false ∧ s.complete = blk.isSome
  blocks : parts = [] → blocking = true →
    s.out = (if blk = some true then [.status .execSendNull] else []) ∧
      s.blocked = blk.isNone ∧ s.complete = (blk == some true)

/-- The contexts stand for the readers, and the round answers them. A key without a type is no key
of a blocking command with several keys. -/
structure RunWorks (lib : StreamRead) (bound : Bytes → Bool → Option IdBound) (msg : CommandMsg)
    (g : Geometry) (args : XreadArgs) (round : XreadRound) (readers : List StreamReader)
    (fresh : List XreadCtx) : Prop where
  documented : lib.Documented bound
  parsed : xreadArgs lib msg g.first = some args
  reads : List.Forall₂ (StandsFor bound msg g) readers fresh
  works : round.Works lib (readers.map StreamReader.hash)
  new : args.blocking = false → ∀ ctx ∈ fresh, ctx.part = none
  typed : args.blocking = true → readers.length ≠ 1 →
    ∀ reader ∈ readers, round.table reader.hash ≠ .noType

theorem Reading.start (lib : StreamRead) (args : XreadArgs) (round : XreadRound)
    (same : fresh.length = readers.length) :
    Reading lib args round.table readers fresh [] { keys := fresh } where
  quiet := rfl
  length := same
  before := fun _ _ => rfl
  behind := fun _ member => nomatch member

theorem Reading.keyDone (reading : Reading lib args round.table readers fresh done s) :
    s.keyDone = done.length := by
  rw [reading.quiet]

/-- A key in front of its turn has its first context. -/
theorem Reading.found (run : RunWorks lib bound msg g args round readers fresh)
    (reading : Reading lib args round.table readers fresh done s) (inside : idx < readers.length)
    (left : idx ∉ done) :
    ∃ reader ctx, readers[idx]? = some reader ∧ fresh[idx]? = some ctx ∧ s.keys[idx]? = some ctx ∧
      StandsFor bound msg g reader ctx := by
  have inside' : idx < fresh.length := by rwa [← run.reads.length_eq]
  refine ⟨readers[idx], fresh[idx], List.getElem?_eq_getElem inside,
    List.getElem?_eq_getElem inside', ?_, ?_⟩
  · rw [reading.before idx left, List.getElem?_eq_getElem inside']
  · exact run.reads.get inside inside'

/-- One more key has had its turn. -/
theorem Reading.set (reading : Reading lib args round.table readers fresh done s)
    (inside : idx < readers.length) {ctx ctx' : XreadCtx} {reader : StreamReader}
    (isReader : readers[idx]? = some reader) (isFresh : fresh[idx]? = some ctx)
    (leaves : TurnLeaves lib args.maxcnt round.table args.blocking reader ctx ctx') :
    Reading lib args round.table readers fresh (done ++ [idx])
      { keys := s.keys.set idx ctx', keyDone := (done ++ [idx]).length } where
  quiet := rfl
  length := by rw [List.length_set, reading.length]
  before := by
    intro i left
    rw [List.mem_append, List.mem_singleton, not_or] at left
    rw [List.getElem?_set_ne (fun same => left.2 same.symm), reading.before i left.1]
  behind := by
    intro i member reader' ctx'' isReader' isFresh'
    by_cases here : i = idx
    · rw [here, isReader] at isReader'
      rw [here, isFresh] at isFresh'
      obtain rfl := Option.some.inj isReader'
      obtain rfl := Option.some.inj isFresh'
      refine ⟨ctx', ?_, leaves⟩
      rw [here, List.getElem?_set_self (by rw [reading.length]; exact inside)]
    · rw [List.mem_append, List.mem_singleton] at member
      rw [List.getElem?_set_ne (Ne.symm here)]
      exact reading.behind i (member.resolve_right here) reader' ctx'' isReader' isFresh'

/-- The parts of the keys when all turns are over. -/
theorem Reading.parts (reading : Reading lib args round.table readers fresh done s)
    (same : fresh.length = readers.length) (all : ∀ i < readers.length, i ∈ done) :
    List.Forall₂ (fun reader ctx' => ∃ ctx ∈ fresh,
      TurnLeaves lib args.maxcnt round.table args.blocking reader ctx ctx') readers s.keys := by
  rw [List.forall₂_iff_get]
  refine ⟨reading.length.symm, ?_⟩
  intro i inside inside'
  have within : i < fresh.length := by omega
  obtain ⟨ctx', here, leaves⟩ := reading.behind i (all i inside) readers[i] fresh[i]
    (List.getElem?_eq_getElem inside) (List.getElem?_eq_getElem within)
  rw [List.getElem?_eq_getElem inside'] at here
  rw [List.get_eq_getElem, List.get_eq_getElem, Option.some.inj here]
  exact ⟨fresh[i], List.getElem_mem within, leaves⟩

/-- A turn in front of the last one saves its part. -/
theorem Reading.more (blk : Option Bool) (run : RunWorks lib bound msg g args round readers fresh)
    (reading : Reading lib args round.table readers fresh done s) (inside : idx < readers.length)
    (left : idx ∉ done) (notLast : done.length + 1 < readers.length) :
    Reading lib args round.table readers fresh (done ++ [idx])
      (xreadContinue lib msg g blk round s idx) := by
  obtain ⟨reader, ctx, isReader, isFresh, here, reads⟩ := reading.found run inside left
  have member : reader ∈ readers := List.mem_of_getElem? isReader
  obtain ⟨ctx', leaves, read⟩ := execXread_eq s idx run.documented run.parsed reads
    run.works (List.mem_map_of_mem member)
  have several : s.keys.length ≠ 1 := by
    rw [reading.length]
    omega
  have more : s.keyDone + 1 ≠ s.keys.length := by
    rw [reading.length, reading.keyDone]
    omega
  have turn := read _ _ _ (finishXread_more several more _)
  have saved := turnLeaves_withPart reads.kbuf
    (fun quiet => run.new quiet ctx (List.mem_of_getElem? isFresh))
    (fun blocking => run.typed blocking (by omega) reader member) leaves
  have next := reading.set inside isReader isFresh saved
  have result : xreadContinue lib msg g blk round s idx =
      { keys := s.keys.set idx (ctx'.withPart (reader.items lib args.maxcnt round.table))
        keyDone := (done ++ [idx]).length } := by
    have goesOn : ExecStatus.execOk.ctorIdx ≤ ExecStatus.execBlocked.ctorIdx := by decide
    have notDone : ¬done.length + 1 = s.keys.length := by
      rw [reading.length]
      omega
    rw [xreadContinue, here]
    simp only [turn]
    rw [reading.quiet]
    simp [notDone, goesOn]
  rw [result]
  exact next

/-- The last turn ends the command, or blocks it. -/
theorem xreadContinue_last {parts : List RedisMsg} {ctx ctx' : XreadCtx}
    (quiet : s = { keys := s.keys, keyDone := s.keyDone }) (here : s.keys[idx]? = some ctx)
    (last : s.keyDone + 1 = s.keys.length)
    (turn : execXread lib msg g (round.env idx) (round.table ctx.hash) s idx ctx =
      (ctx', if parts = [] then [] else [sentParts parts],
        if (if parts = [] then ExecStatus.execSendNull else .execOk) = .execSendNull ∧
          args.blocking then .execBlocked
        else if parts = [] then .execSendNull else .execOk)) :
    RunEnds blk args.blocking parts (xreadContinue lib msg g blk round s idx) ∧
      (xreadContinue lib msg g blk round s idx).keys = s.keys.set idx ctx' := by
  have done : s.keyDone + 1 = (s.keys.set idx ctx').length := by rw [List.length_set, last]
  have silent : s.out = [] ∧ s.stopped = false ∧ s.blocked = false ∧ s.complete = false := by
    rw [quiet]
    exact ⟨rfl, rfl, rfl, rfl⟩
  obtain ⟨out, goes, free, more⟩ := silent
  rw [xreadContinue, here]
  simp only [turn, goes, Bool.false_eq_true, if_false, if_pos done, out]
  by_cases none : parts = []
  · cases blocking : args.blocking with
    | false =>
        simp only [none, if_true, Bool.false_eq_true, and_false, if_false, reduceCtorEq, and_true]
        exact ⟨fun some => absurd rfl some, fun _ _ => ⟨rfl, free, rfl⟩, fun _ wrong => (by cases wrong)⟩
    | true =>
        simp only [none, if_true, and_self]
        cases blk with
        | none =>
            exact ⟨⟨fun some => absurd rfl some, fun _ wrong => (by cases wrong),
              fun _ _ => ⟨rfl, rfl, more⟩⟩, rfl⟩
        | some timeout =>
            cases timeout with
            | false =>
                exact ⟨⟨fun some => absurd rfl some, fun _ wrong => (by cases wrong),
                  fun _ _ => ⟨rfl, free, more⟩⟩, rfl⟩
            | true =>
                exact ⟨⟨fun some => absurd rfl some, fun _ wrong => (by cases wrong),
                  fun _ _ => ⟨rfl, free, rfl⟩⟩, rfl⟩
  · simp only [none, if_false, reduceCtorEq, false_and, and_true]
    exact ⟨fun _ => ⟨rfl, free, rfl⟩, fun wrong => absurd wrong none,
      fun wrong => absurd wrong none⟩

/-- The contexts keep the ids at which their readers go on. -/
def KeptIds (table : KeyHash → ReadValue) (readers : List StreamReader) (keys : List XreadCtx) :
    Prop :=
  List.Forall₂ (fun reader ctx => ctx.savedId = keptId reader.arg (table reader.hash)) readers keys

/-- The last turn replies the parts of all keys. -/
theorem Reading.last (blk : Option Bool) (run : RunWorks lib bound msg g args round readers fresh)
    (reading : Reading lib args round.table readers fresh done s) (inside : idx < readers.length)
    (left : idx ∉ done) (last : done.length + 1 = readers.length)
    (others : ∀ i < readers.length, i ≠ idx → i ∈ done) :
    RunEnds blk args.blocking (readerParts lib args.maxcnt round.table readers)
        (xreadContinue lib msg g blk round s idx) ∧
      (readerParts lib args.maxcnt round.table readers = [] → args.blocking = true →
        (∀ ctx ∈ fresh, ctx.isSavedCont = false) →
        KeptIds round.table readers (xreadContinue lib msg g blk round s idx).keys) := by
  obtain ⟨reader, ctx, isReader, isFresh, here, reads⟩ := reading.found run inside left
  have member : reader ∈ readers := List.mem_of_getElem? isReader
  have isFirst : ctx ∈ fresh := List.mem_of_getElem? isFresh
  obtain ⟨ctx', leaves, read⟩ := execXread_eq s idx run.documented run.parsed reads
    run.works (List.mem_map_of_mem member)
  have quiet : s = { keys := s.keys, keyDone := s.keyDone } := by
    rw [reading.keyDone]
    exact reading.quiet
  have ends : s.keyDone + 1 = s.keys.length := by
    rw [reading.length, reading.keyDone, last]
  by_cases one : readers.length = 1
  · have single : readers = [reader] := by
      obtain ⟨only, rfl⟩ := List.length_eq_one_iff.mp one
      rw [List.mem_singleton.mp member]
    have length : s.keys.length = 1 := by rw [reading.length, one]
    have parts : readerParts lib args.maxcnt round.table readers =
        if reader.items lib args.maxcnt round.table = [] then []
        else [streamReply ctx'.kbuf (reader.items lib args.maxcnt round.table)] := by
      rw [single, readerParts, List.filterMap_cons, List.filterMap_nil, leaves.kbuf, reads.kbuf]
      by_cases none : reader.items lib args.maxcnt round.table = []
      · rw [if_pos none, if_pos none]
      · rw [if_neg none, if_neg none]
    have turn := read _ _ _ (finishXread_one length _ leaves.found)
    have isEmpty : readerParts lib args.maxcnt round.table readers = [] ↔
        reader.items lib args.maxcnt round.table = [] := by
      rw [readerParts_eq_nil, single, List.forall_mem_singleton]
    have ended := @xreadContinue_last lib msg g args round s blk idx
      (readerParts lib args.maxcnt round.table readers) ctx ctx' quiet here ends (by
        rw [turn]
        by_cases none : reader.items lib args.maxcnt round.table = []
        · simp [none, isEmpty]
        · simp [none, parts])
    refine ⟨ended.1, ?_⟩
    intro none blocking unsaved
    have kept := leaves.kept (isEmpty.mp none) blocking (unsaved ctx isFirst)
    obtain ⟨only, isOnly⟩ := List.length_eq_one_iff.mp length
    have first : idx = 0 := by omega
    rw [ended.2, isOnly, first, List.set_cons_zero, KeptIds, single]
    exact .cons kept .nil
  · have several : s.keys.length ≠ 1 := by rwa [reading.length]
    have saved := turnLeaves_withPart reads.kbuf (fun quiet => run.new quiet ctx isFirst)
      (fun blocking => run.typed blocking one reader member) leaves
    have next := reading.set inside isReader isFresh saved
    have all : ∀ i < readers.length, i ∈ done ++ [idx] := by
      intro i within
      by_cases same : i = idx
      · simp [same]
      · simp [others i within same]
    have each := next.parts run.reads.length_eq.symm all
    have parts := xreadParts_eq (each.imp fun _ _ ⟨ctx, _, leaves⟩ => ⟨ctx, leaves⟩)
    have turn := read _ _ _ (finishXread_last several ends _ parts)
    have ended := @xreadContinue_last lib msg g args round s blk idx _ ctx _ quiet here ends turn
    refine ⟨ended.1, ?_⟩
    intro none blocking unsaved
    rw [ended.2]
    obtain ⟨length, get⟩ := List.forall₂_iff_get.mp each
    refine List.forall₂_iff_get.mpr ⟨length, ?_⟩
    intro i within within'
    obtain ⟨ctx, isFresh, leaves⟩ := get i within within'
    exact leaves.kept (readerParts_eq_nil.mp none _ (List.getElem_mem within)) blocking
      (unsaved ctx isFresh)

/-- The turns in front of the last one save their parts. -/
theorem Reading.foldl (blk : Option Bool) (order : List Nat)
    (run : RunWorks lib bound msg g args round readers fresh)
    (reading : Reading lib args round.table readers fresh done s)
    (nodup : (done ++ order).Nodup) (inside : ∀ i ∈ order, i < readers.length)
    (notLast : (done ++ order).length < readers.length) :
    Reading lib args round.table readers fresh (done ++ order)
      (order.foldl (xreadContinue lib msg g blk round) s) := by
  induction order generalizing done s with
  | nil => simpa using reading
  | cons idx order ih =>
      have left : idx ∉ done := by
        intro member
        exact (List.nodup_append.mp nodup).2.2 idx member idx List.mem_cons_self rfl
      have first := reading.more blk run (inside idx List.mem_cons_self) left (by
        rw [List.length_append, List.length_cons] at notLast
        omega)
      have split : done ++ idx :: order = done ++ [idx] ++ order := by simp
      rw [split] at nodup notLast ⊢
      exact ih first nodup (fun i member => inside i (List.mem_cons_of_mem _ member)) notLast

/-- The turns of a command may have any order. They end it with the parts of the streams that have
entries, or block it with the ids at which it goes on. -/
theorem runXread_ends (blk : Option Bool) (run : RunWorks lib bound msg g args round readers fresh)
    (some : readers ≠ []) {order : List Nat} (orders : order.Perm (List.range readers.length)) :
    RunEnds blk args.blocking (readerParts lib args.maxcnt round.table readers)
        (runXread lib msg g blk round order fresh) ∧
      (readerParts lib args.maxcnt round.table readers = [] → args.blocking = true →
        (∀ ctx ∈ fresh, ctx.isSavedCont = false) →
        KeptIds round.table readers (runXread lib msg g blk round order fresh).keys) := by
  have length : order.length = readers.length := by simpa using orders.length_eq
  have positive := List.length_pos_of_ne_nil some
  have nonempty : order ≠ [] := List.ne_nil_of_length_pos (by omega)
  have split := List.dropLast_append_getLast nonempty
  have nodup : order.Nodup := orders.nodup_iff.mpr List.nodup_range
  have inside : ∀ i ∈ order, i < readers.length := fun i member =>
    List.mem_range.mp (orders.mem_iff.mp member)
  have all : ∀ i < readers.length, i ∈ order := fun i within =>
    orders.mem_iff.mpr (List.mem_range.mpr within)
  rw [← split] at nodup inside all
  generalize order.dropLast = front at split nodup inside all
  generalize order.getLast nonempty = last at split nodup inside all
  have count : front.length + 1 = readers.length := by
    rw [← length, ← split, List.length_append, List.length_singleton]
  have reading := Reading.start lib args round
    run.reads.length_eq.symm
  have before := reading.foldl blk front run
    (by simpa using (List.nodup_append.mp nodup).1)
    (fun i member => inside i (List.mem_append_left _ member)) (by simpa using by omega)
  rw [List.nil_append] at before
  have left : last ∉ front := fun member =>
    (List.nodup_append.mp nodup).2.2 last member last (List.mem_singleton_self _) rfl
  have ended := before.last blk run (inside last (by simp)) left count (by
    intro i within other
    rcases List.mem_append.mp (all i within) with here | isLast
    · exact here
    · exact absurd (List.mem_singleton.mp isLast) other)
  rw [runXread, ← split, List.foldl_append]
  exact ended

end Reading

end Raids
