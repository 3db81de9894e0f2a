import Mathlib.Data.List.GetD
import Raids.Proof.Memcached.Boundaries

namespace Raids.Memcached
open MemcachedArgs

/-- The consumed length of an accepted request is its frame exactly for regular buffers. -/
theorem framed_iff_regular (room : Nat → Bool) (buf : Bytes) :
    ((unpack room buf).status = .ok → Framed buf (unpack room buf)) ↔ Regular room buf := by
  constructor
  · intro promise
    apply Regular.mk
    · intro pre s split skipped magic complete retrieval
      have nonempty : s ≠ [] := by
        intro empty
        simp [empty] at magic
      have ok : (unpack room buf).status = .ok := by
        rw [split, unpack_request room skipped (startsRequest_magic magic), unpackRequest,
          if_neg nonempty, if_pos magic]
        exact (unpackBin_complete _ _ complete).1
      rw [split] at ok promise
      exact (framed_bin skipped magic complete).mp (promise ok) retrieval
    · intro pre s m split skipped starts notMagic present parsed storage complete
      have ok : (unpack room buf).status = .ok := by
        rw [split, unpack_request room skipped starts, unpackRequest,
          if_neg (List.ne_nil_of_mem present), if_neg notMagic, if_pos present]
        exact unpackText_storage parsed storage complete
      rw [split] at ok promise
      exact (framed_text skipped starts notMagic present ok).mp (promise ok) m parsed storage complete
  · intro regular ok
    obtain ⟨pre, s, split, skipped, starts⟩ := exists_request buf
    rw [split] at ok ⊢
    have same := unpack_request room skipped starts
    rw [same, unpackRequest] at ok
    by_cases empty : s = []
    · rw [if_pos empty] at ok
      cases ok
    rw [if_neg empty] at ok
    by_cases magic : s.head? = some binMagic
    · rw [if_pos magic] at ok
      by_cases complete : CompleteBin s
      · exact (framed_bin skipped magic complete).mpr
          (regular.retrieval pre s split skipped magic complete)
      · rw [unpackBin_short _ _ complete] at ok
        cases ok
    rw [if_neg magic] at ok
    by_cases present : lf ∈ s
    · rw [if_pos present] at ok
      apply (framed_text skipped starts magic present _).mpr
      · intro m parsed storage complete
        exact regular.terminated pre s m split skipped starts magic present parsed storage complete
      · rw [same, unpackRequest, if_neg empty, if_neg magic, if_pos present]
        exact ok
    · rw [if_neg present] at ok
      cases ok

/-- A binary request is its header and its body, and the body of a retrieval is its key; a text
request is a line that parses, and the data of a storage request ends with a full line end. -/
inductive WellFormed (room : Nat → Bool) : Bytes → Prop where
  | binary {s : Bytes} (magic : s.head? = some binMagic)
      (whole : s.length = MemcachedBinHdr.size + bodyLength s)
      (shape : (binCommand s).isRetrieval → keyLength s = bodyLength s) : WellFormed room s
  | text (content : Bytes) {m : MemcachedMsg} (noLf : lf ∉ content)
      (notMagic : content.head? ≠ some binMagic)
      (parsed : parseFirst room 0 (content ++ [lf]) = .ok m)
      (plain : m.command.isStorage = false) : WellFormed room (content ++ [lf])
  | storage (content data : Bytes) {m : MemcachedMsg} (noLf : lf ∉ content)
      (notMagic : content.head? ≠ some binMagic)
      (parsed : parseFirst room 0 (content ++ [lf]) = .ok m)
      (storage : m.command.isStorage = true) (size : data.length = m.msglen) :
      WellFormed room (content ++ lf :: (data ++ [cr, lf]))

/-- The first three bytes of a keyword are no line end. -/
theorem keyword_letters {s : Bytes} {command : MemcachedCmd} (found : keyword s = some command) :
    ∀ i < 3, 64 < s.getD i 0 &&& 0xdf := by
  have letters : ∀ entry ∈ keywords, ∀ i < 3, 64 < entry.1.getD i 0 := by decide
  obtain ⟨before, after, split, _⟩ := List.lookup_eq_some_iff.mp found
  intro i small
  have member : (c4Kw s, command) ∈ keywords := by simp [split]
  have letter := letters _ member i small
  simp only [c4Kw] at letter
  rwa [List.getD_eq_getElem?_getD, List.getElem?_map, List.getElem?_range (by omega)] at letter

/-- The keyword of a line that parses does not reach behind the line end. -/
theorem keyword_append {line tail : Bytes} {c : UInt8} {command : MemcachedCmd}
    (ends : c = cr ∨ c = lf) (found : keyword (line ++ c :: tail) = some command) (other : Bytes) :
    keyword (line ++ c :: other) = some command := by
  by_cases three : 3 ≤ line.length
  · have same : c4Kw (line ++ c :: other) = c4Kw (line ++ c :: tail) := by
      have first : ∀ more i, i < 4 → (line ++ c :: more).getD i 0 = (line ++ [c]).getD i 0 := by
        intro more i small
        have inside : i < (line ++ [c]).length := by
          rw [List.length_append, List.length_singleton]
          omega
        rw [show line ++ c :: more = (line ++ [c]) ++ more by simp, List.getD_append _ _ _ _ inside]
      rw [c4Kw, c4Kw]
      apply List.map_congr_left
      intro i member
      rw [List.mem_range] at member
      rw [first other i member, first tail i member]
    rw [keyword, same]
    exact found
  · have letter := keyword_letters found line.length (by omega)
    rw [List.getD_append_right _ _ _ _ (Nat.le_refl _), Nat.sub_self, List.getD_cons_zero] at letter
    rcases ends with rfl | rfl
    · exact absurd letter (by decide)
    · exact absurd letter (by decide)

theorem parseLine_append {room : Nat → Bool} {k : Nat} {line tail : Bytes} {c : UInt8}
    {m : MemcachedMsg} (ends : c = cr ∨ c = lf)
    (parsed : parseLine room k line (line ++ c :: tail) = .ok m) (other : Bytes) :
    parseLine room k line (line ++ c :: other) = .ok m := by
  rw [parseLine] at parsed ⊢
  dsimp only at parsed ⊢
  split at parsed
  · cases parsed
  · rename_i long
    rw [if_neg long]
    cases found : keyword (line ++ c :: tail) with
    | none => simp [found] at parsed
    | some command =>
        rw [keyword_append ends found other]
        simpa only [found] using parsed

/-- Two parsed lines are alike when they agree up to the places of their arguments. -/
def Alike : Except MemcachedStatus MemcachedMsg → Except MemcachedStatus MemcachedMsg → Prop
  | .ok first, .ok second => first.command = second.command ∧ first.msglen = second.msglen
  | .error first, .error second => first = second
  | _, _ => False

namespace Alike

theorem bind {α : Type} (first : Except MemcachedStatus α)
    {next next' : α → Except MemcachedStatus MemcachedMsg} (each : ∀ a, Alike (next a) (next' a)) :
    Alike (first >>= next) (first >>= next') := by
  cases first with
  | error status => exact rfl
  | ok a => exact each a

theorem ite {condition : Prop} [Decidable condition]
    {first first' second second' : Except MemcachedStatus MemcachedMsg} (yes : Alike first first')
    (no : Alike second second') :
    Alike (if condition then first else second) (if condition then first' else second') := by
  split
  · exact yes
  · exact no

theorem error (status : MemcachedStatus) : Alike (.error status) (.error status) := rfl

end Alike

theorem wordsFrom_str (start start' : Option MemcachedArgs)
    (same : start.map (·.str) = start'.map (·.str)) (pos pos' : Nat) (line : Bytes) :
    (wordsFrom start pos line).map (·.str) = (wordsFrom start' pos' line).map (·.str) := by
  have opened : start.toList.map (·.str) = start'.toList.map (·.str) := by
    rw [← Option.toList_map, ← Option.toList_map, same]
  induction line generalizing start start' pos pos' with
  | nil => simpa only [wordsFrom] using opened
  | cons c line ih =>
      unfold wordsFrom
      split
      · rw [List.map_append, List.map_append, opened, ih none none rfl _ _ rfl]
      · cases start with
        | none =>
            cases start' with
            | none => exact ih (some ⟨pos, [c]⟩) (some ⟨pos', [c]⟩) rfl _ _ rfl
            | some word' => cases same
        | some word =>
            cases start' with
            | none => cases same
            | some word' =>
                have strings : word.str = word'.str := by simpa using same
                apply ih
                · simp [strings]
                · simp [strings]

theorem parseMcargs_str (room : Nat → Bool) (pos pos' : Nat) (line : Bytes) :
    (parseMcargs room pos line).map (·.str) = (parseMcargs room pos' line).map (·.str) := by
  have words := wordsFrom_str none none rfl pos pos' line
  have count : (wordsFrom none pos line).length = (wordsFrom none pos' line).length := by
    rw [← List.length_map (·.str), words, List.length_map]
  rw [parseMcargs, parseMcargs, count]
  split
  · exact words
  · rfl

/-- The argument parsers look at the words only. -/
theorem parseText_alike {m m' : MemcachedMsg} (same : m.args.map (·.str) = m'.args.map (·.str))
    (command : m.command = m'.command) (msglen : m.msglen = m'.msglen) :
    Alike (parseText m) (parseText m') := by
  have count : m.argcnt = m'.argcnt := by
    rw [MemcachedMsg.argcnt, ← List.length_map (·.str), same, List.length_map]
    rfl
  have word : ∀ i, m.arg i = m'.arg i := by
    intro i
    rw [MemcachedMsg.arg, MemcachedMsg.arg, same]
  rw [parseText, parseText, ← command]
  cases kind : m.command with
  | set | add | append | replace | prepend =>
      simp only [MemcachedMsg.parseStore, count, word]
      exact .ite (.error _) <| .bind _ fun _ => .bind _ fun _ => .bind _ fun _ => ⟨command, rfl⟩
  | cas =>
      simp only [MemcachedMsg.parseCas, count, word]
      exact .ite (.error _) <| .bind _ fun _ => .bind _ fun _ => .bind _ fun _ => .bind _ fun _ =>
        ⟨command, rfl⟩
  | get | gets =>
      simp only [MemcachedMsg.parseRetr, count]
      exact .ite (.error _) ⟨command, rfl⟩
  | gat | gats =>
      simp only [MemcachedMsg.parseGat, count, word]
      exact .ite (.error _) <| .bind _ fun _ => ⟨command, rfl⟩
  | delete =>
      simp only [MemcachedMsg.parseDel, count]
      exact .ite (.error _) ⟨command, rfl⟩
  | touch =>
      simp only [MemcachedMsg.parseTouch, count, word]
      exact .ite (.error _) <| .bind _ fun _ => ⟨command, rfl⟩
  | incr | decr =>
      simp only [MemcachedMsg.parseIncr, count, word]
      exact .ite (.error _) <| .bind _ fun _ => ⟨command, rfl⟩
  | _ => exact ⟨command, msglen⟩

theorem parseLine_alike (room : Nat → Bool) (k k' : Nat) (line s : Bytes) :
    Alike (parseLine room k line s) (parseLine room k' line s) := by
  rw [parseLine, parseLine]
  apply Alike.ite (.error _)
  cases keyword s with
  | none => exact .error _
  | some command => exact parseText_alike (parseMcargs_str room _ _ _) rfl rfl

/-- A line goes on with its line end. -/
theorem dropCr_ends (content : Bytes) : ∃ c tail, (c = cr ∨ c = lf) ∧ ∀ more,
    content ++ lf :: more = dropCr content ++ c :: (tail ++ more) := by
  rcases dropCr_cases content with plain | cut
  · exact ⟨lf, [], .inr rfl, fun more => by rw [← plain, List.nil_append]⟩
  · refine ⟨cr, [lf], .inl rfl, ?_⟩
    intro more
    conv_lhs => rw [cut]
    rw [List.append_assoc]
    rfl

/-- A line parses alike wherever it stands and whatever follows it. -/
theorem parseFirst_append {room : Nat → Bool} {j : Nat} {content rest : Bytes} {m : MemcachedMsg}
    (noLf : lf ∉ content) (parsed : parseFirst room j (content ++ lf :: rest) = .ok m) (j' : Nat)
    (other : Bytes) : ∃ m', parseFirst room j' (content ++ lf :: other) = .ok m' ∧
      m'.command = m.command ∧ m'.msglen = m.msglen := by
  rw [parseFirst, commandLine_append noLf, blanks_append noLf] at parsed ⊢
  generalize same : ((dropCr content).takeWhile (· = space)).length = b at parsed ⊢
  have bounded : b ≤ (dropCr content).length := by
    rw [← same]
    exact (List.takeWhile_sublist _).length_le
  obtain ⟨c, tail, ends, split⟩ := dropCr_ends content
  rw [split, List.drop_append_of_le_length bounded] at parsed ⊢
  have here := parseLine_append ends parsed (tail ++ other)
  have alike := parseLine_alike room (j' + b) (j + b) ((dropCr content).drop b)
    ((dropCr content).drop b ++ c :: (tail ++ other))
  rw [here] at alike
  cases there : parseLine room (j' + b) ((dropCr content).drop b)
      ((dropCr content).drop b ++ c :: (tail ++ other)) with
  | error status =>
      rw [there] at alike
      exact absurd alike id
  | ok m' =>
      rw [there] at alike
      exact ⟨m', rfl, alike⟩

/-- A line that parses is not blank. -/
theorem startsRequest_of_parsed {room : Nat → Bool} {j : Nat} {content rest : Bytes}
    {m : MemcachedMsg} (noLf : lf ∉ content)
    (parsed : parseFirst room j (content ++ lf :: rest) = .ok m) (other : Bytes) :
    StartsRequest (content ++ lf :: other) := by
  intro line more split blank
  obtain ⟨content', same, all⟩ := blankLine_iff.mp blank
  have place := eol_append (lf_notMem_of_blank all) more
  have whole : content ++ lf :: other = content' ++ lf :: more := by
    rw [split, same, List.append_assoc]
    rfl
  rw [← whole, eol_append noLf] at place
  have first : content = content' := List.append_inj_left whole place
  rw [parseFirst, (blanks_eq_length noLf rest).mpr (first ▸ all), List.drop_length] at parsed
  simp [parseLine] at parsed

theorem WellFormed.starts {room : Nat → Bool} {r : Bytes} (wellFormed : WellFormed room r)
    (rest : Bytes) : StartsRequest (r ++ rest) := by
  cases wellFormed with
  | binary magic whole shape =>
      apply startsRequest_magic
      cases r with
      | nil => cases magic
      | cons c r => exact magic
  | text _ noLf notMagic parsed plain =>
      rw [List.append_assoc]
      exact startsRequest_of_parsed noLf parsed rest
  | storage _ _ noLf notMagic parsed storage size =>
      rw [List.append_assoc, List.cons_append]
      exact startsRequest_of_parsed noLf parsed _

theorem readBinHdr_append {s : Bytes} (header : MemcachedBinHdr.size ≤ s.length) (rest : Bytes) :
    readBinHdr (s ++ rest) = readBinHdr s := by
  have size : MemcachedBinHdr.size = 24 := rfl
  have slice : ∀ i n, i + n ≤ 24 → ((s ++ rest).drop i).take n = (s.drop i).take n := by
    intro i n inside
    rw [List.drop_append_of_le_length (by omega), List.take_append_of_le_length]
    rw [List.length_drop]
    omega
  rw [readBinHdr, readBinHdr, slice 2 2 (by omega), slice 8 4 (by omega), slice 12 4 (by omega),
    slice 16 8 (by omega), List.getD_append _ _ _ _ (by omega), List.getD_append _ _ _ _ (by omega)]

/-- A well-formed request is taken whole, whatever follows it. -/
theorem WellFormed.unpack_append {room : Nat → Bool} {pre r : Bytes} (skipped : Blanks pre)
    (wellFormed : WellFormed room r) (rest : Bytes) :
    (unpack room (pre ++ (r ++ rest))).status = .ok ∧
      (unpack room (pre ++ (r ++ rest))).length = (pre ++ r).length := by
  have starts := wellFormed.starts rest
  have total : (pre ++ r).length = pre.length + r.length := List.length_append
  rw [unpack_request room skipped starts, total]
  clear total
  generalize (pre ++ (r ++ rest)).length = buflen
  cases wellFormed with
  | binary magic whole shape =>
      have nonempty : r ≠ [] := by
        intro empty
        simp [empty] at magic
      have magic' : (r ++ rest).head? = some binMagic := by
        rwa [List.head?_append_of_ne_nil _ nonempty]
      have header : readBinHdr (r ++ rest) = readBinHdr r := readBinHdr_append (by omega) rest
      have complete : CompleteBin (r ++ rest) := by
        rw [CompleteBin, bodyLength, header, List.length_append]
        rw [bodyLength] at whole
        omega
      obtain ⟨ok, length, _⟩ := unpackBin_complete buflen pre.length complete
      have taken : takenLength (binCommand (r ++ rest)) (readBinHdr (r ++ rest)) =
          bodyLength r := by
        rw [takenLength, binCommand, header]
        split
        · rename_i retrieval
          exact shape retrieval
        · rfl
      rw [unpackRequest, if_neg (by simp [nonempty]), if_pos magic']
      refine ⟨ok, ?_⟩
      rw [length, taken]
      omega
  | @text content m noLf notMagic parsed plain =>
      have same : content ++ [lf] ++ rest = content ++ lf :: rest := by simp
      obtain ⟨m', parsed', keeps⟩ := parseFirst_append noLf parsed pre.length rest
      have head : (content ++ lf :: rest).head? ≠ some binMagic := by
        cases content with
        | nil => simp [lf, binMagic]
        | cons c content => exact notMagic
      rw [same, unpackRequest, if_neg (by simp), if_neg head, if_pos (by simp), unpackText, parsed']
      simp only [keeps.1, plain]
      rw [eol_append noLf, List.length_append, List.length_singleton]
      simp
  | @storage content data m noLf notMagic parsed storage size =>
      have same : content ++ lf :: (data ++ [cr, lf]) ++ rest =
          content ++ lf :: (data ++ (cr :: lf :: rest)) := by simp
      obtain ⟨m', parsed', keeps⟩ :=
        parseFirst_append noLf parsed pre.length (data ++ (cr :: lf :: rest))
      have head : (content ++ lf :: (data ++ (cr :: lf :: rest))).head? ≠ some binMagic := by
        cases content with
        | nil => simp [lf, binMagic]
        | cons c content => exact notMagic
      rw [same, unpackRequest, if_neg (by simp), if_neg head, if_pos (by simp), unpackText, parsed']
      simp only [keeps.1, storage, if_true]
      rw [drop_eol_append noLf, keeps.2, if_neg (by rw [List.length_append]; omega), ← size,
        List.drop_left, eol_append noLf]
      refine ⟨rfl, ?_⟩
      simp only [eaten, List.length_append, List.length_cons, List.length_nil]
      have crControl : isControl cr := by decide
      have lfControl : isControl lf := by decide
      rw [if_pos crControl, if_pos lfControl]
      omega

theorem WellFormed.length_pos {room : Nat → Bool} {r : Bytes} (wellFormed : WellFormed room r) :
    0 < r.length := by
  cases wellFormed with
  | binary magic whole shape =>
      have size : MemcachedBinHdr.size = 24 := rfl
      omega
  | text _ noLf notMagic parsed plain => simp
  | storage _ _ noLf notMagic parsed storage size => simp

/-- A request of a stream may have blank lines in front. -/
def IsRequest (room : Nat → Bool) (r : Bytes) : Prop :=
  ∃ pre s, r = pre ++ s ∧ Blanks pre ∧ WellFormed room s

theorem IsRequest.length_pos {room : Nat → Bool} {r : Bytes} (request : IsRequest room r) :
    0 < r.length := by
  obtain ⟨pre, s, split, _, wellFormed⟩ := request
  have positive := wellFormed.length_pos
  rw [split, List.length_append]
  omega

theorem IsRequest.unpack_append {room : Nat → Bool} {r : Bytes} (request : IsRequest room r)
    (rest : Bytes) :
    (unpack room (r ++ rest)).status = .ok ∧ (unpack room (r ++ rest)).length = r.length := by
  obtain ⟨pre, s, split, skipped, wellFormed⟩ := request
  rw [split, List.append_assoc]
  exact wellFormed.unpack_append skipped rest

/-- The first line alone tells where a request starts. -/
theorem StartsRequest.append {s : Bytes} (starts : StartsRequest s) (present : lf ∈ s)
    (more : Bytes) : StartsRequest (s ++ more) := by
  obtain ⟨content, rest, split, noLf, _⟩ := eol_split present
  intro line other same blank
  obtain ⟨content', same', all⟩ := blankLine_iff.mp blank
  have whole : content ++ lf :: (rest ++ more) = content' ++ lf :: other := by
    rw [split, same', List.append_assoc, List.append_assoc] at same
    exact same
  have place := eol_append (lf_notMem_of_blank all) other
  rw [← whole, eol_append noLf] at place
  have first : content = content' := List.append_inj_left whole place
  apply starts line rest _ blank
  rw [split, same', first, List.append_assoc]
  rfl

/-- The start of a request waits for the rest; only the line end behind the data of a storage
request is not waited for. -/
theorem unpack_pending {room : Nat → Bool} {t more : Bytes} (request : IsRequest room (t ++ more))
    (proper : more ≠ []) : (unpack room t).status = .msgPartial ∨
      ((unpack room t).status = .ok ∧ (unpack room t).length = t.length ∧
        (more = [lf] ∨ more = [cr, lf])) := by
  obtain ⟨pre, s, split, skipped, wellFormed⟩ := request
  obtain ⟨pre', t', same, skipped', starts'⟩ := exists_request t
  have positive := List.length_pos_of_ne_nil proper
  rw [same, unpack_request room skipped' starts', unpackRequest]
  rw [same, List.append_assoc] at split
  by_cases empty : t' = []
  · rw [if_pos empty]
    exact .inl rfl
  rw [if_neg empty]
  by_cases magic : t'.head? = some binMagic
  · rw [if_pos magic]
    left
    have magic' : (t' ++ more).head? = some binMagic := by
      rwa [List.head?_append_of_ne_nil _ empty]
    obtain ⟨_, request⟩ := request_unique skipped' skipped (startsRequest_magic magic')
      (by simpa using wellFormed.starts []) split
    apply unpackBin_short
    intro complete
    rw [CompleteBin] at complete
    have header := readBinHdr_append (s := t') (by omega) more
    cases wellFormed with
    | binary _ whole _ =>
        rw [← request, bodyLength, header, List.length_append] at whole
        rw [bodyLength] at complete
        omega
    | @text content m _ notMagic _ _ =>
        rw [request] at magic'
        cases content with
        | nil => simp [lf, binMagic] at magic'
        | cons c content => exact notMagic magic'
    | @storage content data m _ notMagic _ _ _ =>
        rw [request] at magic'
        cases content with
        | nil => simp [lf, binMagic] at magic'
        | cons c content => exact notMagic magic'
  rw [if_neg magic]
  by_cases present : lf ∈ t'
  · rw [if_pos present]
    obtain ⟨_, request⟩ := request_unique skipped' skipped (starts'.append present more)
      (by simpa using wellFormed.starts []) split
    obtain ⟨content, rest, split', noLf, place⟩ := eol_split present
    rw [split', List.append_assoc, List.cons_append] at request
    cases wellFormed with
    | binary magic' _ _ =>
        rw [← request] at magic'
        rw [split'] at magic
        cases content with
        | nil => exact absurd magic' magic
        | cons c content => exact absurd magic' magic
    | @text content' m noLf' _ _ _ =>
        have place' := eol_append noLf' []
        rw [← request, eol_append noLf] at place'
        have tails := List.append_inj_right request place'
        simp [proper] at tails
    | @storage content' data m noLf' _ parsed storage size =>
        have place' := eol_append noLf' (data ++ [cr, lf])
        rw [← request, eol_append noLf] at place'
        have first := List.append_inj_left request place'
        have tails := List.append_inj_right request place'
        injection tails with _ tails
        rw [← first] at parsed
        obtain ⟨m', parsed', command, msglen⟩ := parseFirst_append noLf parsed pre'.length rest
        rw [unpackText, split', parsed']
        simp only [command, storage, if_true, msglen]
        rw [drop_eol_append noLf, eol_append noLf]
        by_cases short : rest.length < m.msglen
        · rw [if_pos short]
          exact .inl rfl
        · right
          rw [if_neg short]
          obtain ⟨e, cut⟩ : ∃ e, rest = data ++ e :=
            (List.prefix_of_prefix_length_le ⟨[cr, lf], rfl⟩ ⟨more, tails⟩ (by omega)).imp
              fun e cut => cut.symm
          subst cut
          rw [List.append_assoc, List.append_cancel_left_eq] at tails
          rw [← size, List.drop_left]
          have crControl : isControl cr := by decide
          cases e with
          | nil =>
              refine ⟨rfl, ?_, .inr tails⟩
              simp [eaten]
              omega
          | cons c e =>
              injection tails with same rest
              cases e with
              | nil =>
                  refine ⟨rfl, ?_, .inl rest⟩
                  simp [eaten, same, crControl]
                  omega
              | cons d e => simp [proper] at rest
  · rw [if_neg present]
    exact .inl rfl

/-- The place where the piece number `n` starts. -/
def boundary (pieces : List Bytes) (n : Nat) : Nat := (pieces.take n).flatten.length

/-- What is received of the next request. -/
def Pending (room : Nat → Bool) (tail : Bytes) : Prop :=
  tail = [] ∨ ∃ more, more ≠ [] ∧ IsRequest room (tail ++ more)

/-- A request that is complete up to its line end. -/
def LineEndMissing (room : Nat → Bool) (tail : Bytes) : Prop :=
  ∃ ending, (ending = [lf] ∨ ending = [cr, lf]) ∧ IsRequest room (tail ++ ending)

/-- From the boundary `n` the loop stops at boundaries only. It ends at the pending request, or
behind it when nothing but its line end is missing, unless `exec` ends it before. -/
structure StopsAt (room : Nat → Bool) (requests : List Bytes) (tail : Bytes) (n : Nat)
    (ended : ProcessEnd) : Prop where
  visits : ∃ more, ended.visited = (List.range' n more).map (boundary (requests ++ [tail])) ∧
    ended.off = boundary (requests ++ [tail]) (n + more) ∧
    (n + more ≤ requests.length ∨ n + more = requests.length + 1 ∧ LineEndMissing room tail) ∧
    (ended.state = .write → requests.length ≤ n + more)
  inside : ended.state ≠ .overrun

section Loop

variable {σ : Type} {room : Nat → Bool} (exec : σ → MemcachedMsg → σ × MemcachedStatus) (q : Bool)

theorem boundary_append (done todo : List Bytes) :
    boundary (done ++ todo) done.length = done.flatten.length := by
  rw [boundary, List.take_left]

theorem boundary_succ (done : List Bytes) (r : Bytes) (todo : List Bytes) :
    boundary (done ++ r :: todo) (done.length + 1) = done.flatten.length + r.length := by
  have first : (done ++ r :: todo).take (done.length + 1) = done ++ [r] := by
    rw [List.take_length_add_append]
    rfl
  rw [boundary, first, List.flatten_append, List.length_append]
  simp

theorem processFrom_end (recv : Bytes) {fuel : Nat} (some : 0 < fuel) (st : σ) :
    processFrom room exec q recv fuel st recv.length = ⟨[], recv.length, .write⟩ := by
  cases fuel with
  | zero => omega
  | succ fuel => rw [processFrom, if_pos rfl]

/-- The loop at the pending request. -/
theorem processFrom_pending (done : List Bytes) {tail : Bytes} (pending : Pending room tail)
    (small : (done ++ [tail]).flatten.length < 2 ^ 32) {fuel : Nat} (enough : tail.length < fuel)
    (st : σ) :
    StopsAt room done tail done.length
      (processFrom room exec q (done ++ [tail]).flatten fuel st done.flatten.length) := by
  have place : boundary (done ++ [tail]) done.length = done.flatten.length := boundary_append _ _
  have place' : boundary (done ++ [tail]) (done.length + 1) =
      done.flatten.length + tail.length := boundary_succ done tail []
  have size : (done ++ [tail]).flatten.length = done.flatten.length + tail.length := by simp
  have stay : StopsAt room done tail done.length ⟨[], done.flatten.length, .write⟩ :=
    ⟨⟨0, rfl, place.symm, .inl (Nat.le_refl _), fun _ => Nat.le_refl _⟩, by simp⟩
  by_cases empty : tail = []
  · have whole : done.flatten.length = (done ++ [tail]).flatten.length := by simp [empty]
    rw [whole, processFrom_end exec q _ (by omega), ← whole]
    exact stay
  · obtain ⟨more, proper, request⟩ := pending.resolve_left empty
    have positive := List.length_pos_of_ne_nil empty
    have rest : (done ++ [tail]).flatten.drop done.flatten.length = tail := by simp
    cases fuel with
    | zero => omega
    | succ fuel =>
        rw [processFrom, if_neg (by omega), if_neg (by omega), rest]
        rcases unpack_pending request proper with waits | ⟨ok, length, ending⟩
        · simp only [waits, ne_eq, reduceCtorEq, not_false_iff, if_true]
          exact stay
        · have next : (done.flatten.length + tail.length) % 2 ^ 32 =
              boundary (done ++ [tail]) (done.length + 1) := by
            rw [place', Nat.mod_eq_of_lt]
            omega
          have missing : LineEndMissing room tail := ⟨more, ending, request⟩
          have taken : ∀ state, state ≠ EvState.overrun → StopsAt room done tail done.length
              ⟨[done.flatten.length], boundary (done ++ [tail]) (done.length + 1), state⟩ := by
            intro state inside
            exact ⟨⟨1, by simp [place], rfl, .inr ⟨rfl, missing⟩, fun _ => by omega⟩, inside⟩
          simp only [ok, length, next, ne_eq, not_true, if_false]
          split
          · exact taken _ (by simp)
          · split
            · exact taken _ (by simp)
            · rw [place', ← size, processFrom_end exec q _ (by omega), ProcessEnd.visit, size,
                ← place']
              exact taken _ (by simp)

/-- Each round takes the request at its boundary. -/
theorem processFrom_stops (done todo : List Bytes) {tail : Bytes}
    (all : ∀ r ∈ todo, IsRequest room r) (pending : Pending room tail)
    (small : (done ++ todo ++ [tail]).flatten.length < 2 ^ 32) {fuel : Nat}
    (enough : (todo ++ [tail]).flatten.length < fuel) (st : σ) :
    StopsAt room (done ++ todo) tail done.length
      (processFrom room exec q (done ++ todo ++ [tail]).flatten fuel st done.flatten.length) := by
  induction todo generalizing done fuel st with
  | nil =>
      rw [List.append_nil] at small ⊢
      exact processFrom_pending exec q done pending small (by simpa using enough) st
  | cons r todo ih =>
      cases fuel with
      | zero => omega
      | succ fuel =>
          have request := all r (by simp)
          have positive := request.length_pos
          have rest : (done ++ r :: todo ++ [tail]).flatten.drop done.flatten.length =
              r ++ (todo ++ [tail]).flatten := by
            rw [List.append_assoc, List.flatten_append, List.drop_left, List.cons_append,
              List.flatten_cons]
          have size : (done ++ r :: todo ++ [tail]).flatten.length =
              done.flatten.length + (r.length + (todo ++ [tail]).flatten.length) := by
            rw [List.append_assoc, List.flatten_append, List.length_append, List.cons_append,
              List.flatten_cons, List.length_append]
          have left : r.length + (todo ++ [tail]).flatten.length < fuel + 1 := by
            rw [List.cons_append, List.flatten_cons, List.length_append] at enough
            exact enough
          have place : boundary (done ++ r :: todo ++ [tail]) done.length =
              done.flatten.length := by
            rw [List.append_assoc, boundary_append]
          have next : boundary (done ++ r :: todo ++ [tail]) (done.length + 1) =
              done.flatten.length + r.length := by
            rw [List.append_assoc, List.cons_append, boundary_succ]
          have wrap : (done.flatten.length + r.length) % 2 ^ 32 =
              done.flatten.length + r.length := by
            rw [Nat.mod_eq_of_lt]
            omega
          obtain ⟨ok, length⟩ := request.unpack_append (todo ++ [tail]).flatten
          rw [processFrom, if_neg (by omega), if_neg (by omega), rest]
          simp only [ok, length, wrap, ne_eq, not_true, if_false]
          have taken : ∀ state, state ≠ EvState.overrun → state ≠ .write →
              StopsAt room (done ++ r :: todo) tail done.length
                ⟨[done.flatten.length], done.flatten.length + r.length, state⟩ := by
            intro state inside notWrite
            have visited : [done.flatten.length] = (List.range' done.length 1).map
                (boundary (done ++ r :: todo ++ [tail])) := by
              rw [List.range'_one, List.map_singleton, place]
            exact ⟨⟨1, visited, next.symm, .inl (by simp), fun write => absurd write notWrite⟩, inside⟩
          split
          · exact taken _ (by simp) (by simp)
          · split
            · exact taken _ (by simp) (by simp)
            · have fewer : (todo ++ [tail]).flatten.length < fuel := by omega
              have later := ih (done ++ [r]) (fun r' member => all r' (by simp [member]))
                (by simpa using small) fewer
                (exec st (unpack room (r ++ (todo ++ [tail]).flatten)).msg).1
              have regroup : done ++ [r] ++ todo = done ++ r :: todo := by simp
              have moved : (done ++ [r]).flatten.length = done.flatten.length + r.length := by simp
              rw [regroup, moved, List.length_append, List.length_singleton] at later
              obtain ⟨⟨more, visited, off, fits, whole⟩, inside⟩ := later
              refine ⟨⟨more + 1, ?_, ?_, ?_, ?_⟩, inside⟩
              · rw [ProcessEnd.visit, visited, List.range'_succ, List.map_cons, place]
              · rw [ProcessEnd.visit, off, Nat.add_assoc, Nat.add_comm 1]
              · rw [Nat.add_assoc, Nat.add_comm 1] at fits
                exact fits
              · intro write
                have all := whole write
                omega

end Loop

/-- Accepted requests are framed exactly in regular buffers, and over well-formed requests the
loop stays at the boundaries from every boundary on. -/
theorem memcachedFraming (room : Nat → Bool) :
    (∀ buf, ((unpack room buf).status = .ok → Framed buf (unpack room buf)) ↔
      Regular room buf) ∧
    ∀ (σ : Type) (exec : σ → MemcachedMsg → σ × MemcachedStatus) (q : Bool) (st : σ)
      (buffer : RecvBuffer) (requests : List Bytes) (tail : Bytes),
      (∀ r ∈ requests, IsRequest room r) → Pending room tail →
      buffer.bytes = (requests ++ [tail]).flatten → ∀ n ≤ requests.length,
      StopsAt room requests tail n
        (processLoop room exec q buffer st (boundary (requests ++ [tail]) n)) := by
  constructor
  · exact framed_iff_regular room
  · intro σ exec q st buffer requests tail all pending received n inside
    have cut : requests.take n ++ requests.drop n = requests := List.take_append_drop n requests
    have count : (requests.take n).length = n := by
      rw [List.length_take, Nat.min_eq_left inside]
    have fits := buffer.fits
    have whole : (requests ++ [tail]).flatten.length =
        (requests.take n).flatten.length + (requests.drop n ++ [tail]).flatten.length := by
      rw [← List.length_append, ← List.flatten_append, ← List.append_assoc, cut]
    have size : (requests.drop n ++ [tail]).flatten.length < buffer.bytes.length + 1 := by
      rw [received, whole]
      omega
    rw [received] at fits
    have stops := processFrom_stops exec q (requests.take n) (requests.drop n)
      (fun r member => all r (List.mem_of_mem_drop member)) pending (by rw [cut]; exact fits) size st
    rw [cut, count] at stops
    rw [processLoop, boundary, List.take_append_of_le_length inside, received] at *
    exact stops

/-- Two requests and the start of a third. -/
def pipelined : List Bytes := [text "get a\n", text "set k 0 0 1\r\nx\r\n"]

theorem pipelined_requests : ∀ r ∈ pipelined, IsRequest (fun _ => true) r := by
  intro r member
  rcases List.mem_pair.mp member with rfl | rfl
  · exact ⟨[], _, rfl, .nil, .text (text "get a") (by decide) (by decide) rfl rfl⟩
  · exact ⟨[], _, rfl, .nil,
      .storage (text "set k 0 0 1\r") (text "x") (by decide) (by decide) rfl rfl rfl⟩

theorem pipelined_pending : Pending (fun _ => true) (text "get") := by
  refine .inr ⟨text " b\n", by decide, [], text "get b\n", by decide, .nil, ?_⟩
  exact .text (text "get b") (by decide) (by decide) rfl rfl

theorem memcachedFraming_pipelined :
    StopsAt (fun _ => true) pipelined (text "get") 0
      (processLoop (fun _ => true) (fun (st : Nat) _ => (st + 1, .ok)) false
        ⟨(pipelined ++ [text "get"]).flatten, by decide⟩ 0
        (boundary (pipelined ++ [text "get"]) 0)) :=
  (memcachedFraming fun _ => true).2 Nat _ false 0 _ pipelined (text "get") pipelined_requests
    pipelined_pending rfl 0 (by decide)

/-- A GET whose header announces a key but no body. -/
def keyWithoutBody : Bytes :=
  [0x80, 0, 0xff, 0xff, 0, 0, 0, 0, 0, 0, 0, 0, 0, 0, 0, 0, 0, 0, 0, 0, 0, 0, 0, 0]

theorem not_memcachedFraming_keyWithoutBody :
    (unpack (fun _ => true) keyWithoutBody).status = .ok ∧
      ¬Framed keyWithoutBody (unpack (fun _ => true) keyWithoutBody) ∧
      (processLoop (fun _ => true) (fun (st : Nat) _ => (st + 1, .ok)) false
        ⟨keyWithoutBody, by decide⟩ 0 0).state = .overrun := by
  refine ⟨rfl, ?_, rfl⟩
  intro framed
  exact absurd framed.within (by decide)

end Raids.Memcached
