import Raids.Proof.Memcached.Separation

namespace Raids.Memcached
open IncrementalParser Runs

/-- A command line gives its words, and the data of a storage request is behind it: as many
bytes as it says, and then at most a line end. -/
structure LineExact (t : Bytes) (m : MemcachedMsg) (taken : Nat) : Prop where
  args : ∃ word, runs (· = space) (commandLine t) = word :: m.args.map (·.str)
  data : m.command.isStorage = true → ∃ data ending,
    t.take taken = t.take (eol t + 1) ++ (data ++ ending) ∧ m.msg = some ⟨0, data⟩ ∧
      data.length = m.msglen ∧ IsLineEnd ending (t.drop taken)
  plain : m.command.isStorage = false → taken = eol t + 1

/-- The data of a binary request ends the request. -/
def DataExact (t : Bytes) (m : MemcachedMsg) (taken : Nat) : Prop :=
  ∀ data, m.msg = some data → ∃ front, t.take taken = front ++ data.str ∧
    data.str.length = m.msglen

/-- What a request takes behind the blank lines is what it says. -/
def RequestExact (s : Bytes) (m : MemcachedMsg) (taken : Nat) : Prop :=
  ∃ pre t, s = pre ++ t ∧ Blanks pre ∧ StartsRequest t ∧ pre.length ≤ taken ∧
    if t.head? = some binMagic then DataExact t m (taken - pre.length)
    else LineExact t m (taken - pre.length)

/-- Every split of a stream gives the requests of the whole, and each takes what it says. -/
structure ReadsExactly (room : Nat → Bool) (stream : Bytes) : Prop where
  splits : SplitsAlike (unpackAttempt room) stream
  requests : ∀ s m n, Reached (unpackAttempt room) stream s →
    unpackAttempt room s = .item m n → RequestExact s m n

/-- The words of a line are its runs; an open word goes on to the next blank. -/
theorem wordsFrom_runs (start : Option MemcachedArgs) (pos : Nat) (line : Bytes) :
    (wordsFrom start pos line).map (·.str) =
      match start with
      | none => runs (· = space) line
      | some word => (word.str ++ line.takeWhile (· ≠ space)) ::
          runs (· = space) (line.dropWhile (· ≠ space)) := by
  induction line generalizing start pos with
  | nil =>
      cases start with
      | none => rfl
      | some word => simp [wordsFrom]
  | cons c line ih =>
      rw [wordsFrom.eq_def]
      dsimp only
      by_cases blank : c = space
      · rw [if_pos blank, List.map_append, ih none]
        dsimp only
        cases start with
        | none => simp [runs_cons, blank]
        | some word => simp [runs_cons, blank]
      · rw [if_neg blank]
        cases start with
        | none =>
            dsimp only
            rw [ih (some ⟨pos, [c]⟩)]
            dsimp only
            have split : c :: line =
                (c :: line.takeWhile (· ≠ space)) ++ line.dropWhile (· ≠ space) := by
              rw [List.cons_append, List.takeWhile_append_dropWhile]
            conv_rhs => rw [split]
            rw [runs_word (by simp)]
            · rfl
            · intro d member
              rcases List.mem_cons.mp member with rfl | later
              · simpa using blank
              · simpa using List.mem_takeWhile_imp later
            · intro d head
              have ends := not_head_dropWhile (fun c => decide (c ≠ space)) line head
              simpa using ends
        | some word =>
            dsimp only
            rw [ih (some ⟨word.start, word.str ++ [c]⟩)]
            simp [blank]

theorem parseMcargs_runs (room : Nat → Bool) (pos : Nat) (line : Bytes) :
    (parseMcargs room pos line).map (·.str) =
      if (runs (· = space) line).length ≤ 1 ∨ room (runs (· = space) line).length = true then
        runs (· = space) line
      else [] := by
  have words := wordsFrom_runs none pos line
  dsimp only at words
  rw [parseMcargs, ← words, List.length_map]
  split
  · rfl
  · rfl

/-- The arguments of a line are its words behind the command word, where there is memory. -/
theorem lineMessage_args {room : Nat → Bool} {line : Bytes} {m : MemcachedMsg} (noLf : lf ∉ line)
    (ok : lineMessage room line = .ok m) :
    ∃ word words, runs (· = space) (dropCr line) = word :: words ∧
      m.args.map (·.str) = if words.length ≤ 1 ∨ room words.length = true then words else [] := by
  rw [lineMessage] at ok
  cases parsed : parseFirst room 0 (line ++ [lf]) with
  | error status =>
      rw [parsed] at ok
      cases ok
  | ok m' =>
      rw [parsed] at ok
      injection ok with same
      have strings : m.args.map (·.str) = m'.args.map (·.str) := by
        rw [← same]
        exact List.map_map
      rw [strings]
      rw [parseFirst, commandLine_append noLf, blanks_append noLf] at parsed
      have split : (dropCr line).drop ((dropCr line).takeWhile (· = space)).length =
          (dropCr line).dropWhile (· = space) := by
        conv_lhs => arg 2; rw [← List.takeWhile_append_dropWhile (p := (· = space)) (l := dropCr line)]
        exact List.drop_left
      rw [split] at parsed
      rw [← runs_dropWhile]
      have heads := fun c => not_head_dropWhile (c := c) (· = space) (dropCr line)
      generalize (dropCr line).dropWhile (· = space) = rest at parsed heads ⊢
      have behind : rest.drop (rest.takeWhile (· ≠ space)).length = rest.dropWhile (· ≠ space) := by
        conv_lhs => arg 2; rw [← List.takeWhile_append_dropWhile (p := (· ≠ space)) (l := rest)]
        exact List.drop_left
      rw [parseLine, behind] at parsed
      dsimp only at parsed
      split at parsed
      · cases parsed
      · rename_i long
        split at parsed
        · cases parsed
        · rename_i command _
          have keeps := parseText_keeps (m := { MemcachedMsg.fresh with
            command
            args := parseMcargs room (0 + ((dropCr line).takeWhile (· = space)).length +
              (rest.takeWhile (· ≠ space)).length) (rest.dropWhile (· ≠ space)) }) rfl
          rw [parsed] at keeps
          obtain ⟨args, _, _⟩ := keeps
          have nonempty : rest.takeWhile (· ≠ space) ≠ [] := by
            intro empty
            cases rest with
            | nil => exact long ⟨rfl, by decide⟩
            | cons c rest =>
                have head := heads c rfl
                simp only [decide_eq_false_iff_not] at head
                simp [head] at empty
          refine ⟨rest.takeWhile (· ≠ space), runs (· = space) (rest.dropWhile (· ≠ space)), ?_, ?_⟩
          · conv_lhs => rw [← List.takeWhile_append_dropWhile (p := (· ≠ space)) (l := rest)]
            apply runs_word nonempty
            · intro c member
              simpa using List.mem_takeWhile_imp member
            · intro c head
              have ends := not_head_dropWhile (fun c => decide (c ≠ space)) rest head
              simpa using ends
          · rw [args]
            exact parseMcargs_runs room _ _

section Line

variable {room : Nat → Bool} {line rest : Bytes}

/-- The front of a request behind its line. -/
theorem take_behind (line rest : Bytes) (k : Nat) :
    (line ++ lf :: rest).take (line.length + 1 + k) =
      (line ++ lf :: rest).take (line.length + 1) ++ rest.take k := by
  rw [List.take_add]
  congr 1
  rw [List.drop_length_add_append]
  rfl

/-- A line takes what it says exactly where its data ends. -/
theorem lineExact_iff (noLf : lf ∉ line) (notMagic : (line ++ lf :: rest).head? ≠ some binMagic)
    {m : MemcachedMsg} {n : Nat} (item : lineAttempt room line rest = .item m n) :
    LineExact (line ++ lf :: rest) m n ↔ LineEnds room (line ++ lf :: rest) := by
  have place : eol (line ++ lf :: rest) = line.length := eol_append noLf rest
  rw [lineAttempt] at item
  cases message : lineMessage room line with
  | error status =>
      rw [message] at item
      cases status <;> cases item
  | ok m' =>
      obtain ⟨word, words, isRun, isArgs⟩ := lineMessage_args noLf message
      have count : wordCount (line ++ lf :: rest) = words.length := by
        rw [wordCount, commandLine_append noLf, isRun, List.tail_cons]
      have exactArgs : (∃ word, runs (· = space) (commandLine (line ++ lf :: rest)) =
          word :: m'.args.map (·.str)) ↔ words.length ≤ 1 ∨ room words.length = true := by
        rw [commandLine_append noLf, isRun, isArgs]
        constructor
        · intro exact_
          obtain ⟨_, same⟩ := exact_
          by_contra little
          rw [if_neg little] at same
          injection same with _ none
          exact little (.inl (by rw [none]; exact Nat.zero_le 1))
        · intro enough
          rw [if_pos enough]
          exact ⟨word, rfl⟩
      have ends : LineEnds room (line ++ lf :: rest) ↔ (words.length ≤ 1 ∨ room words.length = true) ∧
          (m'.command.isStorage = true → endsData (rest.drop m'.msglen) = true) := by
        have after : afterData m' (line ++ lf :: rest) = rest.drop m'.msglen := by
          rw [afterData, drop_eol_append noLf]
        rw [LineEnds, place, List.take_left, message, count, ← after]
        constructor
        · intro all
          exact all notMagic m' rfl
        · intro both _ m'' same
          injection same with same
          rw [← same]
          exact both
      rw [ends, ← exactArgs]
      simp only [message] at item
      cases storage : m'.command.isStorage with
      | false =>
          simp only [storage, Bool.false_eq_true, if_false] at item
          obtain ⟨rfl, rfl⟩ := Attempt.item.inj item
          constructor
          · intro exact_
            exact ⟨exact_.args, by simp⟩
          · intro both
            exact ⟨both.1, by simp [storage], fun _ => by rw [place]⟩
      | true =>
          simp only [storage, if_true] at item
          split at item
          · cases item
          · rename_i complete
            obtain ⟨rfl, rfl⟩ := Attempt.item.inj item
            have behind : (line ++ lf :: rest).drop (line.length + 1 +
                (m'.msglen + eaten (rest.drop m'.msglen))) =
                  (rest.drop m'.msglen).drop (eaten (rest.drop m'.msglen)) := by
              rw [Nat.add_assoc, List.drop_length_add_append, Nat.add_comm 1, List.drop_succ_cons,
                List.drop_drop]
            have front := take_behind line rest (m'.msglen + eaten (rest.drop m'.msglen))
            rw [show rest.take (m'.msglen + eaten (rest.drop m'.msglen)) = rest.take m'.msglen ++
              (rest.drop m'.msglen).take (eaten (rest.drop m'.msglen)) from List.take_add] at front
            constructor
            · intro exact_
              obtain ⟨data, ending, split, isData, _, isEnd⟩ := exact_.data storage
              refine ⟨exact_.args, fun _ => ?_⟩
              injection isData with same
              injection same with _ same
              rw [place, front, ← same] at split
              have last := List.append_cancel_left (List.append_cancel_left split)
              rw [behind, ← last] at isEnd
              exact (isLineEnd_iff _).mp isEnd
            · intro both
              refine { args := both.1, data := ?_, plain := ?_ }
              · intro _
                refine ⟨rest.take m'.msglen,
                  (rest.drop m'.msglen).take (eaten (rest.drop m'.msglen)), ?_, rfl, ?_, ?_⟩
                · rw [place]
                  exact front
                · rw [List.length_take, Nat.min_eq_left (Nat.not_lt.mp complete)]
                · rw [behind]
                  exact (isLineEnd_iff _).mpr (both.2 rfl)
              · simp [storage]

end Line

section Binary

theorem guarded_inj {short bad : Prop} [Decidable short] [Decidable bad] {length n : Nat}
    {status : MemcachedStatus} {m parsed : MemcachedMsg}
    (found : (if short then none
      else some (BinBody.mk length (if bad then .error status else .ok m))) =
        some ⟨n, .ok parsed⟩) : ¬short ∧ ¬bad ∧ length = n ∧ m = parsed := by
  split at found
  · cases found
  · rename_i complete
    split at found
    · cases found
    · rename_i good
      injection found with found
      injection found with size same
      injection same with same
      exact ⟨complete, good, size, same⟩

/-- The data of a body ends the body. -/
theorem parseBin_data {m parsed : MemcachedMsg} {b : MemcachedBinHdr} {ptr n : Nat} {body : Bytes}
    (found : parseBin m b ptr body = some ⟨n, .ok parsed⟩)
    {data : MemcachedArgs} (isData : parsed.msg = some data) :
    ∃ front, body.take n = front ++ data.str ∧ data.str.length = parsed.msglen := by
  have cut : ∀ front size, front + size = b.datalen → b.datalen ≤ body.length →
      body.take b.datalen = body.take front ++ (body.drop front).take size ∧
        ((body.drop front).take size).length = size := by
    intro front size total inside
    rw [← total, List.take_add, List.length_take, List.length_drop]
    exact ⟨rfl, Nat.min_eq_left (by omega)⟩
  have empty : ∀ {extraSz : Nat} {p : MemcachedMsg}, m.parseBinOp b body extraSz = some ⟨n, .ok p⟩ →
      p.msg = none := by
    intro extraSz p op
    obtain ⟨_, _, _, rfl⟩ := guarded_inj op
    rfl
  rw [parseBin] at found
  cases command : m.command with
  | set | add | replace =>
      rw [command] at found
      obtain ⟨complete, good, rfl, rfl⟩ := guarded_inj found
      obtain rfl := Option.some.inj isData
      obtain ⟨split, size⟩ := cut (8 + b.keylen) (b.datalen - (b.extralen + b.keylen)) (by omega)
        (Nat.not_lt.mp complete)
      exact ⟨_, split, size⟩
  | append | prepend =>
      rw [command] at found
      obtain ⟨complete, good, rfl, rfl⟩ := guarded_inj found
      obtain rfl := Option.some.inj isData
      obtain ⟨split, size⟩ := cut b.keylen (b.datalen - b.keylen) (by omega)
        (Nat.not_lt.mp complete)
      exact ⟨_, split, size⟩
  | get | delete | gat | touch | incr | decr =>
      rw [command] at found
      obtain ⟨_, _, _, rfl⟩ := guarded_inj found
      cases isData
  | flushAll | verbosity | version | quit | noOp =>
      rw [command] at found
      rw [empty found] at isData
      cases isData
  | _ =>
      rw [command] at found
      dsimp only at found
      rw [parseBinUnknown, Option.map_eq_some_iff] at found
      obtain ⟨body', _, same⟩ := found
      rcases body' with ⟨size, result⟩
      cases result with
      | ok _ =>
          injection same with _ same
          cases same
      | error _ =>
          injection same with _ same
          cases same

theorem dataExact_binContent {t : Bytes} (complete : CompleteBin t) :
    DataExact t (binContent t) (MemcachedBinHdr.size + binTaken t) := by
  have header : MemcachedBinHdr.size ≤ t.length := by
    rw [CompleteBin] at complete
    omega
  have takes := parseBin_takes (binMsg (readBinHdr t)) (readBinHdr t)
    (0 + MemcachedBinHdr.size) (t.drop MemcachedBinHdr.size)
  obtain ⟨result, found, _⟩ := takes.complete (by
    rw [CompleteBin, bodyLength] at complete
    rw [List.length_drop]
    omega)
  intro data isData
  rw [binContent, unpackBin, if_neg (Nat.not_lt.mpr header)] at isData ⊢
  dsimp only at isData ⊢
  rw [found] at isData ⊢
  cases result with
  | error status => cases isData
  | ok parsed =>
      dsimp only [MemcachedMsg.content] at isData ⊢
      rw [Option.map_eq_some_iff] at isData
      obtain ⟨data', isData', rfl⟩ := isData
      obtain ⟨front, split, size⟩ := parseBin_data found isData'
      refine ⟨t.take MemcachedBinHdr.size ++ front, ?_, size⟩
      rw [List.take_add, List.append_assoc]
      congr 1

end Binary

/-- An accepted request takes what it says exactly where its data ends. -/
theorem requestExact_iff {room : Nat → Bool} {s : Bytes} {m : MemcachedMsg} {n : Nat}
    (item : unpackAttempt room s = .item m n) :
    RequestExact s m n ↔ LineEnds room (requestStart s) := by
  obtain ⟨pre, t, split, skipped, starts, place, whole⟩ := exists_attempt room s
  obtain ⟨inner, here, size⟩ := Attempt.shift_eq_item (whole.symm.trans item)
  have exact_ : RequestExact s m n ↔
      if t.head? = some binMagic then DataExact t m inner else LineExact t m inner := by
    have taken : n - pre.length = inner := by omega
    constructor
    · intro holds
      obtain ⟨pre', t', split', skipped', starts', _, rest⟩ := holds
      obtain ⟨rfl, rfl⟩ := request_unique skipped skipped' starts starts' (split.symm.trans split')
      rwa [taken] at rest
    · intro holds
      exact ⟨pre, t, split, skipped, starts, by omega, by rwa [taken]⟩
  rw [exact_, place]
  by_cases magic : t.head? = some binMagic
  · rw [if_pos magic]
    rw [requestAttempt_bin room magic] at here
    split at here
    · rename_i complete
      split at here
      · obtain ⟨rfl, rfl⟩ := Attempt.item.inj here
        constructor
        · intro _ notMagic
          exact absurd magic notMagic
        · intro _
          exact dataExact_binContent complete
      · cases here
    · cases here
  · rw [if_neg magic]
    obtain ⟨line, rest, cut, noLf⟩ := line_of_attempt room magic (by simp [here])
    rw [cut] at magic here ⊢
    rw [requestAttempt_text room noLf magic] at here
    exact lineExact_iff noLf magic here

/-- A stream is read exactly, however it is split, when its requests are separable. -/
theorem memcachedStream_exact (room : Nat → Bool) (stream : Bytes) :
    ReadsExactly room stream ↔ Separable room stream := by
  have requests : ReadsExactly room stream ↔ SplitsAlike (unpackAttempt room) stream ∧
      ∀ s m n, Reached (unpackAttempt room) stream s → unpackAttempt room s = .item m n →
        LineEnds room (requestStart s) := by
    constructor
    · intro reads
      refine ⟨reads.splits, ?_⟩
      intro s m n reached item
      exact (requestExact_iff item).mp (reads.requests s m n reached item)
    · intro both
      apply ReadsExactly.mk both.1
      intro s m n reached item
      exact (requestExact_iff item).mpr (both.2 s m n reached item)
  rw [requests, Separable]
  exact splitsAlike_iff (splittable_unpackAttempt room) stream

/-- A SET whose line end is one byte, and then a binary NOOP. -/
def noOpBehindSet : Bytes :=
  text "set k 0 0 1\nx\n" ++ ([0x80, 0x0a] ++ List.replicate 22 0)

/-- The first byte of the NOOP is taken for the line end; behind a cut it is not. -/
theorem not_memcachedStream_exact :
    ¬SplitsAlike (unpackAttempt fun _ => true) noOpBehindSet ∧
      ¬ReadsExactly (fun _ => true) noOpBehindSet := by
  have differ : ¬SplitsAlike (unpackAttempt fun _ => true) noOpBehindSet := by
    intro alike
    have same := alike [noOpBehindSet.take 14, noOpBehindSet.drop 14] (by decide)
    exact absurd same (by decide)
  exact ⟨differ, fun reads => differ reads.splits⟩

end Raids.Memcached
