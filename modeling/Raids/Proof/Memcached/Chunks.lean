import Raids.Library.Runs
import Raids.Proof.Memcached.Receive

namespace Raids.Memcached
open IncrementalParser Runs

/-- The bytes behind the data do not go on below the blank, or start with a line end behind
which they do not, or with both bytes of a line end; the last received byte may be either. -/
def endsData : Bytes → Bool
  | [] => true
  | [c] => !isControl c || c = cr || c = lf
  | c :: d :: _ => !isControl c || (c = lf && !isControl d) || (c = cr && d = lf)

/-- The line end that is taken with the data; at the end of the bytes it may be half. -/
def IsLineEnd (ending rest : Bytes) : Prop :=
  ending = [] ∨ ending = [lf] ∨ ending = [cr, lf] ∨ (ending = [cr] ∧ rest = [])

/-- The blanks in front of the rest are blank lines, or the last one is not complete. -/
def BlankEnd (blanks rest : Bytes) : Prop := Blanks blanks ∨ (blanks = [cr] ∧ rest = [])

theorem BlankLine.blanks {line : Bytes} (blank : BlankLine line) : Blanks line := by
  have alone := Blanks.cons blank .nil
  rwa [List.append_nil] at alone

theorem blanks_lf : Blanks [lf] := BlankLine.blanks ⟨[], [lf], rfl, by simp, .inl rfl⟩

theorem blanks_crlf : Blanks [cr, lf] := BlankLine.blanks ⟨[], [cr, lf], rfl, by simp, .inr rfl⟩

/-- The bytes taken with the data are a line end exactly where the data ends. -/
theorem isLineEnd_iff (after : Bytes) :
    IsLineEnd (after.take (eaten after)) (after.drop (eaten after)) ↔ endsData after = true := by
  have control : isControl cr = true ∧ isControl lf = true := by decide
  match after with
  | [] => simp [IsLineEnd, eaten, endsData]
  | [c] =>
      rw [eaten, endsData]
      cases below : isControl c with
      | false => simp [IsLineEnd]
      | true => simp [IsLineEnd, or_comm]
  | c :: d :: rest =>
      rw [eaten, endsData]
      cases below : isControl c with
      | false => simp [IsLineEnd]
      | true =>
          cases below' : isControl d with
          | false =>
              have notLf : d ≠ lf := by
                intro same
                rw [same, control.2] at below'
                cases below'
              simp [IsLineEnd, notLf]
          | true => simp [IsLineEnd]

/-- A line end that was received later is blank. -/
theorem eaten_append {before more : Bytes} (ends : endsData (before ++ more) = true) :
    ∃ blanks rest, before.drop (eaten before) ++ more = blanks ++ rest ∧
      eaten (before ++ more) = eaten before + blanks.length ∧ BlankEnd blanks rest := by
  match before, more with
  | [], [] => exact ⟨[], [], rfl, rfl, .inl .nil⟩
  | [], [c] =>
      rw [List.nil_append] at ends ⊢
      cases below : isControl c with
      | false => exact ⟨[], [c], rfl, by simp [eaten, below], .inl .nil⟩
      | true =>
          simp only [endsData, below, Bool.not_true, Bool.false_or, Bool.or_eq_true,
            decide_eq_true_eq] at ends
          rcases ends with rfl | rfl
          · exact ⟨[cr], [], rfl, by simp [eaten, below], .inr ⟨rfl, rfl⟩⟩
          · exact ⟨[lf], [], rfl, by simp [eaten, below], .inl blanks_lf⟩
  | [], c :: d :: more =>
      rw [List.nil_append] at ends ⊢
      cases below : isControl c with
      | false => exact ⟨[], c :: d :: more, rfl, by simp [eaten, below], .inl .nil⟩
      | true =>
          simp only [endsData, below, Bool.not_true, Bool.false_or, Bool.or_eq_true,
            Bool.and_eq_true, decide_eq_true_eq, Bool.not_eq_true'] at ends
          rcases ends with ⟨rfl, above⟩ | ⟨rfl, rfl⟩
          · exact ⟨[lf], d :: more, rfl, by simp [eaten, below, above], .inl blanks_lf⟩
          · exact ⟨[cr, lf], more, rfl, rfl, .inl blanks_crlf⟩
  | [c], [] => exact ⟨[], _, rfl, rfl, .inl .nil⟩
  | [c], d :: more =>
      rw [List.singleton_append] at ends ⊢
      cases below : isControl c with
      | false => exact ⟨[], c :: d :: more, by simp [eaten, below], by simp [eaten, below], .inl .nil⟩
      | true =>
          simp only [endsData, below, Bool.not_true, Bool.false_or, Bool.or_eq_true,
            Bool.and_eq_true, decide_eq_true_eq, Bool.not_eq_true'] at ends
          rcases ends with ⟨rfl, above⟩ | ⟨rfl, rfl⟩
          · exact ⟨[], d :: more, by simp [eaten, below], by simp [eaten, below, above], .inl .nil⟩
          · exact ⟨[lf], more, rfl, rfl, .inl blanks_lf⟩
  | c :: d :: before, more => exact ⟨[], _, rfl, rfl, .inl .nil⟩

/-- What is taken with the data and was received is taken without the rest as well. -/
theorem eaten_take {before more : Bytes} (received : eaten (before ++ more) ≤ before.length) :
    eaten before = eaten (before ++ more) := by
  match before, more with
  | [], more => exact (Nat.le_zero.mp received).symm
  | [c], [] => rfl
  | [c], d :: more =>
      rw [List.singleton_append, List.length_singleton] at *
      cases below : isControl c with
      | false => simp [eaten, below]
      | true =>
          cases below' : isControl d with
          | false => simp [eaten, below, below']
          | true => simp [eaten, below, below'] at received
  | c :: d :: before, more => rfl

/-- The words behind the command word of a line. -/
def wordCount (t : Bytes) : Nat := (runs (· = space) (commandLine t)).tail.length

/-- There is memory for the words of a line, and the data of a storage request ends. -/
def LineEnds (room : Nat → Bool) (t : Bytes) : Prop :=
  t.head? ≠ some binMagic → ∀ m, lineMessage room (t.take (eol t)) = .ok m →
    (wordCount t ≤ 1 ∨ room (wordCount t) = true) ∧
      (m.command.isStorage = true → endsData (afterData m t) = true)

/-- A binary retrieval takes its key, also where the key is longer than the body. -/
def KeyBehind (t : Bytes) : Prop :=
  t.head? = some binMagic ∧ (binCommand t).isRetrieval = true ∧ bodyLength t < keyLength t

/-- A binary retrieval waits for its body, also where the body is longer than the key. -/
def bodyAhead (t : Bytes) : Nat :=
  if t.head? = some binMagic ∧ (binCommand t).isRetrieval = true then bodyLength t - keyLength t
  else 0

section Line

variable {room : Nat → Bool} {line rest : Bytes}

theorem lineAttempt_fail {error : ReceiveError} (failed : lineAttempt room line rest = .fail error)
    (more : Bytes) : lineAttempt room line (rest ++ more) = .fail error := by
  rw [lineAttempt] at failed ⊢
  cases message : lineMessage room line with
  | error status =>
      rw [message] at failed
      cases status <;> exact failed
  | ok m =>
      simp only [message] at failed
      split at failed
      · split at failed
        · cases failed
        · cases failed
      · cases failed

/-- An accepted line is taken with its line feed. -/
theorem lineAttempt_length {m : MemcachedMsg} {n : Nat}
    (item : lineAttempt room line rest = .item m n) : line.length + 1 ≤ n := by
  rw [lineAttempt] at item
  cases message : lineMessage room line with
  | error status =>
      rw [message] at item
      cases status <;> cases item
  | ok m' =>
      simp only [message] at item
      split at item
      · split at item
        · cases item
        · obtain ⟨_, rfl⟩ := Attempt.item.inj item
          omega
      · obtain ⟨_, rfl⟩ := Attempt.item.inj item
        exact le_rfl

/-- More bytes change the taken line end only. -/
theorem lineAttempt_append {m : MemcachedMsg} {n : Nat}
    (item : lineAttempt room line rest = .item m n) (noLf : lf ∉ line) (more : Bytes) :
    ∃ total, lineAttempt room line (rest ++ more) = .item m total ∧ n ≤ line.length + 1 + rest.length ∧
      ((line ++ lf :: rest).head? ≠ some binMagic → LineEnds room (line ++ lf :: (rest ++ more)) →
        ∃ blanks rest', (line ++ lf :: rest).drop n ++ more = blanks ++ rest' ∧
          total = n + blanks.length ∧ BlankEnd blanks rest') := by
  have behind : ∀ k, (line ++ lf :: rest).drop (line.length + 1 + k) = rest.drop k := by
    intro k
    rw [Nat.add_assoc, List.drop_length_add_append, Nat.add_comm, List.drop_succ_cons]
  rw [lineAttempt] at item ⊢
  cases message : lineMessage room line with
  | error status =>
      rw [message] at item
      cases status <;> cases item
  | ok m' =>
      simp only [message] at item ⊢
      cases storage : m'.command.isStorage with
      | false =>
          simp only [storage, Bool.false_eq_true, if_false] at item ⊢
          obtain ⟨rfl, rfl⟩ := Attempt.item.inj item
          refine ⟨line.length + 1, rfl, by omega, ?_⟩
          intro _ _
          exact ⟨[], _, rfl, rfl, .inl .nil⟩
      | true =>
          simp only [storage, if_true] at item ⊢
          split at item
          · cases item
          · rename_i complete
            obtain ⟨rfl, rfl⟩ := Attempt.item.inj item
            have inside : m'.msglen ≤ rest.length := Nat.not_lt.mp complete
            have bound := eaten_le (rest.drop m'.msglen)
            rw [List.length_drop] at bound
            refine ⟨line.length + 1 + (m'.msglen + eaten ((rest ++ more).drop m'.msglen)), ?_,
              by omega, ?_⟩
            · rw [if_neg (by rw [List.length_append]; omega), List.take_append_of_le_length inside]
            · intro notMagic ends
              have notMagic' : (line ++ lf :: (rest ++ more)).head? ≠ some binMagic := by
                cases line with
                | nil => exact notMagic
                | cons c line => exact notMagic
              have data := (ends notMagic' m' (by rw [eol_append noLf, List.take_left, message])).2
                storage
              rw [afterData, drop_eol_append noLf,
                List.drop_append_of_le_length inside] at data
              obtain ⟨blanks, rest', split, size, isBlank⟩ := eaten_append data
              refine ⟨blanks, rest', ?_, ?_, isBlank⟩
              · rw [behind, ← List.drop_drop, split]
              · rw [List.drop_append_of_le_length inside, size]
                omega

/-- A line whose message was received is taken without the rest as well. -/
theorem lineAttempt_take {more : Bytes} {m : MemcachedMsg} {n : Nat}
    (item : lineAttempt room line (rest ++ more) = .item m n)
    (received : n ≤ line.length + 1 + rest.length) : lineAttempt room line rest = .item m n := by
  rw [lineAttempt] at item ⊢
  cases message : lineMessage room line with
  | error status =>
      rw [message] at item
      cases status <;> cases item
  | ok m' =>
      simp only [message] at item ⊢
      cases storage : m'.command.isStorage with
      | false => simpa only [storage, Bool.false_eq_true, if_false] using item
      | true =>
          simp only [storage, if_true] at item ⊢
          split at item
          · cases item
          · obtain ⟨rfl, rfl⟩ := Attempt.item.inj item
            have inside : m'.msglen ≤ rest.length := by omega
            rw [List.drop_append_of_le_length inside] at received ⊢
            have early : eaten (rest.drop m'.msglen ++ more) ≤ (rest.drop m'.msglen).length := by
              rw [List.length_drop]
              omega
            rw [if_neg (by omega), eaten_take early, List.take_append_of_le_length inside]

end Line

section Header

variable {t : Bytes}

/-- The header of a binary request is the same, whatever follows it. -/
theorem header_append (header : MemcachedBinHdr.size ≤ t.length) (more : Bytes) :
    bodyLength (t ++ more) = bodyLength t ∧ keyLength (t ++ more) = keyLength t ∧
      binCommand (t ++ more) = binCommand t ∧ binTaken (t ++ more) = binTaken t := by
  have same := readBinHdr_append header more
  simp only [bodyLength, keyLength, binCommand, binTaken, same, and_self]

theorem binTaken_eq (t : Bytes) :
    binTaken t = if (binCommand t).isRetrieval then keyLength t else bodyLength t := rfl

theorem requestAttempt_bin (room : Nat → Bool) (magic : t.head? = some binMagic) :
    requestAttempt room t =
      if MemcachedBinHdr.size + bodyLength t ≤ t.length then
        if MemcachedBinHdr.size + binTaken t ≤ t.length then
          .item (binContent t) (MemcachedBinHdr.size + binTaken t)
        else .fail .overrun
      else .more := by
  rw [requestAttempt, if_pos magic]

/-- A request that takes more than it waits for is a retrieval whose key is behind its body. -/
theorem keyBehind_of_lt (magic : t.head? = some binMagic) (behind : bodyLength t < binTaken t) :
    KeyBehind t := by
  rw [binTaken_eq] at behind
  split at behind
  · rename_i retrieval
    exact ⟨magic, retrieval, behind⟩
  · exact absurd behind (Nat.lt_irrefl _)

/-- A binary request waits for its body and, where it takes more, not for that. -/
theorem binTaken_ahead (magic : t.head? = some binMagic) :
    binTaken t + bodyAhead t = max (binTaken t) (bodyLength t) := by
  rw [binTaken_eq, bodyAhead]
  cases (binCommand t).isRetrieval with
  | true =>
      simp only [magic, and_self, if_true]
      omega
  | false => simp

theorem head_append (nonempty : t ≠ []) (more : Bytes) : (t ++ more).head? = t.head? :=
  List.head?_append_of_ne_nil _ nonempty

end Header

section Request

variable {room : Nat → Bool} {t : Bytes}

theorem requestAttempt_nil (room : Nat → Bool) : requestAttempt room [] = .more := rfl

/-- A line that is not complete waits, so the other requests are binary or lines. -/
theorem line_of_attempt (room : Nat → Bool) (notMagic : t.head? ≠ some binMagic)
    (decided : requestAttempt room t ≠ .more) : ∃ line rest, t = line ++ lf :: rest ∧ lf ∉ line := by
  by_cases present : lf ∈ t
  · obtain ⟨line, rest, split, noLf, _⟩ := eol_split present
    exact ⟨line, rest, split, noLf⟩
  · exact absurd (requestAttempt_open room notMagic present) decided

/-- More bytes change an error only where a binary request takes more than it waits for. -/
theorem requestAttempt_fail {error : ReceiveError} (failed : requestAttempt room t = .fail error)
    (more : Bytes) : requestAttempt room (t ++ more) = .fail error ∨
      error = .overrun ∧ ∃ m n, requestAttempt room (t ++ more) = .item m n ∧
        KeyBehind (t ++ more) ∧ t.length < n := by
  have nonempty : t ≠ [] := by
    intro empty
    rw [empty, requestAttempt_nil] at failed
    cases failed
  have head := head_append nonempty more
  by_cases magic : t.head? = some binMagic
  · rw [requestAttempt_bin room magic] at failed
    split at failed
    · rename_i complete
      obtain ⟨body, key, command, taken⟩ := header_append (t := t) (by omega) more
      split at failed
      · cases failed
      · rename_i behind
        injection failed with overrun
        rw [requestAttempt_bin room (head.trans magic), body, taken, List.length_append,
          if_pos (by omega)]
        by_cases inside : MemcachedBinHdr.size + binTaken t ≤ t.length + more.length
        · rw [if_pos inside]
          refine .inr ⟨overrun.symm, _, _, rfl, ?_, by omega⟩
          exact keyBehind_of_lt (head.trans magic) (by omega)
        · rw [if_neg inside, overrun]
          exact .inl rfl
    · cases failed
  · left
    obtain ⟨line, rest, split, noLf⟩ := line_of_attempt room magic (by simp [failed])
    rw [split] at failed magic head ⊢
    rw [requestAttempt_text room noLf magic] at failed
    rw [List.append_assoc, List.cons_append] at head ⊢
    rw [requestAttempt_text room noLf (head ▸ magic)]
    exact lineAttempt_fail failed more

/-- More bytes change the taken line end of a request only. -/
theorem requestAttempt_append {m : MemcachedMsg} {n : Nat}
    (item : requestAttempt room t = .item m n) (more : Bytes) :
    ∃ total, requestAttempt room (t ++ more) = .item m total ∧ n ≤ t.length ∧
      (LineEnds room (t ++ more) → ∃ blanks rest, t.drop n ++ more = blanks ++ rest ∧
        total = n + blanks.length ∧ BlankEnd blanks rest ∧
        bodyAhead (t ++ more) ≤ bodyAhead t - blanks.length) := by
  have nonempty : t ≠ [] := by
    intro empty
    rw [empty, requestAttempt_nil] at item
    cases item
  have head := head_append nonempty more
  by_cases magic : t.head? = some binMagic
  · rw [requestAttempt_bin room magic] at item
    split at item
    · rename_i complete
      obtain ⟨body, key, command, taken⟩ := header_append (t := t) (by omega) more
      split at item
      · rename_i inside
        obtain ⟨rfl, rfl⟩ := Attempt.item.inj item
        refine ⟨MemcachedBinHdr.size + binTaken t, ?_, inside, ?_⟩
        · rw [requestAttempt_bin room (head.trans magic), body, taken, List.length_append,
            if_pos (by omega), if_pos (by omega), binContent_append complete]
        · intro _
          refine ⟨[], _, rfl, rfl, .inl .nil, ?_⟩
          rw [bodyAhead, bodyAhead, head, command, body, key]
          exact le_rfl
      · cases item
    · cases item
  · obtain ⟨line, rest, split, noLf⟩ := line_of_attempt room magic (by simp [item])
    have none : bodyAhead (t ++ more) = 0 := by
      rw [bodyAhead, if_neg]
      rw [head]
      exact fun both => magic both.1
    rw [split] at item magic head none ⊢
    rw [requestAttempt_text room noLf magic] at item
    obtain ⟨total, whole, inside, moved⟩ := lineAttempt_append item noLf more
    rw [List.append_assoc, List.cons_append] at head none ⊢
    refine ⟨total, ?_, ?_, ?_⟩
    · rw [requestAttempt_text room noLf (head ▸ magic), whole]
    · rw [List.length_append, List.length_cons]
      omega
    · intro ends
      obtain ⟨blanks, rest', cut, size, isBlank⟩ := moved magic ends
      exact ⟨blanks, rest', cut, size, isBlank, by rw [none]; exact Nat.zero_le _⟩

/-- A request and what it waits for were received. -/
theorem requestAttempt_seen {m : MemcachedMsg} {n : Nat}
    (item : requestAttempt room t = .item m n) : n + bodyAhead t ≤ t.length := by
  obtain ⟨_, _, inside, _⟩ := requestAttempt_append item []
  by_cases magic : t.head? = some binMagic
  · rw [requestAttempt_bin room magic] at item
    have ahead := binTaken_ahead magic
    split at item
    · split at item
      · obtain ⟨_, rfl⟩ := Attempt.item.inj item
        omega
      · cases item
    · cases item
  · rw [bodyAhead, if_neg (fun both => magic both.1)]
    exact inside

/-- A request that was received with what it waits for is taken without the rest as well. -/
theorem requestAttempt_take {more : Bytes} {m : MemcachedMsg} {n : Nat}
    (item : requestAttempt room (t ++ more) = .item m n)
    (received : n + bodyAhead (t ++ more) ≤ t.length) : requestAttempt room t = .item m n := by
  by_cases magic : (t ++ more).head? = some binMagic
  · have ahead := binTaken_ahead magic
    rw [requestAttempt_bin room magic] at item
    split at item
    · split at item
      · obtain ⟨rfl, rfl⟩ := Attempt.item.inj item
        obtain ⟨body, key, command, taken⟩ := header_append (t := t) (by omega) more
        have nonempty : t ≠ [] := by
          intro empty
          rw [empty, List.length_nil, MemcachedBinHdr.size] at received
          omega
        rw [head_append nonempty] at magic
        have complete : MemcachedBinHdr.size + bodyLength t ≤ t.length := by omega
        rw [requestAttempt_bin room magic, if_pos complete, if_pos (by omega), taken,
          binContent_append complete]
      · cases item
    · cases item
  · obtain ⟨line, rest, split, noLf⟩ := line_of_attempt room magic (by simp [item])
    rw [split] at magic
    rw [split, requestAttempt_text room noLf magic] at item
    have long := lineAttempt_length item
    have inside : line ++ [lf] <+: t := by
      have front : line ++ [lf] <+: t ++ more := ⟨rest, by rw [split, List.append_assoc]; rfl⟩
      apply List.prefix_of_prefix_length_le front (List.prefix_append t more)
      rw [List.length_append, List.length_singleton]
      omega
    obtain ⟨rest', same⟩ := inside
    have behind : rest = rest' ++ more := by
      rw [← same, List.append_assoc, List.append_assoc] at split
      exact (List.cons.inj (List.append_cancel_left split)).2.symm
    have size : t.length = line.length + 1 + rest'.length := by
      rw [← same, List.length_append, List.length_append, List.length_singleton]
    have whole : t = line ++ lf :: rest' := by
      rw [← same, List.append_assoc]
      rfl
    have notMagic : (line ++ lf :: rest').head? ≠ some binMagic := by
      cases line with
      | nil => exact magic
      | cons c line => exact magic
    rw [behind] at item
    rw [whole, requestAttempt_text room noLf notMagic]
    exact lineAttempt_take item (by omega)

/-- A request that takes more than it waits for overruns a buffer that lacks its last byte. -/
theorem requestAttempt_short {more : Bytes} {m : MemcachedMsg} {n : Nat}
    (item : requestAttempt room (t ++ more) = .item m n) (behind : KeyBehind (t ++ more))
    (lacks : t.length + 1 = n) : requestAttempt room t = .fail .overrun := by
  obtain ⟨magic, retrieval, less⟩ := behind
  rw [requestAttempt_bin room magic] at item
  split at item
  · split at item
    · obtain ⟨rfl, rfl⟩ := Attempt.item.inj item
      have taken : binTaken (t ++ more) = keyLength (t ++ more) := by
        rw [binTaken_eq, if_pos retrieval]
      obtain ⟨body, key, command, same⟩ := header_append (t := t) (by omega) more
      have nonempty : t ≠ [] := by
        intro empty
        rw [empty, List.length_nil, MemcachedBinHdr.size] at lacks
        omega
      rw [head_append nonempty] at magic
      rw [requestAttempt_bin room magic, if_pos (by omega), if_neg (by omega)]
    · cases item
  · cases item

end Request

end Raids.Memcached
