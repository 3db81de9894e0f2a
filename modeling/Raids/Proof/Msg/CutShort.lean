import Raids.Construction.Msg.Pack
import Raids.Proof.Msg.Chunk

namespace Raids

section Cut

variable (wrk : ScratchMem)

/-- The bytes end inside one of `n` messages, and a line end there decides it: as a failure, or
as the last message. -/
inductive CutShort : Bool → Nat → Bytes → Prop where
  | behind {fails : Bool} {n j : Nat} {s : Bytes} {m : RedisMsg}
      (read : unpack wrk s = .ok (m, j)) (rest : CutShort fails n (s.drop j)) :
      CutShort fails (n + 1) s
  | failed {spaces line : Bytes} {type : UInt8} {status : RedisMsgStatus} (n : Nat)
      (allSpaces : ∀ c ∈ spaces, IsSpace c) (start : ¬IsSpace type) (noNewline : lf ∉ line)
      (fails : unpackLine wrk (unpack wrk) (type :: (line ++ crlf)) (line ++ [cr]) =
        .error status)
      (isError : status ≠ .partialValue) : CutShort true (n + 1) (spaces ++ type :: line)
  | closed {spaces line : Bytes} {type : UInt8} {answer : RedisMsg × Nat}
      (allSpaces : ∀ c ∈ spaces, IsSpace c) (start : ¬IsSpace type) (noNewline : lf ∉ line)
      (closes : unpackLine wrk (unpack wrk) (type :: (line ++ crlf)) (line ++ [cr]) =
        .ok answer) : CutShort false 1 (spaces ++ type :: line)
  | body {spaces line rest : Bytes} {len : Int} (allSpaces : ∀ c ∈ spaces, IsSpace c)
      (noNewline : lf ∉ line) (header : strToInt32 (line.take (argLength line)) = .ok len)
      (short : rest.length < len.toNat) (enough : len.toNat ≤ rest.length + 2) :
      CutShort false 1 (spaces ++ StringType.char .bulkString :: (line ++ lf :: rest))
  | element {fails : Bool} {spaces line rest : Bytes} {len : Int} (n : Nat)
      (allSpaces : ∀ c ∈ spaces, IsSpace c) (noNewline : lf ∉ line)
      (header : strToInt32 (line.take (argLength line)) = .ok len) (positive : 0 < len)
      (granted : wrk (sizeofRedisMsg * len.toNat)) (inside : CutShort fails len.toNat rest)
      (last : fails = false → n = 0) :
      CutShort fails (n + 1) (spaces ++ arrayChar :: (line ++ lf :: rest))

/-- The messages that follow each other in a buffer. -/
def unpackAll (n : Nat) (s : Bytes) : Except RedisMsgStatus (List RedisMsg × Nat) :=
  unpackArray (unpack wrk) s n 0

/-- The elements behind an offset are the messages of the rest. -/
theorem unpackArray_eq (ptr : Bytes) (n j : Nat) :
    unpackArray (unpack wrk) ptr n j =
      (unpackAll wrk n (ptr.drop j)).map fun (ms, e) => (ms, e + j) := by
  have shift : ∀ n d, unpackArray (unpack wrk) ptr n (d + j) =
      (unpackArray (unpack wrk) (ptr.drop j) n d).map fun (ms, e) => (ms, e + j) := by
    intro n
    induction n with
    | zero => exact fun d => rfl
    | succ n ih =>
        intro d
        simp only [unpackArray, List.length_drop, List.drop_drop]
        by_cases beyond : ptr.length ≤ d + j
        · rw [if_pos beyond, if_pos (by omega)]
          rfl
        · rw [if_neg beyond, if_neg (by omega), Nat.add_comm j d]
          cases unpack wrk (ptr.drop (d + j)) with
          | error status => rfl
          | ok answer =>
              dsimp only
              rw [show d + j + answer.2 = d + answer.2 + j by omega, ih]
              cases unpackArray (unpack wrk) (ptr.drop j) n (d + answer.2) <;> rfl
  have whole := shift n 0
  rwa [Nat.zero_add] at whole

/-- A message in front leaves the other messages to the rest. -/
theorem unpackAll_ok {s : Bytes} {m : RedisMsg} {j : Nat} (read : unpack wrk s = .ok (m, j))
    (n : Nat) : unpackAll wrk (n + 1) s =
      (unpackAll wrk n (s.drop j)).map fun (ms, e) => (m :: ms, e + j) := by
  have fits := (stableAt_unpack wrk s).within read
  rw [unpackAll, unpackArray, if_neg (by omega), List.drop_zero, read]
  dsimp only
  rw [Nat.zero_add, unpackArray_eq]
  cases unpackAll wrk n (s.drop j) <;> rfl

/-- A failure in front is the failure of the messages. -/
theorem unpackAll_error {s : Bytes} {status : RedisMsgStatus}
    (read : unpack wrk s = .error status) (n : Nat) :
    unpackAll wrk (n + 1) s = .error status := by
  rw [unpackAll, unpackArray]
  cases s with
  | nil =>
      rw [unpack_blank wrk (by simp)] at read
      simpa using read
  | cons c s => simp [read]

theorem unpackAll_blank {s : Bytes} (allSpaces : ∀ c ∈ s, IsSpace c) (n : Nat) :
    unpackAll wrk (n + 1) s = .error .partialValue :=
  unpackAll_error wrk (unpack_blank wrk allSpaces) n

theorem crlf_spaces : ∀ c ∈ crlf, IsSpace c := LineEnd.isSpace .crlf

/-- The bytes end inside a message, so there are some. -/
theorem CutShort.nonempty {wrk : ScratchMem} {fails : Bool} {n : Nat} {s : Bytes}
    (cut : CutShort wrk fails n s) : s ≠ [] := by
  cases cut with
  | behind read rest =>
      rintro rfl
      rw [unpack_blank wrk (by simp)] at read
      cases read
  | failed => simp
  | closed => simp
  | body => simp
  | element => simp

/-- A line that the buffer cut is complete with a line end. -/
theorem unpack_closed {spaces line : Bytes} {type : UInt8}
    (allSpaces : ∀ c ∈ spaces, IsSpace c) (start : ¬IsSpace type) (noNewline : lf ∉ line) :
    unpack wrk (spaces ++ type :: line ++ crlf) =
      (unpackLine wrk (unpack wrk) (type :: (line ++ crlf)) (line ++ [cr])).map
        fun (m, j) => (m, j + spaces.length) := by
  have closedLine : lf ∉ line ++ [cr] := by
    simp only [List.mem_append, List.mem_singleton, noNewline, false_or]
    decide
  have whole := unpack_complete wrk allSpaces start closedLine []
  simpa [crlf] using whole

/-- The elements end behind their start. -/
theorem unpackArray_past {read : Bytes → Except RedisMsgStatus (RedisMsg × Nat)} {ptr : Bytes}
    {k j n : Nat} {elems : List RedisMsg} (done : unpackArray read ptr k j = .ok (elems, n)) :
    j ≤ n := by
  induction k generalizing j elems with
  | zero =>
      simp only [unpackArray, Except.ok.injEq, Prod.mk.injEq] at done
      omega
  | succ k ih =>
      simp only [unpackArray] at done
      split at done
      · cases done
      · cases element : read (ptr.drop j) with
        | error status => simp [element] at done
        | ok result =>
            simp only [element] at done
            cases rest : unpackArray read ptr k (j + result.2) with
            | error status => simp [rest, Except.map] at done
            | ok tail =>
                simp only [rest, Except.map, Except.ok.injEq, Prod.mk.injEq] at done
                obtain ⟨-, rfl⟩ := done
                have later := ih rest
                omega

theorem skipCrlf_past (ptr : Bytes) (j : Nat) : j ≤ skipCrlf ptr j := by
  rw [skipCrlf_eq]
  omega

/-- The message ends behind its first line. -/
theorem unpackLine_past {read : Bytes → Except RedisMsgStatus (RedisMsg × Nat)}
    {ptr line : Bytes} {m : RedisMsg} {n : Nat}
    (done : unpackLine wrk read ptr line = .ok (m, n)) : line.length + 2 ≤ n := by
  simp only [unpackLine] at done
  split at done
  · split at done
    · cases done
    · rename_i len header
      have past := skipCrlf_past ptr (line.length + 2 + len.toNat)
      have pastLine := skipCrlf_past ptr (line.length + 2)
      split at done
      · split at done
        · cases done
        · simp only [Except.ok.injEq, Prod.mk.injEq] at done
          omega
      · simp only [Except.ok.injEq, Prod.mk.injEq] at done
        split at done <;> omega
  · split at done
    · split at done
      · cases done
      · split at done
        · split at done
          · cases done
          · obtain ⟨⟨elems, e⟩, read, result⟩ := map_eq_ok done
            have past := unpackArray_past read
            simp only [Prod.mk.injEq] at result
            omega
        · simp only [Except.ok.injEq, Prod.mk.injEq] at done
          omega
    · split at done
      · obtain ⟨ival, -, result⟩ := map_eq_ok done
        simp only [Prod.mk.injEq] at result
        omega
      · split at done
        · simp only [Except.ok.injEq, Prod.mk.injEq] at done
          omega
        · split at done
          · simp only [Except.ok.injEq, Prod.mk.injEq] at done
            omega
          · obtain ⟨words, -, result⟩ := map_eq_ok done
            simp only [Prod.mk.injEq] at result
            omega

/-- The end of an array element by element. -/
theorem unpack_array {spaces line : Bytes} {len : Int} (allSpaces : ∀ c ∈ spaces, IsSpace c)
    (noNewline : lf ∉ line) (header : strToInt32 (line.take (argLength line)) = .ok len)
    (positive : 0 < len) (granted : wrk (sizeofRedisMsg * len.toNat)) (rest : Bytes) :
    unpack wrk (spaces ++ arrayChar :: (line ++ lf :: rest)) =
      (unpackAll wrk len.toNat rest).map fun (elems, j) =>
        (.array len elems, j + (line.length + 2) + spaces.length) := by
  have behind : (arrayChar :: (line ++ lf :: rest)).drop (line.length + 2) = rest := by simp
  rw [unpack_complete wrk allSpaces (by decide) noNewline, unpackLine_array, header]
  dsimp only
  rw [if_pos positive, if_neg (by simp [granted]), unpackArray_eq, behind]
  cases unpackAll wrk len.toNat rest <;> rfl

/-- The line end decides a failure, or it closes the last message behind the bytes. -/
theorem CutShort.decided {wrk : ScratchMem} {fails : Bool} {n : Nat} {s : Bytes}
    (cut : CutShort wrk fails n s) :
    unpackAll wrk n s = .error .partialValue ∧
      if fails then ∃ status ≠ .partialValue, unpackAll wrk n (s ++ crlf) = .error status
      else ∃ ms e, unpackAll wrk n (s ++ crlf) = .ok (ms, e) ∧ s.length < e := by
  induction cut with
  | @behind fails n j s m read rest ih =>
      have fits := (stableAt_unpack wrk s).within read
      obtain ⟨term, -, -, -, closed, longer⟩ := (stableAt_unpack wrk s).longer crlf read
      have inside : j < s.length := by
        have positive := List.length_pos_of_ne_nil rest.nonempty
        rw [List.length_drop] at positive
        omega
      rw [closed inside] at longer
      rw [unpackAll_ok wrk read, unpackAll_ok wrk longer, List.length_nil, Nat.add_zero,
        drop_append_within fits.2, ih.1]
      refine ⟨rfl, ?_⟩
      cases fails with
      | true =>
          obtain ⟨status, isError, failed⟩ := ih.2
          exact ⟨status, isError, by rw [failed]; rfl⟩
      | false =>
          obtain ⟨ms, e, done, past⟩ := ih.2
          rw [List.length_drop] at past
          exact ⟨m :: ms, e + j, by rw [done]; rfl, by omega⟩
  | @failed spaces line type status n allSpaces start noNewline fails isError =>
      refine ⟨unpackAll_error wrk (unpack_incomplete wrk allSpaces start noNewline) n, ?_⟩
      exact ⟨status, isError, unpackAll_error wrk (by
        rw [unpack_closed wrk allSpaces start noNewline, fails]; rfl) n⟩
  | @closed spaces line type answer allSpaces start noNewline closes =>
      refine ⟨unpackAll_error wrk (unpack_incomplete wrk allSpaces start noNewline) 0, ?_⟩
      have past := unpackLine_past wrk (m := answer.1) (n := answer.2) closes
      have whole := unpack_closed wrk allSpaces start noNewline
      rw [closes] at whole
      refine ⟨[answer.1], answer.2 + spaces.length, ?_, ?_⟩
      · rw [unpackAll_ok wrk whole]
        simp [unpackAll, unpackArray, Except.map]
      · simp only [List.length_append, List.length_cons, List.length_nil] at past ⊢
        omega
  | @body spaces line rest len allSpaces noNewline header short enough =>
      have start : ¬IsSpace (StringType.char .bulkString) := by decide
      have now : unpack wrk (spaces ++ StringType.char .bulkString :: (line ++ lf :: rest)) =
          .error .partialValue := by
        rw [unpack_complete wrk allSpaces start noNewline, unpackLine_bulkString, header]
        dsimp only
        rw [if_pos (by omega), if_pos (by simp; omega)]
        rfl
      have later : ∃ m e, unpack wrk (spaces ++ StringType.char .bulkString ::
          (line ++ lf :: rest) ++ crlf) = .ok (m, e) ∧
          spaces.length + line.length + 2 + len.toNat ≤ e := by
        have whole := unpack_complete wrk allSpaces start noNewline (rest ++ crlf)
        rw [unpackLine_bulkString, header] at whole
        dsimp only at whole
        rw [if_pos (by omega), if_neg (by simp [crlf]; omega)] at whole
        have past := skipCrlf_past
          (StringType.char .bulkString :: (line ++ lf :: (rest ++ crlf)))
          (line.length + 2 + len.toNat)
        have split : spaces ++ StringType.char .bulkString :: (line ++ lf :: (rest ++ crlf)) =
            spaces ++ StringType.char .bulkString :: (line ++ lf :: rest) ++ crlf := by simp
        rw [split] at whole
        exact ⟨_, _, whole, by omega⟩
      refine ⟨unpackAll_error wrk now 0, ?_⟩
      obtain ⟨m, e, read, past⟩ := later
      refine ⟨[m], e, ?_, ?_⟩
      · rw [unpackAll_ok wrk read]
        simp [unpackAll, unpackArray, Except.map]
      · simp only [List.length_append, List.length_cons]
        omega
  | @element fails spaces line rest len n allSpaces noNewline header positive granted inside last
      ih =>
      have now := unpack_array wrk allSpaces noNewline header positive granted rest
      have later := unpack_array wrk allSpaces noNewline header positive granted
        (rest ++ crlf)
      have split : spaces ++ arrayChar :: (line ++ lf :: (rest ++ crlf)) =
          spaces ++ arrayChar :: (line ++ lf :: rest) ++ crlf := by simp
      rw [split] at later
      rw [ih.1] at now
      refine ⟨unpackAll_error wrk now n, ?_⟩
      cases fails with
      | true =>
          obtain ⟨status, isError, failed⟩ := ih.2
          rw [failed] at later
          exact ⟨status, isError, unpackAll_error wrk later n⟩
      | false =>
          obtain ⟨ms, e, done, past⟩ := ih.2
          obtain rfl := last rfl
          rw [done] at later
          refine ⟨[.array len ms], e + (line.length + 2) + spaces.length, ?_, ?_⟩
          · rw [unpackAll_ok wrk later]
            simp [unpackAll, unpackArray, Except.map]
          · simp only [List.length_append, List.length_cons]
            omega

/-- The line end decides nothing about spaces behind the messages. -/
theorem unpackAll_behind {s : Bytes} {m : RedisMsg} {j n : Nat}
    (read : unpack wrk (s ++ crlf) = .ok (m, j)) (past : s.length ≤ j) :
    unpackAll wrk (n + 2) (s ++ crlf) = .error .partialValue := by
  have allSpaces : ∀ c ∈ (s ++ crlf).drop j, IsSpace c := by
    intro c member
    rw [List.drop_append, List.drop_eq_nil_of_le past, List.nil_append] at member
    exact crlf_spaces c (List.mem_of_mem_drop member)
  rw [unpackAll_ok wrk read, unpackAll_blank wrk allSpaces]
  rfl

/-- Only strings with a length and arrays look behind their first line. -/
theorem unpackLine_tail {read : Bytes → Except RedisMsgStatus (RedisMsg × Nat)} {type : UInt8}
    (noString : type ≠ StringType.char .bulkString) (noArray : type ≠ arrayChar)
    (first second line : Bytes) :
    unpackLine wrk read (type :: first) line = unpackLine wrk read (type :: second) line := by
  simp only [unpackLine, List.headD_cons, noString, noArray, if_false]
  rfl

/-- Every cut that a line end decides is one of these. -/
theorem cutShort_of_decided {n : Nat} {s : Bytes} (waits : unpackAll wrk n s = .error .partialValue)
    (decides : unpackAll wrk n (s ++ crlf) ≠ .error .partialValue) :
    ∃ fails, CutShort wrk fails n s := by
  generalize length : s.length = size
  induction size using Nat.strong_induction_on generalizing n s with
  | _ size ih =>
  cases n with
  | zero => cases waits
  | succ n =>
  -- The message in front does not wait for the line end.
  have noWait : unpack wrk (s ++ crlf) ≠ .error .partialValue :=
    fun same => decides (unpackAll_error wrk same n)
  -- Behind a message that the line end closes there is no other.
  have onlyLast : ∀ {m j}, unpack wrk (s ++ crlf) = .ok (m, j) → s.length ≤ j → n = 0 := by
    intro m j later past
    cases n with
    | zero => rfl
    | succ n => exact absurd (unpackAll_behind wrk later past) decides
  cases read : unpack wrk s with
  | ok answer =>
      -- The first message is complete, so the bytes end behind it.
      obtain ⟨m, j⟩ := answer
      have fits := (stableAt_unpack wrk s).within read
      obtain ⟨term, -, -, -, closed, longer⟩ := (stableAt_unpack wrk s).longer crlf read
      rw [unpackAll_ok wrk read] at waits
      have waitsBehind := map_eq_error waits
      by_cases inside : j < s.length
      · rw [closed inside, List.length_nil, Nat.add_zero] at longer
        rw [unpackAll_ok wrk longer, drop_append_within fits.2] at decides
        have decidesBehind : unpackAll wrk n (s.drop j ++ crlf) ≠ .error .partialValue := by
          intro same
          rw [same] at decides
          exact decides rfl
        obtain ⟨fails, cut⟩ := ih (s.drop j).length (by rw [List.length_drop]; omega) waitsBehind
          decidesBehind rfl
        exact ⟨fails, .behind read cut⟩
      · obtain rfl := onlyLast longer (by omega)
        cases waitsBehind
  | error status =>
      rw [unpackAll_error wrk read, Except.error.injEq] at waits
      subst waits
      cases firstLine s with
      | blank _ allSpaces =>
          refine absurd (unpack_blank wrk ?_) noWait
          intro c member
          rcases List.mem_append.mp member with inFront | inEnd
          · exact allSpaces c inFront
          · exact crlf_spaces c inEnd
      | incomplete spaces type line allSpaces start noNewline =>
          have whole := unpack_closed wrk allSpaces start noNewline
          cases closes : unpackLine wrk (unpack wrk) (type :: (line ++ crlf)) (line ++ [cr]) with
          | error status =>
              rw [closes] at whole
              refine ⟨true, .failed n allSpaces start noNewline closes ?_⟩
              rintro rfl
              exact noWait whole
          | ok answer =>
              have past := unpackLine_past wrk (m := answer.1) (n := answer.2) closes
              rw [closes] at whole
              obtain rfl := onlyLast whole (by
                simp only [List.length_append, List.length_cons, List.length_nil] at past ⊢
                omega)
              exact ⟨false, .closed allSpaces start noNewline closes⟩
      | complete spaces type line rest allSpaces start noNewline =>
          have now := unpack_complete wrk allSpaces start noNewline rest
          have later := unpack_complete wrk allSpaces start noNewline (rest ++ crlf)
          have split : spaces ++ type :: (line ++ lf :: (rest ++ crlf)) =
              spaces ++ type :: (line ++ lf :: rest) ++ crlf := by simp
          rw [split] at later
          rw [read] at now
          by_cases isString : type = StringType.char .bulkString
          · subst isString
            rw [unpackLine_bulkString] at now later
            cases header : strToInt32 (line.take (argLength line)) with
            | error status =>
                rw [header] at now later
                exact absurd (later.trans now.symm) noWait
            | ok len =>
                rw [header] at now later
                dsimp only at now later
                by_cases positive : 0 < len
                · rw [if_pos positive] at now later
                  have size : (StringType.char .bulkString :: (line ++ lf :: rest)).length =
                      line.length + 2 + rest.length := by simp; omega
                  have size' : (StringType.char .bulkString :: (line ++ lf :: (rest ++
                      crlf))).length = line.length + 2 + rest.length + 2 := by
                    simp [crlf]; omega
                  by_cases whole : line.length + 2 + rest.length < line.length + 2 + len.toNat
                  · by_cases more : line.length + 2 + rest.length + 2 <
                        line.length + 2 + len.toNat
                    · rw [size', if_pos more] at later
                      exact absurd later noWait
                    · rw [size', if_neg more] at later
                      have past := skipCrlf_past
                        (StringType.char .bulkString :: (line ++ lf :: (rest ++ crlf)))
                        (line.length + 2 + len.toNat)
                      obtain rfl := onlyLast later (by
                        rw [List.length_append, size]
                        omega)
                      exact ⟨false, .body allSpaces noNewline header (by omega) (by omega)⟩
                  · rw [size, if_neg whole] at now
                    cases now
                · rw [if_neg positive] at now
                  cases now
          by_cases isArray : type = arrayChar
          · subst isArray
            rw [unpackLine_array] at now later
            cases header : strToInt32 (line.take (argLength line)) with
            | error status =>
                rw [header] at now later
                exact absurd (later.trans now.symm) noWait
            | ok len =>
                rw [header] at now later
                dsimp only at now later
                by_cases positive : 0 < len
                · by_cases granted : wrk (sizeofRedisMsg * len.toNat)
                  · have now := unpack_array wrk allSpaces noNewline header positive granted
                      rest
                    have later := unpack_array wrk allSpaces noNewline header positive
                      granted (rest ++ crlf)
                    rw [split] at later
                    rw [read] at now
                    have waitsInside := map_eq_error now.symm
                    have decidesInside :
                        unpackAll wrk len.toNat (rest ++ crlf) ≠ .error .partialValue := by
                      intro same
                      rw [same] at later
                      exact noWait later
                    obtain ⟨fails, cut⟩ := ih rest.length (by
                      simp only [List.length_append, List.length_cons] at length
                      omega) waitsInside decidesInside rfl
                    refine ⟨fails, .element n allSpaces noNewline header positive granted cut ?_⟩
                    rintro rfl
                    obtain ⟨ms, e, done, past⟩ := cut.decided.2
                    rw [done] at later
                    exact onlyLast later (by
                      simp only [List.length_append, List.length_cons]
                      omega)
                  · rw [if_pos positive, if_pos (by simpa using granted)] at now
                    cases now
                · rw [if_neg positive] at now
                  cases now
          · rw [unpackLine_tail wrk isString isArray _ (line ++ lf :: rest)] at later
            exact absurd (later.trans now.symm) noWait

/-- The appended line end decides the message only where the bytes cut it short. -/
theorem unpack_crlf (buf : Bytes) :
    (unpack wrk buf).map Prod.fst = (unpack wrk (buf ++ crlf)).map Prod.fst ↔
      ¬∃ fails, CutShort wrk fails 1 buf := by
  constructor
  · rintro same ⟨fails, cut⟩
    obtain ⟨waits, decided⟩ := cut.decided
    cases read : unpack wrk buf with
    | ok answer =>
        rw [unpackAll_ok wrk (m := answer.1) (j := answer.2) read] at waits
        cases waits
    | error status =>
        rw [unpackAll_error wrk read, Except.error.injEq] at waits
        subst waits
        rw [read] at same
        have also := map_eq_error same.symm
        rw [unpackAll_error wrk also] at decided
        cases fails with
        | true =>
            obtain ⟨status, isError, failed⟩ := decided
            exact isError (Except.error.inj failed).symm
        | false =>
            obtain ⟨ms, e, done, -⟩ := decided
            cases done
  · intro noCut
    cases read : unpack wrk buf with
    | ok answer =>
        obtain ⟨term, -, -, -, -, longer⟩ :=
          (stableAt_unpack wrk buf).longer crlf (m := answer.1) (n := answer.2) read
        rw [longer]
        rfl
    | error status =>
        by_cases waits : status = .partialValue
        · subst waits
          have also : unpackAll wrk 1 (buf ++ crlf) = .error .partialValue := by
            by_contra decides
            exact noCut (cutShort_of_decided wrk (unpackAll_error wrk read 0) decides)
          cases later : unpack wrk (buf ++ crlf) with
          | ok answer =>
              rw [unpackAll_ok wrk (m := answer.1) (j := answer.2) later] at also
              cases also
          | error status =>
              rw [unpackAll_error wrk later, Except.error.injEq] at also
              rw [also]
        · rw [(stableAt_unpack wrk buf).fails crlf read waits]

end Cut

end Raids
