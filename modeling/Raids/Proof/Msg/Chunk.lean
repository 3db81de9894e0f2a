import Raids.Proof.Msg.Unpack

namespace Raids
open IncrementalParser

/-- A line ends with a newline, a return before it, or neither of them yet. -/
inductive LineEnd : Bytes → Prop where
  | none : LineEnd []
  | cr : LineEnd [cr]
  | lf : LineEnd [lf]
  | crlf : LineEnd [Raids.cr, Raids.lf]

theorem isSpace_cr : IsSpace cr := by decide

theorem isSpace_lf : IsSpace lf := by decide

theorem LineEnd.isSpace {term : Bytes} (lineEnd : LineEnd term) : ∀ c ∈ term, IsSpace c := by
  cases lineEnd <;> simp [isSpace_cr, isSpace_lf]

/-- The length of the line end in front of a buffer. -/
def lineEndLength : Bytes → Nat
  | [] => 0
  | c :: rest =>
      if c = cr then (if rest.head? = some lf then 2 else 1) else if c = lf then 1 else 0

theorem skipCrlf_eq (ptr : Bytes) (j : Nat) : skipCrlf ptr j = j + lineEndLength (ptr.drop j) := by
  have here : ptr[j]? = (ptr.drop j).head? := List.head?_drop.symm
  have next : ptr[j + 1]? = (ptr.drop j).tail.head? := by rw [List.tail_drop, List.head?_drop]
  have different : cr ≠ lf := by decide
  rw [skipCrlf]
  cases tail : ptr.drop j with
  | nil => simp [here, tail, lineEndLength]
  | cons c rest =>
      rw [tail] at here next
      by_cases isCr : c = cr
      · by_cases isLf : rest.head? = some lf <;>
          simp [here, next, isCr, isLf, lineEndLength]
      · by_cases isLf : c = lf <;> simp [here, isCr, isLf, different.symm, lineEndLength]

theorem lineEnd_take (buffer : Bytes) : LineEnd (buffer.take (lineEndLength buffer)) := by
  cases buffer with
  | nil => exact .none
  | cons c rest =>
      simp only [lineEndLength]
      split
      · rename_i isCr
        subst isCr
        split
        · rename_i isLf
          obtain ⟨rest, rfl⟩ := List.head?_eq_some_iff.mp isLf
          exact .crlf
        · exact .cr
      · split
        · rename_i isLf
          subst isLf
          exact .lf
        · exact .none

theorem lineEndLength_le (buffer : Bytes) : lineEndLength buffer ≤ buffer.length := by
  cases buffer with
  | nil => exact le_rfl
  | cons c rest =>
      simp only [lineEndLength, List.length_cons]
      split
      · split
        · rename_i isLf
          obtain ⟨rest, rfl⟩ := List.head?_eq_some_iff.mp isLf
          simp
        · omega
      · split <;> omega

/-- More input only completes a line end that the buffer cut. -/
theorem lineEndLength_append (tail more : Bytes) :
    ∃ term rest, tail.drop (lineEndLength tail) ++ more = term ++ rest ∧ LineEnd term ∧
      (lineEndLength tail < tail.length → term = []) ∧
      lineEndLength (tail ++ more) = lineEndLength tail + term.length := by
  have whole : tail.drop (lineEndLength tail) ++ more =
      [] ++ (tail.drop (lineEndLength tail) ++ more) := rfl
  rcases tail with _ | ⟨c, _ | ⟨d, rest⟩⟩
  · refine ⟨more.take (lineEndLength more), more.drop (lineEndLength more), ?_,
      lineEnd_take more, by simp [lineEndLength], ?_⟩
    · rw [List.take_append_drop]
      rfl
    · rw [List.length_take, Nat.min_eq_left (lineEndLength_le more), List.nil_append]
      exact (Nat.zero_add _).symm
  · by_cases isCr : c = cr
    · by_cases isLf : more.head? = some lf
      · obtain ⟨more, rfl⟩ := List.head?_eq_some_iff.mp isLf
        exact ⟨[lf], more, by simp [lineEndLength, isCr], .lf, by simp [lineEndLength, isCr],
          by simp [lineEndLength, isCr]⟩
      · exact ⟨[], _, whole, .none, fun _ => rfl, by simp [lineEndLength, isCr, isLf]⟩
    · exact ⟨[], _, whole, .none, fun _ => rfl, by simp [lineEndLength, isCr]⟩
  · exact ⟨[], _, whole, .none, fun _ => rfl, by simp [lineEndLength]⟩

/-- The reader of a buffer keeps its answer on a longer buffer. -/
structure StableAt (read : Bytes → Except RedisMsgStatus (RedisMsg × Nat)) (buf : Bytes) :
    Prop where
  within : ∀ {m n}, read buf = .ok (m, n) → 0 < n ∧ n ≤ buf.length
  fails : ∀ {status} more, read buf = .error status → status ≠ .partialValue →
    read (buf ++ more) = .error status
  longer : ∀ {m n} more, read buf = .ok (m, n) →
    ∃ term rest, buf.drop n ++ more = term ++ rest ∧ LineEnd term ∧
      (n < buf.length → term = []) ∧ read (buf ++ more) = .ok (m, n + term.length)

/-- An answer that does not look behind the buffer is stable. -/
theorem stableAt_of_same {read : Bytes → Except RedisMsgStatus (RedisMsg × Nat)} {buf : Bytes}
    {answer : Except RedisMsgStatus (RedisMsg × Nat)}
    (same : ∀ more, read (buf ++ more) = answer)
    (fits : ∀ {m n}, answer = .ok (m, n) → 0 < n ∧ n ≤ buf.length) : StableAt read buf := by
  have now : read buf = answer := by simpa using same []
  constructor
  · intro m n done
    exact fits (now.symm.trans done)
  · intro status more failed _
    rw [same, ← now, failed]
  · intro m n more done
    refine ⟨[], buf.drop n ++ more, rfl, .none, fun _ => rfl, ?_⟩
    rw [same, ← now, done]
    rfl

theorem stableAt_of_partial {read : Bytes → Except RedisMsgStatus (RedisMsg × Nat)}
    {buf : Bytes} (waits : read buf = .error .partialValue) : StableAt read buf := by
  constructor
  · intro m n done
    rw [waits] at done
    cases done
  · intro status more failed isError
    rw [waits] at failed
    exact absurd (Except.error.inj failed).symm isError
  · intro m n more done
    rw [waits] at done
    cases done

theorem drop_append_within {ptr : Bytes} {j : Nat} (inside : j ≤ ptr.length) (more : Bytes) :
    (ptr ++ more).drop j = ptr.drop j ++ more := List.drop_append_of_le_length inside

section Array

variable {read : Bytes → Except RedisMsgStatus (RedisMsg × Nat)}

/-- The elements end behind their start and inside the buffer. -/
theorem unpackArray_within (stable : ∀ buf, StableAt read buf) {ptr : Bytes} {k j n : Nat}
    {elems : List RedisMsg} (inside : j ≤ ptr.length)
    (done : unpackArray read ptr k j = .ok (elems, n)) : j ≤ n ∧ n ≤ ptr.length := by
  induction k generalizing j elems with
  | zero =>
      simp only [unpackArray, Except.ok.injEq, Prod.mk.injEq] at done
      omega
  | succ k ih =>
      simp only [unpackArray] at done
      split at done
      · cases done
      · cases element : read (ptr.drop j) with
        | error status => simp [element] at done
        | ok result =>
            have fits := (stable _).within (m := result.1) (n := result.2) element
            rw [List.length_drop] at fits
            simp only [element] at done
            cases rest : unpackArray read ptr k (j + result.2) with
            | error status => simp [rest, Except.map] at done
            | ok tail =>
                simp only [rest, Except.map, Except.ok.injEq, Prod.mk.injEq] at done
                obtain ⟨-, rfl⟩ := done
                have bounds := ih (by omega) rest
                omega

/-- An element fails on the longer buffer as on the shorter one. -/
theorem unpackArray_fails (stable : ∀ buf, StableAt read buf) {ptr : Bytes} {k j : Nat}
    {status : RedisMsgStatus} (more : Bytes) (failed : unpackArray read ptr k j = .error status)
    (isError : status ≠ .partialValue) :
    unpackArray read (ptr ++ more) k j = .error status := by
  induction k generalizing j with
  | zero => cases failed
  | succ k ih =>
      simp only [unpackArray] at failed ⊢
      split at failed
      · exact absurd (Except.error.inj failed).symm isError
      · rename_i inside
        rw [not_le] at inside
        rw [if_neg (by rw [List.length_append]; omega), drop_append_within inside.le]
        cases element : read (ptr.drop j) with
        | error status' =>
            simp only [element, Except.error.injEq] at failed
            subst failed
            rw [(stable _).fails more element isError]
        | ok result =>
            simp only [element] at failed
            have rest : unpackArray read ptr k (j + result.2) = .error status := by
              cases tail : unpackArray read ptr k (j + result.2) with
              | error status' => simpa [tail, Except.map] using failed
              | ok tail' => simp [tail, Except.map] at failed
            obtain ⟨term, _, _, _, closed, read_longer⟩ :=
              (stable _).longer more (m := result.1) (n := result.2) element
            -- The next element started inside the buffer, so this one was closed.
            have followed : j + result.2 < ptr.length := by
              cases k with
              | zero => cases rest
              | succ k =>
                  by_contra beyond
                  rw [unpackArray, if_pos (by omega)] at rest
                  exact isError (Except.error.inj rest).symm
            rw [closed (by rw [List.length_drop]; omega)] at read_longer
            simp only [List.length_nil, Nat.add_zero] at read_longer
            rw [read_longer]
            simp only [ih rest]
            rfl

/-- Only the last element may take a longer line end from a longer buffer. -/
theorem unpackArray_longer (stable : ∀ buf, StableAt read buf) {ptr : Bytes} {k j n : Nat}
    {elems : List RedisMsg} (more : Bytes) (inside : j ≤ ptr.length)
    (done : unpackArray read ptr k j = .ok (elems, n)) :
    ∃ term rest, ptr.drop n ++ more = term ++ rest ∧ LineEnd term ∧
      (n < ptr.length → term = []) ∧
      unpackArray read (ptr ++ more) k j = .ok (elems, n + term.length) := by
  induction k generalizing j elems with
  | zero =>
      simp only [unpackArray, Except.ok.injEq, Prod.mk.injEq] at done
      obtain ⟨rfl, rfl⟩ := done
      exact ⟨[], ptr.drop j ++ more, rfl, .none, fun _ => rfl, rfl⟩
  | succ k ih =>
      simp only [unpackArray] at done ⊢
      split at done
      · cases done
      · rename_i available
        rw [not_le] at available
        rw [if_neg (by rw [List.length_append]; omega), drop_append_within inside]
        cases element : read (ptr.drop j) with
        | error status => simp [element] at done
        | ok result =>
            have fits := (stable _).within (m := result.1) (n := result.2) element
            rw [List.length_drop] at fits
            simp only [element] at done
            cases tail : unpackArray read ptr k (j + result.2) with
            | error status => simp [tail, Except.map] at done
            | ok tail' =>
                simp only [tail, Except.map, Except.ok.injEq, Prod.mk.injEq] at done
                obtain ⟨rfl, rfl⟩ := done
                obtain ⟨term, rest, split, lineEnd, closed, element'⟩ :=
                  (stable _).longer more (m := result.1) (n := result.2) element
                rw [element']
                by_cases last : j + result.2 < ptr.length
                · rw [closed (by rw [List.length_drop]; omega)]
                  obtain ⟨term', rest', split', lineEnd', closed', longer'⟩ :=
                    ih (by omega) tail
                  refine ⟨term', rest', split', lineEnd', closed', ?_⟩
                  simp only [List.length_nil, Nat.add_zero, longer', Except.map]
                · -- The buffer ends here, so no further element was read from it.
                  cases k with
                  | succ k =>
                      rw [unpackArray, if_pos (by omega)] at tail
                      cases tail
                  | zero =>
                      simp only [unpackArray, Except.ok.injEq] at tail
                      subst tail
                      rw [List.drop_drop] at split
                      refine ⟨term, rest, split, lineEnd, fun short => absurd short last, ?_⟩
                      simp [unpackArray, Except.map, Nat.add_assoc]

end Array

section Line

variable (wrk : ScratchMem) {read : Bytes → Except RedisMsgStatus (RedisMsg × Nat)}

/-- The string takes its bytes from the buffer and the line end that is there. -/
theorem stableAt_bulkString {buf : Bytes} {j : Nat} (len : Int) (start : 0 < j)
    (inside : j ≤ buf.length)
    (same : ∀ more, read (buf ++ more) =
      if 0 < len then
        if (buf ++ more).length < j + len.toNat then .error .partialValue
        else .ok (.string .bulkString len (((buf ++ more).drop j).take len.toNat),
          skipCrlf (buf ++ more) (j + len.toNat))
      else .ok (.string .bulkString len [], if 0 ≤ len then skipCrlf (buf ++ more) j else j)) :
    StableAt read buf := by
  have now := same []
  simp only [List.append_nil] at now
  by_cases available : buf.length < j + len.toNat
  · -- A length of zero or less takes no bytes, so only a positive one waits.
    have positive : 0 < len := by omega
    exact stableAt_of_partial (by rw [now, if_pos positive, if_pos available])
  rw [not_lt] at available
  by_cases negative : len < 0
  · have fixed : ∀ more, read (buf ++ more) = .ok (.string .bulkString len [], j) := by
      intro more
      rw [same, if_neg (by omega), if_neg (by omega)]
    refine stableAt_of_same fixed ?_
    intro m n done
    cases done
    exact ⟨start, inside⟩
  have payload : ∀ more, read (buf ++ more) =
      .ok (.string .bulkString len ((buf.drop j).take len.toNat),
        skipCrlf (buf ++ more) (j + len.toNat)) := by
    intro more
    rw [same]
    by_cases positive : 0 < len
    · rw [if_pos positive, if_neg (by rw [List.length_append]; omega),
        drop_append_within inside, List.take_append_of_le_length (by rw [List.length_drop]; omega)]
    · obtain rfl : len = 0 := by omega
      simp
  have now := payload []
  simp only [List.append_nil, skipCrlf_eq] at now
  have bound := lineEndLength_le (buf.drop (j + len.toNat))
  rw [List.length_drop] at bound
  constructor
  · intro m n done
    rw [now] at done
    cases done
    constructor <;> omega
  · intro status more failed
    rw [now] at failed
    cases failed
  · intro m n more done
    rw [now] at done
    cases done
    obtain ⟨term, rest, split, lineEnd, closed, grows⟩ :=
      lineEndLength_append (buf.drop (j + len.toNat)) more
    rw [List.drop_drop] at split
    refine ⟨term, rest, split, lineEnd, ?_, ?_⟩
    · intro short
      exact closed (by rw [List.length_drop]; omega)
    · rw [payload, skipCrlf_eq, drop_append_within available, grows, ← Nat.add_assoc]

/-- The elements of an array are stable, and so is the array. -/
theorem stableAt_array {buf : Bytes} {elements : Bytes → Except RedisMsgStatus (RedisMsg × Nat)}
    (stable : ∀ buf, StableAt elements buf) {j : Nat} (len : Int) (start : 0 < j)
    (inside : j ≤ buf.length)
    (same : ∀ more, read (buf ++ more) =
      (unpackArray elements (buf ++ more) len.toNat j).map fun (elems, j) =>
        (.array len elems, j)) : StableAt read buf := by
  have now := same []
  simp only [List.append_nil] at now
  cases result : unpackArray elements buf len.toNat j with
  | error status =>
      rw [result] at now
      by_cases waits : status = .partialValue
      · subst waits
        exact stableAt_of_partial now
      · have fixed : ∀ more, read (buf ++ more) = .error status := by
          intro more
          rw [same, unpackArray_fails stable more result waits]
          rfl
        refine stableAt_of_same fixed ?_
        intro m n done
        cases done
  | ok result' =>
      obtain ⟨elems, n⟩ := result'
      rw [result] at now
      constructor
      · intro m n done
        rw [now] at done
        cases done
        have bounds := unpackArray_within stable inside result
        omega
      · intro status more failed
        rw [now] at failed
        cases failed
      · intro m n more done
        rw [now] at done
        cases done
        obtain ⟨term, rest, split, lineEnd, closed, grows⟩ :=
          unpackArray_longer stable more inside result
        refine ⟨term, rest, split, lineEnd, closed, ?_⟩
        rw [same, grows]
        rfl

/-- A complete line is stable when the reader of its elements is. -/
theorem stableAt_unpackLine {elements : Bytes → Except RedisMsgStatus (RedisMsg × Nat)}
    (stable : ∀ buf, StableAt elements buf) (type : UInt8) (line rest : Bytes) :
    StableAt (fun ptr => unpackLine wrk elements ptr line) (type :: (line ++ lf :: rest)) := by
  have inside : line.length + 2 ≤ (type :: (line ++ lf :: rest)).length := by
    simp only [List.length_cons, List.length_append]
    omega
  have failing : ∀ {status : RedisMsgStatus},
      (∀ more, unpackLine wrk elements (type :: (line ++ lf :: rest) ++ more) line =
        .error status) →
      StableAt (unpackLine wrk elements · line) (type :: (line ++ lf :: rest)) := by
    intro status same
    exact stableAt_of_same same (by rintro m n ⟨⟩)
  have ending : ∀ {m : RedisMsg},
      (∀ more, unpackLine wrk elements (type :: (line ++ lf :: rest) ++ more) line =
        .ok (m, line.length + 2)) →
      StableAt (unpackLine wrk elements · line) (type :: (line ++ lf :: rest)) := by
    intro m same
    refine stableAt_of_same same ?_
    rintro m n ⟨⟩
    exact ⟨Nat.succ_pos _, inside⟩
  by_cases isString : ∃ string : StringType, type = string.char
  · obtain ⟨string, rfl⟩ := isString
    by_cases isBulk : string = .bulkString
    · subst isBulk
      cases number : strToInt32 (line.take (argLength line)) with
      | error status =>
          exact failing fun more => by
            rw [List.cons_append, unpackLine_bulkString, number]
      | ok len =>
          exact stableAt_bulkString len (Nat.succ_pos _) inside fun more => by
            rw [List.cons_append, unpackLine_bulkString, number]
    · exact ending fun more => by rw [List.cons_append, unpackLine_line _ _ _ _ isBulk]
  by_cases isArray : type = arrayChar
  · subst isArray
    cases number : strToInt32 (line.take (argLength line)) with
    | error status =>
        exact failing fun more => by
          rw [List.cons_append, unpackLine_array, number]
    | ok len =>
        by_cases positive : 0 < len
        · by_cases granted : wrk (sizeofRedisMsg * len.toNat)
          · exact stableAt_array stable len (Nat.succ_pos _) inside fun more => by
              simp only [List.cons_append, unpackLine_array, number, if_pos positive, granted,
                not_true_eq_false, if_false]
          · have refused : ∀ more, unpackLine wrk elements
                (arrayChar :: (line ++ lf :: rest) ++ more) line = .error .allocFail := by
              intro more
              simp only [List.cons_append, unpackLine_array, number, if_pos positive, granted]
              rfl
            exact failing refused
        · exact ending (m := .array len []) fun more => by
            simp only [List.cons_append, unpackLine_array, number, if_neg positive]
  by_cases isInteger : type = integerChar
  · subst isInteger
    cases number : stringToInt (line.take (argLength line)) with
    | error status =>
        exact failing fun more => by
          rw [List.cons_append, unpackLine_integer, number]
          rfl
    | ok ival =>
        exact ending fun more => by
          rw [List.cons_append, unpackLine_integer, number]
          rfl
  · rw [not_exists] at isString
    have inline := fun tail => unpackLine_inline wrk elements line tail isString isArray isInteger
    cases words : split wrk ((type :: line.take (argLength line)).take
        (toInt32 (argLength line + 1)).toNat) with
    | error status =>
        exact failing fun more => by
          rw [List.cons_append, inline, words]
          rfl
    | ok m =>
        exact ending fun more => by
          rw [List.cons_append, inline, words]
          rfl

/-- The spaces in front of a message only shift its end. -/
theorem stableAt_spaces {behind : Bytes → Except RedisMsgStatus (RedisMsg × Nat)}
    {spaces ptr : Bytes} (stable : StableAt behind ptr)
    (shifted : ∀ more, read (spaces ++ ptr ++ more) =
      (behind (ptr ++ more)).map fun (m, j) => (m, j + spaces.length)) :
    StableAt read (spaces ++ ptr) := by
  have now := shifted []
  simp only [List.append_nil] at now
  constructor
  · intro m n done
    rw [now] at done
    cases result : behind ptr with
    | error status =>
        rw [result] at done
        cases done
    | ok result' =>
        rw [result] at done
        cases done
        have bounds := stable.within (m := result'.1) (n := result'.2) result
        rw [List.length_append]
        omega
  · intro status more failed isError
    rw [now] at failed
    cases result : behind ptr with
    | error status' =>
        rw [result] at failed
        cases failed
        rw [shifted, stable.fails more result isError]
        rfl
    | ok result' =>
        rw [result] at failed
        cases failed
  · intro m n more done
    rw [now] at done
    cases result : behind ptr with
    | error status =>
        rw [result] at done
        cases done
    | ok result' =>
        rw [result] at done
        cases done
        obtain ⟨term, rest, split, lineEnd, closed, grows⟩ :=
          stable.longer (m := result'.1) (n := result'.2) more result
        refine ⟨term, rest, ?_, lineEnd, ?_, ?_⟩
        · rw [Nat.add_comm, ← List.drop_drop, List.drop_left, split]
        · intro short
          rw [List.length_append] at short
          exact closed (by omega)
        · rw [shifted, grows]
          simp only [Except.map, Except.ok.injEq, Prod.mk.injEq, true_and]
          omega

theorem stableAt_unpackFuel (fuel : Nat) (buf : Bytes) : StableAt (unpackFuel wrk fuel) buf := by
  induction fuel generalizing buf with
  | zero => exact stableAt_of_partial rfl
  | succ fuel ih =>
      cases firstLine buf with
      | complete spaces type line rest allSpaces start noNewline =>
          refine stableAt_spaces (stableAt_unpackLine wrk ih type line rest) fun more => ?_
          have whole := unpackFuel_complete wrk fuel allSpaces start noNewline (rest ++ more)
          simpa only [List.append_assoc, List.cons_append] using whole
      | blank _ allSpaces => exact stableAt_of_partial (unpackFuel_blank wrk _ allSpaces)
      | incomplete spaces type line allSpaces start noNewline =>
          exact stableAt_of_partial (unpackFuel_incomplete wrk _ allSpaces start noNewline)

/-- The fuel of the longer buffer also reads the shorter one. -/
theorem stableAt_unpack (buf : Bytes) : StableAt (unpack wrk) buf := by
  have sameFuel : ∀ more, unpack wrk buf = unpackFuel wrk ((buf ++ more).length + 1) buf := by
    intro more
    refine (unpackFuel_enough wrk ?_).symm
    rw [List.length_append]
    omega
  constructor
  · exact (stableAt_unpackFuel wrk (buf.length + 1) buf).within
  · intro status more failed isError
    rw [sameFuel more] at failed
    exact (stableAt_unpackFuel wrk _ buf).fails more failed isError
  · intro m n more done
    rw [sameFuel more] at done
    exact (stableAt_unpackFuel wrk _ buf).longer more done

end Line

section Stream

variable (wrk : ScratchMem)

theorem attempt_item {buf : Bytes} {m : RedisMsg} {n : Nat} :
    attempt wrk buf = .item m n ↔ unpack wrk buf = .ok (m, n) := by
  rw [attempt]
  split <;> rename_i result <;> simp [result]

theorem attempt_fail {buf : Bytes} {status : RedisMsgStatus} :
    attempt wrk buf = .fail status ↔
      unpack wrk buf = .error status ∧ status ≠ .partialValue := by
  rw [attempt]
  split
  · rename_i result
    simp [result]
  · rename_i result
    simp only [result, reduceCtorEq, Except.error.injEq, false_iff, not_and, not_not]
    exact Eq.symm
  · rename_i status' isError result
    simp only [result, Attempt.fail.injEq, Except.error.injEq]
    constructor
    · rintro rfl
      exact ⟨rfl, isError⟩
    · exact And.left

/-- A space in front of a buffer only shifts the end of the message. -/
theorem unpack_space {c : UInt8} (buf : Bytes) (isSpace : IsSpace c) :
    unpack wrk (c :: buf) = (unpack wrk buf).map fun (m, j) => (m, j + 1) := by
  cases firstLine buf with
  | complete spaces type line rest allSpaces start noNewline =>
      have more := unpack_complete wrk (List.forall_mem_cons.mpr ⟨isSpace, allSpaces⟩) start
        noNewline rest
      rw [List.cons_append] at more
      rw [more, unpack_complete wrk allSpaces start noNewline]
      cases unpackLine wrk (unpack wrk) (type :: (line ++ lf :: rest)) line <;> rfl
  | blank _ allSpaces =>
      rw [unpack_blank wrk allSpaces,
        unpack_blank wrk (List.forall_mem_cons.mpr ⟨isSpace, allSpaces⟩)]
      rfl
  | incomplete spaces type line allSpaces start noNewline =>
      have more := unpack_incomplete wrk (List.forall_mem_cons.mpr ⟨isSpace, allSpaces⟩) start
        noNewline
      rw [List.cons_append] at more
      rw [more, unpack_incomplete wrk allSpaces start noNewline]
      rfl

/-- A space in front of a buffer only shifts the attempt. -/
theorem attempt_space {c : UInt8} (buf : Bytes) (isSpace : IsSpace c) :
    attempt wrk (c :: buf) = (attempt wrk buf).shift 1 := by
  rw [attempt, attempt, unpack_space wrk buf isSpace]
  cases unpack wrk buf with
  | ok result => rfl
  | error status => cases status <;> rfl

/-- The parser of the stream decides only on evidence that more input keeps. -/
theorem incremental_attempt : Incremental (attempt wrk) IsSpace where
  nil := by rw [attempt, unpack_blank wrk (by simp)]
  length_pos item := ((stableAt_unpack wrk _).within ((attempt_item wrk).mp item)).1
  length_le item := ((stableAt_unpack wrk _).within ((attempt_item wrk).mp item)).2
  fail_append more failed := by
    obtain ⟨failed, isError⟩ := (attempt_fail wrk).mp failed
    exact (attempt_fail wrk).mpr ⟨(stableAt_unpack wrk _).fails more failed isError, isError⟩
  item_append more item := by
    obtain ⟨term, rest, split, lineEnd, _, longer⟩ :=
      (stableAt_unpack wrk _).longer more ((attempt_item wrk).mp item)
    exact ⟨term, rest, split, lineEnd.isSpace, (attempt_item wrk).mpr longer⟩
  blank buf isSpace := attempt_space wrk buf isSpace

/-- An answer on a prefix is the answer on the whole input, up to the line end, and the messages
up to the first protocol error do not depend on the chunks. -/
theorem receive_chunks :
    (∀ first second : Bytes,
      (∀ status, unpack wrk first = .error status → status ≠ .partialValue →
        unpack wrk (first ++ second) = .error status) ∧
      ∀ m n, unpack wrk first = .ok (m, n) →
        ∃ term rest, first.drop n ++ second = term ++ rest ∧ LineEnd term ∧
          unpack wrk (first ++ second) = .ok (m, n + term.length)) ∧
    ∀ chunks : List Bytes,
      upToError (receive wrk chunks) = upToError (receive wrk [chunks.flatten]) := by
  constructor
  · intro first second
    constructor
    · intro status failed isError
      exact (stableAt_unpack wrk first).fails second failed isError
    · intro m n done
      obtain ⟨term, rest, split, lineEnd, _, longer⟩ :=
        (stableAt_unpack wrk first).longer second done
      exact ⟨term, rest, split, lineEnd, longer⟩
  · intro chunks
    have waiting : attempt wrk [] = .more := (incremental_attempt wrk).nil
    rw [receive, receive, upToError_feed (incremental_attempt wrk) [] chunks waiting,
      upToError_feed (incremental_attempt wrk) [] [chunks.flatten] waiting]
    simp

/-- A bulk string is already a message without its line end, and a bad length is an error. -/
theorem receive_chunks_at_line_end :
    (∃ term rest, [36, 50, cr, lf, 104, 105].drop 6 ++ [cr, lf] = term ++ rest ∧ LineEnd term ∧
      unpack (fun _ => true) ([36, 50, cr, lf, 104, 105] ++ [cr, lf]) =
        .ok (.string .bulkString 2 [104, 105], 6 + term.length)) ∧
      unpack (fun _ => true) ([36, 120, lf] ++ [cr]) = .error .badInt := by
  have cut := (receive_chunks fun _ => true).1
  constructor
  · exact (cut [36, 50, cr, lf, 104, 105] [cr, lf]).2 _ 6 (by decide)
  · exact (cut [36, 120, lf] [cr]).1 .badInt (by decide) (by decide)

/-- The service ignores the bytes that it received together with a bad length, so a message
behind them is lost when no cut separates the two. -/
theorem receive_messages_after_error :
    ¬∀ (wrk : ScratchMem) (chunks : List Bytes),
      messages (receive wrk chunks) = messages (receive wrk [chunks.flatten]) := by
  intro same
  have cut : messages (receive (fun _ => true) [[36, 120, cr, lf], [43, 65, cr, lf]]) =
      [.string .simpleString 1 [65]] := by decide
  have whole : messages (receive (fun _ => true) [[36, 120, cr, lf, 43, 65, cr, lf]]) = [] := by
    decide
  have equal := same (fun _ => true) [[36, 120, cr, lf], [43, 65, cr, lf]]
  rw [cut] at equal
  exact List.cons_ne_nil _ _ (equal.trans whole)

end Stream

end Raids
