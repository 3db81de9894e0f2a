import Raids.Proof.Msg.CutShort
import Raids.Proof.Msg.Reach

namespace Raids

/-- The input of a caller that leaves out the last line end. -/
def terminated (buf : Bytes) : Bytes :=
  if buf.getLast? = some lf then buf else buf ++ crlf

/-- The bytes behind a first line with the last line end. -/
def terminatedRest (rest : Bytes) : Bytes := if rest = [] then [] else terminated rest

/-- A line without its end gives the same message only as a bad number, as words without
memory, or as words whose count of bytes wraps. -/
def OpenAlike (wrk : ScratchMem) (type : UInt8) (text : Bytes) : Prop :=
  if type = StringType.char .bulkString ∨ type = arrayChar ∨ type = integerChar then
    HasOther (unsignedBytes text)
  else if type = StringType.char .simpleString ∨ type = StringType.char .errorString then False
  else
    let bsz := text.length + 1
    let len := (toInt32 (bsz + 1)).toNat
    if len ≤ bsz then
      split wrk ((type :: text).take len) = split wrk ((type :: text).take (toInt32 bsz).toNat)
    else split wrk (type :: text) = .error .allocFail

/-- The body behind a return and a newline must not need the last line end; the body behind a
newline alone starts at that newline, so it must be cut for both parsers or hold only newlines. -/
def BodyAlike (line rest : Bytes) (len : Nat) : Prop :=
  if line.getLast? = some cr then
    terminatedRest rest = rest ∨ len ≤ rest.length ∨ rest.length + 2 < len
  else
    (rest.length + 1 < len ∧ (terminatedRest rest).length < len) ∨
      (len ≤ (terminatedRest rest).length ∧ ∀ c ∈ (terminatedRest rest).take len, c = lf)

/-- A complete line gives the same message but for the body of a string and for an array whose
last line the buffer cuts. -/
def LineAlike (wrk : ScratchMem) (type : UInt8) (line rest : Bytes) : Prop :=
  if type = StringType.char .bulkString then
    ∀ len, strToInt32 (line.take (argLength line)) = .ok len → 0 < len →
      BodyAlike line rest len.toNat
  else if type = arrayChar then
    terminatedRest rest = rest ∨
      ¬∃ fails, CutShort wrk fails 1 (type :: (line ++ lf :: rest))
  else True

/-- The inputs on which the second parser reads what the first one reads. -/
def ReadsAlike (wrk : ScratchMem) (buf : Bytes) : Prop :=
  match buf.dropWhile (IsSpace ·) with
  | [] => False
  | type :: tail =>
      match findNewline tail with
      | none => OpenAlike wrk type tail
      | some line => LineAlike wrk type line (tail.drop (line.length + 1))

theorem terminatedRest_eq (first rest : Bytes) :
    terminated (first ++ lf :: rest) = first ++ lf :: terminatedRest rest := by
  by_cases empty : rest = []
  · simp [terminated, terminatedRest, empty]
  · have last : (first ++ lf :: rest).getLast? = rest.getLast? := by
      cases rest with
      | nil => exact absurd rfl empty
      | cons c rest => simp [List.getLast?_append, List.getLast?_cons]
    simp only [terminated, terminatedRest, empty, if_false, last]
    split <;> simp

/-- The bytes of a cut line have no line end. -/
theorem terminated_open (spaces : Bytes) {text : Bytes} {type : UInt8} (start : ¬IsSpace type)
    (noNewline : lf ∉ text) :
    terminated (spaces ++ type :: text) = spaces ++ type :: text ++ crlf := by
  rw [terminated, if_neg]
  intro last
  rw [List.getLast?_append, List.getLast?_cons, Option.some_or, Option.some.injEq] at last
  cases lastOf : text.getLast? with
  | none =>
      rw [lastOf, Option.getD_none] at last
      exact start (last ▸ isSpace_lf)
  | some c =>
      rw [lastOf, Option.getD_some] at last
      exact noNewline (List.mem_of_getLast? (last ▸ lastOf))

section Closed

variable (wrk : ScratchMem) (beyond : UInt8)

/-- The spaces in front of a message do not change it. -/
theorem unpack_spaces {spaces : Bytes} (allSpaces : ∀ c ∈ spaces, IsSpace c) (buf : Bytes) :
    (unpack wrk (spaces ++ buf)).map Prod.fst = (unpack wrk buf).map Prod.fst := by
  induction spaces with
  | nil => rfl
  | cons c spaces ih =>
      rw [← ih (fun c member => allSpaces c (by simp [member])), List.cons_append,
        unpack_space wrk _ (allSpaces c (by simp))]
      cases unpack wrk (spaces ++ buf) <;> rfl

/-- The low bits of a length count no more bytes. -/
theorem toInt32_le (n : Nat) : (toInt32 n).toNat ≤ n := by
  rw [toInt32, Int.bmod_def]
  split <;> omega

theorem argLength_le (line : Bytes) : argLength line ≤ line.length := by
  rw [argLength]
  split <;> omega

/-- Both parsers count the same chars of a complete line. -/
theorem lineEnd2_closed {line : Bytes} (noNewline : lf ∉ line) (type : UInt8) (rest : Bytes) :
    lineEnd2 (type :: (line ++ lf :: rest)) =
      (argLength line, if line.getLast? = some cr then line.length + 2 else line.length + 1) := by
  simp only [lineEnd2, List.tail_cons, findNewline_append noNewline, argLength]
  split <;> rfl

/-- The number of a complete line is known. -/
theorem arg_closed (line rest : Bytes) :
    ((line ++ lf :: rest).map some ++ [none]).take (argLength line) =
      (line.take (argLength line)).map some := by
  have fits := argLength_le line
  rw [List.map_append, List.append_assoc, List.take_append_of_le_length (by simpa using fits),
    List.map_take]

theorem lineEnd2_open {text : Bytes} (noNewline : lf ∉ text) (type : UInt8) :
    lineEnd2 (type :: text) = (text.length + 1, text.length + 1) := by
  simp only [lineEnd2, List.tail_cons, findNewline_eq_none.mpr noNewline, List.length_cons]

/-- The number of a cut line ends with the byte behind the buffer. -/
theorem arg_open (text : Bytes) :
    (text.map some ++ [none]).take (text.length + 1) = text.map some ++ [none] := by
  rw [List.take_of_length_le]
  simp

/-- A complete line of a number or of text is read as the first parser reads it. -/
theorem unpack2Line_same {line : Bytes} (noNewline : lf ∉ line) {type : UInt8}
    (noString : type ≠ StringType.char .bulkString) (noArray : type ≠ arrayChar)
    (read : Bytes → Except RedisMsgStatus (RedisMsg × Nat)) (rest : Bytes) :
    unpack2Line wrk beyond type (type :: (line ++ lf :: rest)) =
      some ((unpackLine wrk read (type :: (line ++ lf :: terminatedRest rest)) line).map
        Prod.fst) := by
  have fits := argLength_le line
  have front : (line ++ lf :: rest ++ [beyond]).take (argLength line) =
      line.take (argLength line) := by
    rw [List.append_assoc, List.take_append_of_le_length fits]
  have text : (line ++ lf :: rest ++ [beyond]).take (toInt32 (argLength line)).toNat =
      (line.take (argLength line)).take (toInt32 (argLength line)).toNat := by
    rw [← front, List.take_take, Nat.min_eq_left (toInt32_le _)]
  by_cases isInteger : type = integerChar
  · subst isInteger
    simp only [unpack2Line, lineEnd2_closed noNewline, List.tail_cons, arg_closed,
      stringToIntAt_known, noString, noArray, if_false, if_true, Option.map_some]
    rw [unpackLine_integer]
    cases stringToInt (line.take (argLength line)) <;> rfl
  by_cases isSimple : type = StringType.char .simpleString
  · subst isSimple
    simp only [unpack2Line, lineEnd2_closed noNewline, List.tail_cons, noString, noArray,
      isInteger, if_false, if_true, text]
    rw [unpackLine_line wrk read _ _ (by decide)]
    rfl
  by_cases isError : type = StringType.char .errorString
  · subst isError
    simp only [unpack2Line, lineEnd2_closed noNewline, List.tail_cons, noString, noArray,
      isInteger, isSimple, if_false, if_true, text]
    rw [unpackLine_line wrk read _ _ (by decide)]
    rfl
  · simp only [unpack2Line, lineEnd2_closed noNewline, noString, noArray,
      isInteger, isSimple, isError, if_false]
    rw [unpackLine_inline wrk read _ _ (by
      intro string
      cases string <;> assumption) noArray isInteger]
    have small : (toInt32 (argLength line + 1 : Nat)).toNat ≤ argLength line + 1 := toInt32_le _
    have words : (type :: (line ++ lf :: rest)).take (toInt32 (argLength line + 1 : Nat)).toNat =
        (type :: line.take (argLength line)).take (toInt32 (argLength line + 1 : Nat)).toNat := by
      have start : type :: line.take (argLength line) =
          (type :: (line ++ lf :: rest)).take (argLength line + 1) := by
        rw [List.take_succ_cons, List.take_append_of_le_length fits]
      rw [start, List.take_take, Nat.min_eq_left small]
    rw [Nat.cast_add, Nat.cast_one] at small words
    rw [splitAt, if_pos (by simp; omega), words]
    cases split wrk ((type :: line.take (argLength line)).take
      (toInt32 (argLength line + 1)).toNat) <;> rfl

/-- The bytes from a newline on are the bytes behind it only where all of them are newlines. -/
theorem take_newline {len : Nat} {rest : Bytes} (enough : len ≤ rest.length) :
    (lf :: rest).take len = rest.take len ↔ ∀ c ∈ rest.take len, c = lf := by
  induction len generalizing rest with
  | zero => simp
  | succ len ih =>
      cases rest with
      | nil => simp at enough
      | cons c rest =>
          rw [List.length_cons] at enough
          rw [List.take_succ_cons, List.take_succ_cons, List.cons.injEq, List.forall_mem_cons]
          constructor
          · rintro ⟨rfl, same⟩
            exact ⟨rfl, (ih (by omega)).mp same⟩
          · rintro ⟨rfl, all⟩
            exact ⟨rfl, (ih (by omega)).mpr all⟩

/-- The last line end is missing or not. -/
theorem terminatedRest_cases (rest : Bytes) :
    terminatedRest rest = rest ∨
      (terminatedRest rest = rest ++ crlf ∧ terminatedRest rest ≠ rest) := by
  rw [terminatedRest, terminated]
  split
  · rename_i empty
    exact .inl empty.symm
  · split
    · exact .inl rfl
    · exact .inr ⟨rfl, by simp [crlf]⟩

/-- The value of a string with a length, or the wait for it. -/
def bodyAt (len : Nat) (behind : Bytes) : Option Bytes :=
  if behind.length < len then none else some (behind.take len)

/-- The two parsers read the same body under this condition. -/
theorem bodyAt_same {len : Nat} (positive : 0 < len) (line rest : Bytes) :
    bodyAt len (if line.getLast? = some cr then rest else lf :: rest) =
      bodyAt len (terminatedRest rest) ↔ BodyAlike line rest len := by
  have isReturn : cr ≠ lf := by decide
  by_cases ending : line.getLast? = some cr
  · simp only [BodyAlike, ending, if_true, bodyAt]
    rcases terminatedRest_cases rest with same | ⟨more, other⟩
    · simp [same]
    · have size : (terminatedRest rest).length = rest.length + 2 := by simp [more, crlf]
      simp only [size, other, false_or]
      by_cases inside : len ≤ rest.length
      · rw [if_neg (by omega), if_neg (by omega), more, List.take_append_of_le_length inside]
        simp [inside]
      · rw [if_pos (by omega)]
        by_cases cut : rest.length + 2 < len
        · simp [cut]
        · simp [inside, cut]
  · simp only [BodyAlike, ending, if_false, bodyAt, List.length_cons]
    have front : len ≤ rest.length + 1 →
        (lf :: rest).take len = (lf :: terminatedRest rest).take len := by
      intro inside
      rcases terminatedRest_cases rest with same | ⟨more, -⟩
      · rw [same]
      · rw [more, ← List.cons_append, List.take_append_of_le_length (by simpa using inside)]
    by_cases cut : rest.length + 1 < len
    · rw [if_pos cut]
      by_cases also : (terminatedRest rest).length < len
      · simp [cut, also]
      · -- The return of the last line end is in the body.
        have hasReturn : ¬∀ c ∈ (terminatedRest rest).take len, c = lf := by
          intro all
          rcases terminatedRest_cases rest with same | ⟨more, -⟩
          · rw [same] at also
            omega
          · refine isReturn (all cr ?_)
            rw [more, List.take_of_length_le]
            · simp [crlf]
            · simp [crlf]
              omega
        simp [also, hasReturn]
    · rw [if_neg cut]
      by_cases short : (terminatedRest rest).length < len
      · simp [cut, short]
      · rw [if_neg short, Option.some.injEq, front (by omega), take_newline (by omega)]
        simp [cut, not_lt.mp short]

/-- A string with a length agrees where its body does. -/
theorem unpack2Line_bulkString {line : Bytes} (noNewline : lf ∉ line)
    (read : Bytes → Except RedisMsgStatus (RedisMsg × Nat)) (rest : Bytes) :
    unpack2Line wrk beyond (StringType.char .bulkString)
        (StringType.char .bulkString :: (line ++ lf :: rest)) =
      some ((unpackLine wrk read
        (StringType.char .bulkString :: (line ++ lf :: terminatedRest rest)) line).map
        Prod.fst) ↔
    ∀ len, strToInt32 (line.take (argLength line)) = .ok len → 0 < len →
      BodyAlike line rest len.toNat := by
  simp only [unpack2Line, lineEnd2_closed noNewline, List.tail_cons, arg_closed,
    stringToIntAt_known, if_true]
  rw [unpackLine_bulkString, strToInt32]
  cases stringToInt (line.take (argLength line)) with
  | error status => simp [Except.map]
  | ok ival =>
      simp only [Except.map, Except.ok.injEq, forall_eq']
      by_cases positive : 0 < toInt32 ival
      · simp only [positive, if_true, true_implies]
        generalize toInt32 ival = len at positive ⊢
        rw [← bodyAt_same (by omega), bodyAt, bodyAt]
        have start : (StringType.char .bulkString :: (line ++ lf :: rest)).drop
            (if line.getLast? = some cr then line.length + 2 else line.length + 1) =
            if line.getLast? = some cr then rest else lf :: rest := by
          split <;> simp
        have size : (StringType.char .bulkString :: (line ++ lf :: rest)).length =
            (if line.getLast? = some cr then line.length + 2 else line.length + 1) +
              (if line.getLast? = some cr then rest else lf :: rest).length := by
          split <;> simp <;> omega
        have start' : (StringType.char .bulkString :: (line ++ lf :: terminatedRest rest)).drop
            (line.length + 2) = terminatedRest rest := by simp
        have size' : (StringType.char .bulkString :: (line ++ lf :: terminatedRest rest)).length =
            line.length + 2 + (terminatedRest rest).length := by simp; omega
        rw [start, size, start', size']
        simp only [Nat.add_lt_add_iff_left]
        generalize (if line.getLast? = some cr then rest else lf :: rest) = behind
        generalize terminatedRest rest = behind'
        by_cases cut : behind.length < len.toNat
        · by_cases cut' : behind'.length < len.toNat <;> simp only [cut, cut', if_true, if_false] <;>
            simp
        · by_cases cut' : behind'.length < len.toNat <;> simp only [cut, cut', if_true, if_false] <;>
            simp
      · simp [positive]

/-- An element may start at the newline of the line in front of it. -/
theorem unpackArray_newline {ptr rest : Bytes} {j : Nat} (newline : ptr.drop j = lf :: rest)
    (n : Nat) : unpackArray (unpack wrk) ptr (n + 1) j =
      unpackArray (unpack wrk) ptr (n + 1) (j + 1) := by
  have behind : ptr.drop (j + 1) = rest := by rw [← List.drop_drop, newline]; rfl
  rw [unpackArray_eq, unpackArray_eq, newline, behind]
  cases read : unpack wrk rest with
  | error status =>
      have shifted : unpack wrk (lf :: rest) = .error status := by
        rw [unpack_space wrk rest isSpace_lf, read]
        rfl
      rw [unpackAll_error wrk read, unpackAll_error wrk shifted]
      rfl
  | ok answer =>
      obtain ⟨m, e⟩ := answer
      have shifted : unpack wrk (lf :: rest) = .ok (m, e + 1) := by
        rw [unpack_space wrk rest isSpace_lf, read]
        rfl
      rw [unpackAll_ok wrk read, unpackAll_ok wrk shifted, List.drop_succ_cons]
      cases unpackAll wrk n (rest.drop e) with
      | error status => rfl
      | ok tail =>
          simp only [Except.map, Except.ok.injEq, Prod.mk.injEq, true_and]
          omega

/-- The second parser reads the elements of an array with the first one. -/
theorem unpack2Line_array {line : Bytes} (noNewline : lf ∉ line) (rest : Bytes) :
    unpack2Line wrk beyond arrayChar (arrayChar :: (line ++ lf :: rest)) =
      some ((unpack wrk (arrayChar :: (line ++ lf :: rest))).map Prod.fst) := by
  rw [unpack_start wrk (by decide) noNewline, unpackLine_array]
  simp only [unpack2Line, lineEnd2_closed noNewline, List.tail_cons, arg_closed,
    stringToIntAt_known, if_true, show arrayChar ≠ StringType.char .bulkString by decide, if_false,
    strToInt32]
  cases stringToInt (line.take (argLength line)) with
  | error status => rfl
  | ok ival =>
      simp only [Except.map]
      by_cases positive : 0 < toInt32 ival
      · by_cases granted : wrk (sizeofRedisMsg * (toInt32 ival).toNat)
        · have start : unpackArray (unpack wrk) (arrayChar :: (line ++ lf :: rest))
              (toInt32 ival).toNat
              (if line.getLast? = some cr then line.length + 2 else line.length + 1) =
              unpackArray (unpack wrk) (arrayChar :: (line ++ lf :: rest)) (toInt32 ival).toNat
              (line.length + 2) := by
            split
            · rfl
            · obtain ⟨n, size⟩ : ∃ n, (toInt32 ival).toNat = n + 1 :=
                ⟨(toInt32 ival).toNat - 1, by omega⟩
              rw [size]
              have newline : (arrayChar :: (line ++ lf :: rest)).drop (line.length + 1) =
                  lf :: rest := by simp
              exact unpackArray_newline wrk newline n
          simp only [positive, granted, start, if_true, if_false, not_true]
          cases unpackArray (unpack wrk) (arrayChar :: (line ++ lf :: rest)) (toInt32 ival).toNat
            (line.length + 2) <;> rfl
        · simp [positive, granted]
      · simp [positive]

/-- A complete line agrees under its condition. -/
theorem unpack2Line_closed {line : Bytes} (noNewline : lf ∉ line) {type : UInt8}
    (start : ¬IsSpace type) (rest : Bytes) :
    unpack2Line wrk beyond type (type :: (line ++ lf :: rest)) =
      some ((unpack wrk (terminated (type :: (line ++ lf :: rest)))).map Prod.fst) ↔
    LineAlike wrk type line rest := by
  have terminatedLine : terminated (type :: (line ++ lf :: rest)) =
      type :: (line ++ lf :: terminatedRest rest) := terminatedRest_eq (type :: line) rest
  have reads := unpack_start wrk start noNewline (terminatedRest rest)
  rw [LineAlike]
  by_cases isString : type = StringType.char .bulkString
  · subst isString
    rw [if_pos rfl, terminatedLine, reads]
    exact unpack2Line_bulkString wrk beyond noNewline _ rest
  by_cases isArray : type = arrayChar
  · subst isArray
    rw [if_neg isString, if_pos rfl, unpack2Line_array wrk beyond noNewline, Option.some.injEq,
      terminatedLine]
    rcases terminatedRest_cases rest with same | ⟨more, other⟩
    · simp [same]
    · have appended : arrayChar :: (line ++ lf :: terminatedRest rest) =
          arrayChar :: (line ++ lf :: rest) ++ crlf := by simp [more]
      rw [appended, unpack_crlf]
      simp [other]
  · rw [if_neg isString, if_neg isArray, terminatedLine, reads, iff_true]
    exact unpack2Line_same wrk beyond noNewline isString isArray _ rest

/-- The split fails only for want of memory. -/
theorem split_error {strval : Bytes} {status : RedisMsgStatus}
    (failed : split wrk strval = .error status) : status = .allocFail := by
  have words : ∀ {fuel cnt ptr status}, splitWords wrk fuel cnt ptr = .error status →
      status = .allocFail := by
    intro fuel
    induction fuel with
    | zero =>
        intro cnt ptr status failed
        simp [splitWords] at failed
    | succ fuel ih =>
        intro cnt ptr status failed
        cases ptr with
        | nil => simp [splitWords] at failed
        | cons first rest =>
            simp only [splitWords] at failed
            split at failed
            · cases failed
            · split at failed
              · exact (Except.error.inj failed).symm
              · exact ih (map_eq_error failed)
  simp only [split] at failed
  split at failed
  · exact (Except.error.inj failed).symm
  · exact words (map_eq_error failed)

/-- A cut line agrees under its condition. -/
theorem unpack2Line_open {text : Bytes} (noNewline : lf ∉ text) {type : UInt8}
    (start : ¬IsSpace type) :
    unpack2Line wrk beyond type (type :: text) =
      some ((unpack wrk (terminated (type :: text))).map Prod.fst) ↔
    OpenAlike wrk type text := by
  have closedText : lf ∉ text ++ [cr] := by
    simp only [List.mem_append, List.mem_singleton, noNewline, false_or]
    decide
  have argument : (text ++ [cr]).take (argLength (text ++ [cr])) = text := by
    simp [argLength]
  have length : argLength (text ++ [cr]) = text.length := by simp [argLength]
  have terminatedLine : terminated (type :: text) = type :: (text ++ [cr] ++ lf :: []) := by
    have whole := terminated_open [] start noNewline
    simpa [crlf] using whole
  rw [terminatedLine, unpack_start wrk start closedText, OpenAlike]
  by_cases isString : type = StringType.char .bulkString
  · subst isString
    simp only [unpack2Line, lineEnd2_open noNewline, List.tail_cons, arg_open,
      stringToIntAt_unknown, if_true, true_or]
    by_cases other : HasOther (unsignedBytes text)
    · rw [unpackLine_bulkString, argument, strToInt32, stringToInt_other other]
      simp [other, Except.map]
    · simp [other]
  by_cases isArray : type = arrayChar
  · subst isArray
    simp only [unpack2Line, lineEnd2_open noNewline, List.tail_cons, arg_open,
      stringToIntAt_unknown, isString, if_true, if_false, true_or, or_true]
    by_cases other : HasOther (unsignedBytes text)
    · rw [unpackLine_array, argument, strToInt32, stringToInt_other other]
      simp [other, Except.map]
    · simp [other]
  by_cases isInteger : type = integerChar
  · subst isInteger
    simp only [unpack2Line, lineEnd2_open noNewline, List.tail_cons, arg_open,
      stringToIntAt_unknown, isString, isArray, if_true, if_false, or_true]
    by_cases other : HasOther (unsignedBytes text)
    · rw [unpackLine_integer, argument, stringToInt_other other]
      simp [other, Except.map]
    · simp [other]
  have different : toInt32 ((text.length : Int) + 1) ≠ toInt32 text.length := by
    intro same
    rw [toInt32, toInt32, Int.bmod_def, Int.bmod_def] at same
    split at same <;> split at same <;> omega
  by_cases isSimple : type = StringType.char .simpleString
  · subst isSimple
    simp only [unpack2Line, lineEnd2_open noNewline, isString, isArray, isInteger, if_true,
      if_false, or_self, true_or]
    rw [unpackLine_line wrk (unpack wrk) _ _ (by decide), length]
    simp [Except.map, different]
  by_cases isError : type = StringType.char .errorString
  · subst isError
    simp only [unpack2Line, lineEnd2_open noNewline, isString, isArray, isInteger, isSimple,
      if_true, if_false, or_self, or_true]
    rw [unpackLine_line wrk (unpack wrk) _ _ (by decide), length]
    simp [Except.map, different]
  · have noString : ∀ string : StringType, type ≠ string.char := by
      intro string
      cases string with
      | bulkString => exact isString
      | simpleString => exact isSimple
      | errorString => exact isError
    rw [unpackLine_inline wrk (unpack wrk) _ _ noString isArray isInteger, argument, length]
    simp only [unpack2Line, lineEnd2_open noNewline, isString, isArray, isInteger, isSimple,
      isError, if_false, or_self, splitAt, List.length_cons, Nat.cast_add, Nat.cast_one]
    by_cases wraps : (toInt32 ((text.length : Int) + 1 + 1)).toNat ≤ text.length + 1
    · simp only [wraps, if_true, Option.some.injEq]
      cases split wrk ((type :: text).take (toInt32 ((text.length : Int) + 1)).toNat) with
      | error status => simp [Except.map]
      | ok m => simp [Except.map]
    · -- The count of bytes does not wrap, so the first parser splits the whole line.
      have bound := toInt32_le (text.length + 1 + 1)
      simp only [Nat.cast_add, Nat.cast_one] at bound
      have exact : toInt32 ((text.length : Int) + 1) = text.length + 1 := by
        rw [toInt32, Int.bmod_def] at wraps bound ⊢
        split at wraps <;> split <;> omega
      have all : (type :: text).take (toInt32 ((text.length : Int) + 1)).toNat = type :: text := by
        rw [exact, List.take_of_length_le]
        rw [List.length_cons]
        omega
      simp only [wraps, if_false, all]
      cases words : split wrk (type :: text) with
      | error status =>
          have isAlloc : status = .allocFail := split_error wrk words
          simp [Except.map, isAlloc]
      | ok m => simp

end Closed

/-- The second parser reads what the first parser reads on these inputs only. -/
theorem unpack2_exact (wrk : ScratchMem) (beyond : UInt8) (buf : Bytes) :
    unpack2 wrk beyond buf = some ((unpack wrk (terminated buf)).map Prod.fst) ↔
      ReadsAlike wrk buf := by
  cases firstLine buf with
  | blank _ allSpaces =>
      have none : buf.dropWhile (IsSpace ·) = [] := by
        rw [List.dropWhile_eq_nil_iff]
        simpa using allSpaces
      simp [unpack2, ReadsAlike, none]
  | complete spaces type line rest allSpaces start noNewline =>
      have behind : (spaces ++ type :: (line ++ lf :: rest)).dropWhile (IsSpace ·) =
          type :: (line ++ lf :: rest) := by
        rw [List.dropWhile_append_of_pos (by simpa using allSpaces)]
        simp [start]
      have terminatedLine : terminated (spaces ++ type :: (line ++ lf :: rest)) =
          spaces ++ terminated (type :: (line ++ lf :: rest)) := by
        have inFront := terminatedRest_eq (type :: line) rest
        have whole := terminatedRest_eq (spaces ++ type :: line) rest
        rw [List.cons_append] at inFront
        rw [inFront]
        simpa using whole
      rw [unpack2, behind, terminatedLine, unpack_spaces wrk allSpaces]
      dsimp only
      rw [unpack2Line_closed wrk beyond noNewline start, ReadsAlike, behind]
      simp [findNewline_append noNewline]
  | incomplete spaces type line allSpaces start noNewline =>
      have behind : (spaces ++ type :: line).dropWhile (IsSpace ·) = type :: line := by
        rw [List.dropWhile_append_of_pos (by simpa using allSpaces)]
        simp [start]
      have terminatedLine : terminated (spaces ++ type :: line) =
          spaces ++ terminated (type :: line) := by
        rw [terminated_open spaces start noNewline]
        have inFront := terminated_open [] start noNewline
        rw [List.nil_append] at inFront
        rw [inFront, List.append_assoc]
      rw [unpack2, behind, terminatedLine, unpack_spaces wrk allSpaces]
      dsimp only
      rw [unpack2Line_open wrk beyond noNewline start, ReadsAlike, behind]
      simp [findNewline_eq_none.mpr noNewline]

/-- A body behind a newline alone starts one byte early. -/
theorem not_unpack2_exact :
    ¬∀ (wrk : ScratchMem) (beyond : UInt8) (buf : Bytes),
      unpack2 wrk beyond buf = some ((unpack wrk (terminated buf)).map Prod.fst) := by
  intro all
  have same := all (fun _ => true) 0 [36, 49, lf, 65, lf]
  have first : unpack (fun _ => true) (terminated [36, 49, lf, 65, lf]) =
      .ok (.string .bulkString 1 [65], 5) := by
    have whole := @unpack_start (fun _ => true) [49] 36 (by decide) (by decide) [65, lf]
    rw [List.singleton_append] at whole
    rw [show terminated [36, 49, lf, 65, lf] = [36, 49, lf, 65, lf] by rfl, whole]
    rfl
  have second : unpack2 (fun _ => true) 0 [36, 49, lf, 65, lf] =
      some (.ok (.string .bulkString 1 [lf])) := by
    have number : stringToIntAt [some 49] = some (.ok 1) := by rfl
    have length : toInt32 1 = 1 := by rfl
    rw [unpack2, show [36, 49, lf, 65, lf].dropWhile (IsSpace ·) = [36, 49, lf, 65, lf] by rfl]
    simp only [unpack2Line]
    rw [show lineEnd2 [36, 49, lf, 65, lf] = (1, 2) by rfl]
    simp [StringType.char, number, length]
  rw [first, second] at same
  simp [Except.map, lf] at same

end Raids
