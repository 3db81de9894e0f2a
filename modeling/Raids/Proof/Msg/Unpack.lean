import Mathlib.Data.List.TakeWhile
import Raids.Construction.Msg.Unpack

namespace Raids

theorem map_eq_ok {α γ ε : Type} {f : α → γ} {x : Except ε α} {y : γ} (same : x.map f = .ok y) :
    ∃ a, x = .ok a ∧ f a = y := by
  cases x with
  | error e => cases same
  | ok a => exact ⟨a, rfl, Except.ok.inj same⟩

theorem map_eq_error {α γ ε : Type} {f : α → γ} {x : Except ε α} {e : ε}
    (same : x.map f = .error e) : x = .error e := by
  cases x with
  | error e => rw [Except.error.inj same]
  | ok a => cases same

theorem findNewline_append {line : Bytes} (noNewline : lf ∉ line) (rest : Bytes) :
    findNewline (line ++ lf :: rest) = some line := by
  induction line with
  | nil => simp [findNewline]
  | cons c line ih =>
      have parts := List.ne_and_not_mem_of_not_mem_cons noNewline
      simp [findNewline, Ne.symm parts.1, ih parts.2]

/-- The search finds the line in front of the first newline. -/
theorem findNewline_eq_some {s line : Bytes} :
    findNewline s = some line ↔ lf ∉ line ∧ ∃ rest, s = line ++ lf :: rest := by
  constructor
  · intro found
    induction s generalizing line with
    | nil => cases found
    | cons c s ih =>
        by_cases newline : c = lf
        · simp only [findNewline, newline, if_true, Option.some.injEq] at found
          subst found
          exact ⟨List.not_mem_nil, s, by rw [newline]; rfl⟩
        · simp only [findNewline, newline, if_false, Option.map_eq_some_iff] at found
          obtain ⟨tail, foundTail, rfl⟩ := found
          obtain ⟨noNewline, rest, rfl⟩ := ih foundTail
          exact ⟨List.not_mem_cons_of_ne_of_not_mem (Ne.symm newline) noNewline, rest, rfl⟩
  · rintro ⟨noNewline, rest, rfl⟩
    exact findNewline_append noNewline rest

theorem findNewline_eq_none {s : Bytes} : findNewline s = none ↔ lf ∉ s := by
  induction s with
  | nil => simp [findNewline]
  | cons c s ih =>
      by_cases newline : c = lf
      · simp [findNewline, newline]
      · simp [findNewline, newline, ih, Ne.symm newline]

/-- A buffer is a complete first line behind spaces, or it holds no complete line. -/
inductive FirstLine : Bytes → Prop where
  | complete (spaces : Bytes) (type : UInt8) (line rest : Bytes)
      (allSpaces : ∀ c ∈ spaces, IsSpace c) (start : ¬IsSpace type) (noNewline : lf ∉ line) :
      FirstLine (spaces ++ type :: (line ++ lf :: rest))
  | blank (spaces : Bytes) (allSpaces : ∀ c ∈ spaces, IsSpace c) : FirstLine spaces
  | incomplete (spaces : Bytes) (type : UInt8) (line : Bytes)
      (allSpaces : ∀ c ∈ spaces, IsSpace c) (start : ¬IsSpace type) (noNewline : lf ∉ line) :
      FirstLine (spaces ++ type :: line)

theorem firstLine (buf : Bytes) : FirstLine buf := by
  have split := (List.takeWhile_append_dropWhile (p := (IsSpace ·)) (l := buf)).symm
  have allSpaces : ∀ c ∈ buf.takeWhile (IsSpace ·), IsSpace c := fun c member => by
    simpa using List.mem_takeWhile_imp member
  generalize buf.takeWhile (IsSpace ·) = spaces at split allSpaces
  cases tail : buf.dropWhile (IsSpace ·) with
  | nil =>
      rw [tail, List.append_nil] at split
      rw [split]
      exact .blank spaces allSpaces
  | cons type rest =>
      have start : ¬IsSpace type := by
        have head := List.head_dropWhile_not (p := (IsSpace ·)) (l := buf) (by simp [tail])
        simpa [tail] using head
      rw [tail] at split
      rw [split]
      cases found : findNewline rest with
      | none => exact .incomplete spaces type rest allSpaces start (findNewline_eq_none.mp found)
      | some line =>
          obtain ⟨noNewline, rest, rfl⟩ := findNewline_eq_some.mp found
          exact .complete spaces type line rest allSpaces start noNewline

section Line

variable (wrk : ScratchMem) (read : Bytes → Except RedisMsgStatus (RedisMsg × Nat))
  (line tail : Bytes)

/-- The line of a bulk string holds its length. -/
theorem unpackLine_bulkString :
    unpackLine wrk read (StringType.char .bulkString :: tail) line =
      match strToInt32 (line.take (argLength line)) with
      | .error status => .error status
      | .ok len =>
          let ptr := StringType.char .bulkString :: tail
          let j := line.length + 2
          if 0 < len then
            if ptr.length < j + len.toNat then .error .partialValue
            else .ok (.string .bulkString len ((ptr.drop j).take len.toNat),
              skipCrlf ptr (j + len.toNat))
          else .ok (.string .bulkString len [], if 0 ≤ len then skipCrlf ptr j else j) := rfl

/-- The line of an array holds the number of its elements. -/
theorem unpackLine_array :
    unpackLine wrk read (arrayChar :: tail) line =
      match strToInt32 (line.take (argLength line)) with
      | .error status => .error status
      | .ok len =>
          let j := line.length + 2
          if 0 < len then
            if ¬wrk (sizeofRedisMsg * len.toNat) then .error .allocFail
            else (unpackArray read (arrayChar :: tail) len.toNat j).map
              fun (elems, j) => (.array len elems, j)
          else .ok (.array len [], j) := rfl

theorem unpackLine_integer :
    unpackLine wrk read (integerChar :: tail) line =
      (stringToInt (line.take (argLength line))).map
        fun ival => (.integer ival, line.length + 2) := rfl

/-- The line of a simple string or an error is the string. -/
theorem unpackLine_line {type : StringType} (isLine : type ≠ .bulkString) :
    unpackLine wrk read (type.char :: tail) line =
      .ok (.string type (toInt32 (argLength line))
        ((line.take (argLength line)).take (toInt32 (argLength line)).toNat),
        line.length + 2) := by
  cases type with
  | bulkString => exact absurd rfl isLine
  | simpleString => rfl
  | errorString => rfl

/-- Every other first byte starts an inline command. -/
theorem unpackLine_inline {type : UInt8} (noString : ∀ string : StringType, type ≠ string.char)
    (noArray : type ≠ arrayChar) (noInteger : type ≠ integerChar) :
    unpackLine wrk read (type :: tail) line =
      (split wrk ((type :: line.take (argLength line)).take
        (toInt32 (argLength line + 1)).toNat)).map fun m => (m, line.length + 2) := by
  simp only [unpackLine, List.headD_cons, noString, noArray, noInteger, if_false]

end Line

section Fuel

variable (wrk : ScratchMem)

/-- The skip stops at the first byte above the space. -/
theorem length_takeWhile_spaces {spaces : Bytes} (allSpaces : ∀ c ∈ spaces, IsSpace c)
    {type : UInt8} (start : ¬IsSpace type) (rest : Bytes) :
    ((spaces ++ type :: rest).takeWhile (IsSpace ·)).length = spaces.length := by
  rw [List.takeWhile_append_of_pos (by simpa using allSpaces)]
  simp [start]

/-- A complete line is read at its start, and the spaces only shift the end. -/
theorem unpackFuel_complete (fuel : Nat) {spaces line : Bytes} {type : UInt8}
    (allSpaces : ∀ c ∈ spaces, IsSpace c) (start : ¬IsSpace type) (noNewline : lf ∉ line)
    (rest : Bytes) :
    unpackFuel wrk (fuel + 1) (spaces ++ type :: (line ++ lf :: rest)) =
      (unpackLine wrk (unpackFuel wrk fuel) (type :: (line ++ lf :: rest)) line).map
        fun (m, j) => (m, j + spaces.length) := by
  simp only [unpackFuel, length_takeWhile_spaces allSpaces start, List.drop_left, List.tail_cons,
    findNewline_append noNewline]

/-- Spaces alone are a partial value. -/
theorem unpackFuel_blank (fuel : Nat) {spaces : Bytes} (allSpaces : ∀ c ∈ spaces, IsSpace c) :
    unpackFuel wrk fuel spaces = .error .partialValue := by
  cases fuel with
  | zero => rfl
  | succ fuel =>
      have all : spaces.takeWhile (IsSpace ·) = spaces := by
        simpa [List.takeWhile_eq_self_iff] using allSpaces
      simp [unpackFuel, all, findNewline]

/-- A line without its end is a partial value. -/
theorem unpackFuel_incomplete (fuel : Nat) {spaces line : Bytes} {type : UInt8}
    (allSpaces : ∀ c ∈ spaces, IsSpace c) (start : ¬IsSpace type) (noNewline : lf ∉ line) :
    unpackFuel wrk fuel (spaces ++ type :: line) = .error .partialValue := by
  cases fuel with
  | zero => rfl
  | succ fuel =>
      simp only [unpackFuel, length_takeWhile_spaces allSpaces start, List.drop_left,
        List.tail_cons, findNewline_eq_none.mpr noNewline]

/-- The elements are read behind the first byte of the array. -/
theorem unpackArray_congr {first second : Bytes → Except RedisMsgStatus (RedisMsg × Nat)}
    {ptr : Bytes} (same : ∀ j, 0 < j → first (ptr.drop j) = second (ptr.drop j)) (k : Nat) {j : Nat}
    (positive : 0 < j) : unpackArray first ptr k j = unpackArray second ptr k j := by
  induction k generalizing j with
  | zero => rfl
  | succ k ih =>
      simp only [unpackArray, same j positive]
      split
      · rfl
      · cases second (ptr.drop j) with
        | error status => rfl
        | ok result => simp only [ih (j := j + result.2) (by omega)]

theorem unpackLine_congr {first second : Bytes → Except RedisMsgStatus (RedisMsg × Nat)}
    {ptr : Bytes} (same : ∀ j, 0 < j → first (ptr.drop j) = second (ptr.drop j)) (line : Bytes) :
    unpackLine wrk first ptr line = unpackLine wrk second ptr line := by
  simp only [unpackLine, unpackArray_congr same _ (Nat.succ_pos _)]

/-- The buffer length is enough fuel, so the fuel never decides a result. -/
theorem unpackFuel_eq {first second : Nat} {buf : Bytes} (enough : buf.length < first)
    (also : buf.length < second) : unpackFuel wrk first buf = unpackFuel wrk second buf := by
  induction first generalizing second buf with
  | zero => omega
  | succ first ih =>
      obtain ⟨second, rfl⟩ : ∃ less, second = less + 1 := ⟨second - 1, by omega⟩
      cases firstLine buf with
      | complete spaces type line rest allSpaces start noNewline =>
          rw [unpackFuel_complete wrk _ allSpaces start noNewline,
            unpackFuel_complete wrk _ allSpaces start noNewline, unpackLine_congr]
          intro j positive
          simp only [List.length_append, List.length_cons] at enough also
          apply ih <;> (rw [List.length_drop]; simp only [List.length_append, List.length_cons]; omega)
      | blank _ allSpaces => rw [unpackFuel_blank wrk _ allSpaces, unpackFuel_blank wrk _ allSpaces]
      | incomplete spaces type line allSpaces start noNewline =>
          rw [unpackFuel_incomplete wrk _ allSpaces start noNewline,
            unpackFuel_incomplete wrk _ allSpaces start noNewline]

theorem unpackFuel_enough {fuel : Nat} {buf : Bytes} (enough : buf.length < fuel) :
    unpackFuel wrk fuel buf = unpack wrk buf :=
  unpackFuel_eq wrk enough (Nat.lt_add_one _)

/-- A complete line decides the message, whose elements are messages again. -/
theorem unpack_complete {spaces line : Bytes} {type : UInt8}
    (allSpaces : ∀ c ∈ spaces, IsSpace c) (start : ¬IsSpace type) (noNewline : lf ∉ line)
    (rest : Bytes) :
    unpack wrk (spaces ++ type :: (line ++ lf :: rest)) =
      (unpackLine wrk (unpack wrk) (type :: (line ++ lf :: rest)) line).map
        fun (m, j) => (m, j + spaces.length) := by
  rw [unpack, unpackFuel_complete wrk _ allSpaces start noNewline, unpackLine_congr]
  intro j positive
  apply unpackFuel_enough
  rw [List.length_drop]
  simp only [List.length_append, List.length_cons]
  omega

/-- Without spaces in front the first line alone decides the message. -/
theorem unpack_start {line : Bytes} {type : UInt8} (start : ¬IsSpace type) (noNewline : lf ∉ line)
    (rest : Bytes) : unpack wrk (type :: (line ++ lf :: rest)) =
      unpackLine wrk (unpack wrk) (type :: (line ++ lf :: rest)) line := by
  have whole := unpack_complete wrk (List.forall_mem_nil _) start noNewline rest
  rw [List.nil_append] at whole
  rw [whole]
  cases unpackLine wrk (unpack wrk) (type :: (line ++ lf :: rest)) line <;> rfl

theorem unpack_blank {spaces : Bytes} (allSpaces : ∀ c ∈ spaces, IsSpace c) :
    unpack wrk spaces = .error .partialValue := unpackFuel_blank wrk _ allSpaces

theorem unpack_incomplete {spaces line : Bytes} {type : UInt8}
    (allSpaces : ∀ c ∈ spaces, IsSpace c) (start : ¬IsSpace type) (noNewline : lf ∉ line) :
    unpack wrk (spaces ++ type :: line) = .error .partialValue :=
  unpackFuel_incomplete wrk _ allSpaces start noNewline

end Fuel

end Raids
