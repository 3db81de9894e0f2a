import Raids.Proof.Msg.Unpack

namespace Raids

/-- The reader that the headers call for. A header is a number from -1 up to the greatest int32, and
no status stands for another number. -/
abbrev Reader := Bytes → Except (Option RedisMsgStatus) (RedisMsg × Nat)

/-- The elements of an array follow each other. -/
def readElements (read : Reader) (ptr : Bytes) :
    Nat → Nat → Except (Option RedisMsgStatus) (List RedisMsg × Nat)
  | 0, j => .ok ([], j)
  | k + 1, j =>
      if ptr.length ≤ j then .error (some .partialValue)
      else
        match read (ptr.drop j) with
        | .error status => .error status
        | .ok (m, tmp) => (readElements read ptr k (j + tmp)).map fun (ms, j) => (m :: ms, j)

/-- A string has as many bytes as its header says, and an array as many elements. -/
def readLine (wrk : ScratchMem) (read : Reader) (ptr line : Bytes) :
    Except (Option RedisMsgStatus) (RedisMsg × Nat) :=
  let type := ptr.headD 0
  let j := line.length + 2
  if type = StringType.char .bulkString ∨ type = arrayChar then
    match stringToInt (line.take (argLength line)) with
    | .error status => .error (some status)
    | .ok v =>
        if v < -1 ∨ 2 ^ 31 ≤ v then .error none
        else if type = StringType.char .bulkString then
          if v = -1 then .ok (.string .bulkString (-1) [], j)
          else if ptr.length < j + v.toNat then .error (some .partialValue)
          else .ok (.string .bulkString v ((ptr.drop j).take v.toNat),
            skipCrlf ptr (j + v.toNat))
        else if v = -1 then .ok (.array (-1) [], j)
        else if 0 < v ∧ ¬wrk (sizeofRedisMsg * v.toNat) then .error (some .allocFail)
        else (readElements read ptr v.toNat j).map fun (elems, j) => (.array v elems, j)
  else (unpackLine wrk (fun _ => .error .partialValue) ptr line).mapError some

def readFuel (wrk : ScratchMem) : Nat → Reader
  | 0, _ => .error (some .partialValue)
  | fuel + 1, buf =>
      let off := (buf.takeWhile (IsSpace ·)).length
      let ptr := buf.drop off
      match findNewline ptr.tail with
      | none => .error (some .partialValue)
      | some line =>
          (readLine wrk (readFuel wrk fuel) ptr line).map fun (m, j) => (m, j + off)

def readMsg (wrk : ScratchMem) : Reader := fun buf => readFuel wrk (buf.length + 1) buf

/-- A reading agrees with the one of the code, or a header does not fit. -/
def Fits {α : Type} (read : Except (Option RedisMsgStatus) (α × Nat))
    (code : Except RedisMsgStatus (α × Nat)) : Prop :=
  read = .error none ∨ read = code.mapError some

theorem fits_map {α β : Type} {read : Except (Option RedisMsgStatus) (α × Nat)}
    {code : Except RedisMsgStatus (α × Nat)} (fits : Fits read code) (f : α × Nat → β × Nat) :
    Fits (read.map f) (code.map f) := by
  obtain unfit | same := fits
  · rw [unfit]
    exact Or.inl rfl
  · rw [same]
    cases code <;> exact Or.inr rfl

/-- The elements agree up to the first header that does not fit. -/
theorem readElements_fits {read : Reader}
    {unpack : Bytes → Except RedisMsgStatus (RedisMsg × Nat)}
    (same : ∀ buf, Fits (read buf) (unpack buf)) (ptr : Bytes) (k j : Nat) :
    Fits (readElements read ptr k j) (unpackArray unpack ptr k j) := by
  induction k generalizing j with
  | zero => exact Or.inr rfl
  | succ k ih =>
      rw [readElements, unpackArray]
      by_cases ends : ptr.length ≤ j
      · rw [if_pos ends, if_pos ends]
        exact Or.inr rfl
      · rw [if_neg ends, if_neg ends]
        obtain unfit | element := same (ptr.drop j)
        · rw [unfit]
          exact Or.inl rfl
        · rw [element]
          cases unpack (ptr.drop j) with
          | error status => exact Or.inr rfl
          | ok result => exact fits_map (ih (j + result.2)) _

/-- A line agrees unless its header does not fit or an element has such a header. -/
theorem readLine_fits (wrk : ScratchMem) {read : Reader}
    {unpack : Bytes → Except RedisMsgStatus (RedisMsg × Nat)}
    (same : ∀ buf, Fits (read buf) (unpack buf)) {ptr line : Bytes}
    (inside : line.length + 2 ≤ ptr.length) :
    Fits (readLine wrk read ptr line) (unpackLine wrk unpack ptr line) := by
  have number : ∀ v : Int, ¬(v < -1 ∨ 2 ^ 31 ≤ v) → toInt32 v = v := by
    intro v fits
    exact toInt32_of_bounds (by omega) (by omega)
  by_cases isBulk : ptr.headD 0 = StringType.char .bulkString
  · simp only [readLine, unpackLine, isBulk, true_or, if_true, strToInt32]
    cases stringToInt (line.take (argLength line)) with
    | error status => exact Or.inr rfl
    | ok v =>
        by_cases unfit : v < -1 ∨ 2 ^ 31 ≤ v
        · exact Or.inl (if_pos unfit)
        · simp only [if_neg unfit, Except.map, number v unfit]
          by_cases isNil : v = -1
          · subst isNil
            exact Or.inr rfl
          · rw [if_neg isNil]
            by_cases filled : 0 < v
            · rw [if_pos filled]
              split
              · exact Or.inr rfl
              · exact Or.inr rfl
            · obtain rfl : v = 0 := by omega
              rw [if_neg (by rw [Int.toNat_zero]; omega)]
              apply Or.inr
              simp [Except.mapError]
  · by_cases isArray : ptr.headD 0 = arrayChar
    · have notBulk : arrayChar ≠ StringType.char .bulkString := by decide
      simp only [readLine, unpackLine, isArray, notBulk, or_true, if_true, if_false, strToInt32]
      cases stringToInt (line.take (argLength line)) with
      | error status => exact Or.inr rfl
      | ok v =>
          by_cases unfit : v < -1 ∨ 2 ^ 31 ≤ v
          · exact Or.inl (if_pos unfit)
          · simp only [if_neg unfit, Except.map, number v unfit]
            by_cases isNull : v = -1
            · subst isNull
              exact Or.inr rfl
            · rw [if_neg isNull]
              by_cases filled : 0 < v
              · simp only [filled, true_and, if_true]
                split
                · exact Or.inr rfl
                · exact fits_map (readElements_fits same ptr v.toNat _) _
              · obtain rfl : v = 0 := by omega
                exact Or.inr rfl
    · simp only [readLine, isBulk, isArray, or_self, if_false]
      apply Or.inr
      simp only [unpackLine, isBulk, isArray, if_false]

/-- The reader of the code agrees up to the first header that does not fit. -/
theorem readFuel_fits (wrk : ScratchMem) (fuel : Nat) (buf : Bytes) :
    Fits (readFuel wrk fuel buf) (unpackFuel wrk fuel buf) := by
  induction fuel generalizing buf with
  | zero => exact Or.inr rfl
  | succ fuel ih =>
      simp only [readFuel, unpackFuel]
      cases found : findNewline (buf.drop (buf.takeWhile (IsSpace ·)).length).tail with
      | none => exact Or.inr rfl
      | some line =>
          obtain ⟨-, rest, isTail⟩ := findNewline_eq_some.mp found
          have length := congrArg List.length isTail
          rw [List.length_tail, List.length_append, List.length_cons] at length
          exact fits_map (readLine_fits wrk ih (by omega)) _

/-- The lengths of a message are the numbers of its headers, and an input with a header that does
not fit is an error. -/
def LengthsExact (wrk : ScratchMem) (buf : Bytes) : Prop :=
  (∀ m n, unpack wrk buf = .ok (m, n) → readMsg wrk buf = .ok (m, n)) ∧
    (readMsg wrk buf = .error none → ∃ status, status ≠ .partialValue ∧
      unpack wrk buf = .error status)

/-- The bytes of a string are the ones behind its header. -/
theorem readMsg_bulkString (wrk : ScratchMem) {header : Bytes} (noNewline : lf ∉ header) {v : Int}
    (number : stringToInt (header.take (argLength header)) = .ok v) (rest : Bytes) {m : RedisMsg}
    {n : Nat}
    (read : readMsg wrk (StringType.char .bulkString :: (header ++ lf :: rest)) = .ok (m, n)) :
    (v = -1 ∧ m = .string .bulkString (-1) []) ∨
      (0 ≤ v ∧ v < 2 ^ 31 ∧ v ≤ rest.length ∧ m = .string .bulkString v (rest.take v.toNat)) := by
  have start : ¬IsSpace (StringType.char .bulkString) := by decide
  have behind : (StringType.char .bulkString :: (header ++ lf :: rest)).drop (header.length + 2) =
      rest := by
    rw [List.drop_succ_cons, ← List.drop_drop, List.drop_left]
    rfl
  have length : (StringType.char .bulkString :: (header ++ lf :: rest)).length =
      header.length + 2 + rest.length := by
    rw [List.length_cons, List.length_append, List.length_cons]
    omega
  rw [readMsg, readFuel, List.takeWhile_cons_of_neg (by simpa using start)] at read
  simp only [List.length_nil, List.drop_zero, List.tail_cons, findNewline_append noNewline] at read
  simp only [readLine, List.headD_cons, true_or, if_true, number, behind, length] at read
  by_cases unfit : v < -1 ∨ 2 ^ 31 ≤ v
  · rw [if_pos unfit] at read
    cases read
  · rw [if_neg unfit] at read
    by_cases isNil : v = -1
    · rw [if_pos isNil] at read
      cases read
      exact Or.inl ⟨isNil, rfl⟩
    · rw [if_neg isNil] at read
      by_cases short : header.length + 2 + rest.length < header.length + 2 + v.toNat
      · rw [if_pos short] at read
        cases read
      · rw [if_neg short] at read
        cases read
        exact Or.inr ⟨by omega, by omega, by omega, rfl⟩

end Raids
