import Raids.Construction.Msg.Pack
import Raids.Proof.Msg.Number
import Raids.Proof.Msg.Chunk

namespace Raids
open IncrementalParser

/-- The reader requests memory for each array with elements. -/
def RedisMsg.requests : RedisMsg → List Nat
  | .array len elems =>
      if 0 < len then sizeofRedisMsg * len.toNat :: requestsArray elems else []
  | _ => []
where
  requestsArray : List RedisMsg → List Nat
    | [] => []
    | m :: ms => m.requests ++ requestsArray ms

/-- The return in front of the newline is not part of the argument. -/
theorem take_argLength (arg : Bytes) : (arg ++ [cr]).take (argLength (arg ++ [cr])) = arg := by
  rw [argLength, if_pos (by simp)]
  simp

theorem argLength_return (arg : Bytes) : argLength (arg ++ [cr]) = arg.length := by
  rw [argLength, if_pos (by simp)]
  simp

theorem line_noNewline {arg : Bytes} (noNewline : lf ∉ arg) : lf ∉ arg ++ [cr] := by
  simp only [List.mem_append, List.mem_singleton, not_or]
  exact ⟨noNewline, by decide⟩

/-- The offset behind the first line starts the rest of the buffer. -/
theorem drop_line (type : UInt8) (line rest : Bytes) :
    (type :: (line ++ lf :: rest)).drop (line.length + 2) = rest := by
  rw [List.drop_succ_cons, ← List.drop_drop, List.drop_left]
  rfl

section Pack

variable (wrk : ScratchMem)

/-- A packed line is complete, so its type and its argument decide the message. -/
theorem unpack_line {type : UInt8} (start : ¬IsSpace type) {arg : Bytes} (noNewline : lf ∉ arg)
    (rest : Bytes) :
    unpack wrk (type :: arg ++ crlf ++ rest) =
      unpackLine wrk (unpack wrk) (type :: (arg ++ [cr] ++ lf :: rest)) (arg ++ [cr]) := by
  have noSpaces : ∀ c ∈ ([] : Bytes), IsSpace c := by simp
  have whole := unpack_complete wrk noSpaces start (line_noNewline noNewline) rest
  have same : type :: arg ++ crlf ++ rest = type :: (arg ++ [cr] ++ lf :: rest) := by
    simp [crlf]
  rw [same]
  rw [List.nil_append] at whole
  rw [whole]
  cases unpackLine wrk (unpack wrk) (type :: (arg ++ [cr] ++ lf :: rest)) (arg ++ [cr]) <;> rfl

/-- The line end of a packed message takes two bytes. -/
theorem skipCrlf_crlf {ptr rest : Bytes} {j : Nat} (behind : ptr.drop j = crlf ++ rest) :
    skipCrlf ptr j = j + 2 := by
  rw [skipCrlf_eq, behind]
  rfl

theorem unpack_pack_bulkString (strval : Bytes) (fits : strval.length < 2 ^ 31) (rest : Bytes) :
    unpack wrk ((RedisMsg.string .bulkString strval.length strval).pack ++ rest) =
      .ok (.string .bulkString strval.length strval,
        (RedisMsg.string .bulkString strval.length strval).pack.length) := by
  have written : (RedisMsg.string .bulkString strval.length strval).pack ++ rest =
      StringType.char .bulkString :: int64ToString strval.length ++ crlf ++
        (strval ++ (crlf ++ rest)) := by
    simp [RedisMsg.pack]
  have size : (RedisMsg.string .bulkString strval.length strval).pack.length =
      (int64ToString strval.length ++ [cr]).length + 2 + strval.length + 2 := by
    simp [RedisMsg.pack, crlf]
    omega
  rw [written, size, unpack_line wrk (by decide) (not_mem_int64ToString (by decide)),
    unpackLine_bulkString, take_argLength, strToInt32_int64ToString (by omega) (by omega)]
  have behind := drop_line (StringType.char .bulkString)
    (int64ToString strval.length ++ [cr]) (strval ++ (crlf ++ rest))
  generalize (int64ToString strval.length ++ [cr]).length + 2 = j at behind ⊢
  generalize StringType.char .bulkString :: (int64ToString strval.length ++ [cr] ++ lf ::
    (strval ++ (crlf ++ rest))) = ptr at behind ⊢
  have ending : ptr.drop (j + strval.length) = crlf ++ rest := by
    rw [← List.drop_drop, behind, List.drop_left]
  have length := congrArg List.length behind
  simp only [List.length_drop, List.length_append, crlf, List.length_cons] at length
  by_cases positive : 0 < strval.length
  · simp only [Int.toNat_natCast, Nat.cast_pos, if_pos positive, behind, List.take_left,
      skipCrlf_crlf ending]
    rw [if_neg (by omega)]
  · have empty : strval = [] := List.length_eq_zero_iff.mp (by omega)
    subst empty
    simpa using skipCrlf_crlf ending

theorem unpack_pack_nil (rest : Bytes) :
    unpack wrk ((RedisMsg.string .bulkString (-1) []).pack ++ rest) =
      .ok (.string .bulkString (-1) [], (RedisMsg.string .bulkString (-1) []).pack.length) := by
  have written : (RedisMsg.string .bulkString (-1) []).pack ++ rest =
      StringType.char .bulkString :: int64ToString (-1) ++ crlf ++ rest := by
    simp [RedisMsg.pack]
  rw [written, unpack_line wrk (by decide) (not_mem_int64ToString (by decide)),
    unpackLine_bulkString, take_argLength, strToInt32_int64ToString (by decide) (by decide)]
  rfl

/-- A line holds any bytes but its own end. -/
theorem unpack_pack_line {type : StringType} (isLine : type ≠ .bulkString) (strval : Bytes)
    (fits : strval.length < 2 ^ 31) (noNewline : lf ∉ strval) (rest : Bytes) :
    unpack wrk ((RedisMsg.string type strval.length strval).pack ++ rest) =
      .ok (.string type strval.length strval,
        (RedisMsg.string type strval.length strval).pack.length) := by
  have packed : (RedisMsg.string type strval.length strval).pack =
      type.char :: strval ++ crlf := by
    cases type with
    | bulkString => exact absurd rfl isLine
    | simpleString => simp [RedisMsg.pack]
    | errorString => simp [RedisMsg.pack]
  have start : ¬IsSpace type.char := by cases type <;> decide
  rw [packed, unpack_line wrk start noNewline, unpackLine_line _ _ _ _ isLine, take_argLength,
    argLength_return, toInt32_of_bounds (by omega) (by omega)]
  simp [crlf]

theorem unpack_pack_integer {ival : Int} (lower : -2 ^ 63 ≤ ival) (upper : ival < 2 ^ 63)
    (rest : Bytes) :
    unpack wrk ((RedisMsg.integer ival).pack ++ rest) =
      .ok (.integer ival, (RedisMsg.integer ival).pack.length) := by
  have packed : (RedisMsg.integer ival).pack =
      integerChar :: int64ToString ival ++ crlf := by rw [RedisMsg.pack]
  rw [packed, unpack_line wrk (by decide) (not_mem_int64ToString (by decide)),
    unpackLine_integer, take_argLength, stringToInt_int64ToString lower upper]
  simp [Except.map, crlf]

theorem unpack_pack_null (rest : Bytes) :
    unpack wrk ((RedisMsg.array (-1) []).pack ++ rest) =
      .ok (.array (-1) [], (RedisMsg.array (-1) []).pack.length) := by
  have packed : (RedisMsg.array (-1) []).pack = arrayChar :: int64ToString (-1) ++ crlf := rfl
  rw [packed, unpack_line wrk (by decide) (not_mem_int64ToString (by decide)),
    unpackLine_array, take_argLength, strToInt32_int64ToString (by decide) (by decide)]
  rfl

/-- A message takes at least one byte. -/
theorem pack_length_pos (m : RedisMsg) : 0 < m.pack.length := by
  cases m with
  | integer ival => simp [RedisMsg.pack]
  | array len elems => simp [RedisMsg.pack]
  | string type len strval => cases type <;> simp [RedisMsg.pack]

/-- The elements are read one after the other. -/
theorem unpackArray_pack (elems : List RedisMsg)
    (each : ∀ m ∈ elems, ∀ rest, unpack wrk (m.pack ++ rest) = .ok (m, m.pack.length))
    {ptr rest : Bytes} {j : Nat}
    (behind : ptr.drop j = RedisMsg.pack.packArray elems.length elems ++ rest) :
    unpackArray (unpack wrk) ptr elems.length j =
      .ok (elems, j + (RedisMsg.pack.packArray elems.length elems).length) := by
  induction elems generalizing j with
  | nil => rfl
  | cons m elems ih =>
      rw [List.length_cons, RedisMsg.pack.packArray] at behind ⊢
      rw [List.append_assoc] at behind
      have length := congrArg List.length behind
      rw [List.length_drop, List.length_append] at length
      have positive := pack_length_pos m
      have tail : ptr.drop (j + m.pack.length) =
          RedisMsg.pack.packArray elems.length elems ++ rest := by
        rw [← List.drop_drop, behind, List.drop_left]
      rw [unpackArray, if_neg (by omega), behind, each m (by simp)]
      simp only [ih (fun m member => each m (by simp [member])) tail, Except.map,
        List.length_append, Nat.add_assoc]

theorem unpack_pack_array {elems : List RedisMsg} (fits : elems.length < 2 ^ 31)
    (granted : 0 < elems.length → wrk (sizeofRedisMsg * elems.length))
    (each : ∀ m ∈ elems, ∀ rest, unpack wrk (m.pack ++ rest) = .ok (m, m.pack.length))
    (rest : Bytes) :
    unpack wrk ((RedisMsg.array elems.length elems).pack ++ rest) =
      .ok (.array elems.length elems, (RedisMsg.array elems.length elems).pack.length) := by
  have written : (RedisMsg.array elems.length elems).pack ++ rest =
      arrayChar :: int64ToString elems.length ++ crlf ++
        (RedisMsg.pack.packArray elems.length elems ++ rest) := by
    simp [RedisMsg.pack]
  have size : (RedisMsg.array elems.length elems).pack.length =
      (int64ToString elems.length ++ [cr]).length + 2 +
        (RedisMsg.pack.packArray elems.length elems).length := by
    simp [RedisMsg.pack, crlf]
    omega
  rw [written, size, unpack_line wrk (by decide) (not_mem_int64ToString (by decide)),
    unpackLine_array, take_argLength, strToInt32_int64ToString (by omega) (by omega)]
  have behind := drop_line arrayChar (int64ToString elems.length ++ [cr])
    (RedisMsg.pack.packArray elems.length elems ++ rest)
  by_cases positive : 0 < elems.length
  · simp only [Int.toNat_natCast, Nat.cast_pos, if_pos positive, granted positive,
      not_true_eq_false, if_false, unpackArray_pack wrk elems each behind]
    rfl
  · have empty : elems = [] := List.length_eq_zero_iff.mp (by omega)
    subst empty
    rfl

theorem requestsArray_mem {m : RedisMsg} {elems : List RedisMsg} (member : m ∈ elems) {size : Nat}
    (request : size ∈ m.requests) : size ∈ RedisMsg.requests.requestsArray elems := by
  induction elems with
  | nil => cases member
  | cons m' elems ih =>
      rw [RedisMsg.requests.requestsArray, List.mem_append]
      rcases List.mem_cons.mp member with same | member
      · exact Or.inl (same ▸ request)
      · exact Or.inr (ih member)

/-- Reading a packed message gives it back in front of any further bytes. -/
theorem unpack_pack {m : RedisMsg} (wellFormed : m.WellFormed)
    (granted : ∀ size ∈ m.requests, wrk size) (rest : Bytes) :
    unpack wrk (m.pack ++ rest) = .ok (m, m.pack.length) := by
  induction wellFormed generalizing rest with
  | bulkString strval fits => exact unpack_pack_bulkString wrk strval fits rest
  | nil => exact unpack_pack_nil wrk rest
  | line type strval isLine fits noNewline _ =>
      exact unpack_pack_line wrk isLine strval fits noNewline rest
  | integer ival lower upper => exact unpack_pack_integer wrk lower upper rest
  | null => exact unpack_pack_null wrk rest
  | array elements fits _ ih =>
      by_cases positive : 0 < elements.length
      · rw [RedisMsg.requests, if_pos (by omega)] at granted
        refine unpack_pack_array wrk fits ?_ ?_ rest
        · intro _
          simpa using granted _ List.mem_cons_self
        · intro m member
          exact ih m member fun size request =>
            granted size (List.mem_cons_of_mem _ (requestsArray_mem member request))
      · have empty : elements = [] := List.length_eq_zero_iff.mp (by omega)
        subst empty
        exact unpack_pack_array wrk fits (by simp) (by simp) rest

end Pack

theorem packArray_length {elems : List RedisMsg}
    (each : ∀ m ∈ elems, m.pack.length = m.packSize) :
    (RedisMsg.pack.packArray elems.length elems).length =
      RedisMsg.packSize.packSizeArray elems.length elems := by
  induction elems with
  | nil => rfl
  | cons m elems ih =>
      rw [List.length_cons, RedisMsg.pack.packArray, RedisMsg.packSize.packSizeArray,
        List.length_append, each m (by simp), ih fun m member => each m (by simp [member])]

/-- The size is computed without writing, and is the number of bytes that are written. -/
theorem pack_length {m : RedisMsg} (wellFormed : m.WellFormed) :
    m.pack.length = m.packSize := by
  induction wellFormed with
  | bulkString strval fits =>
      simp [RedisMsg.pack, RedisMsg.packSize, crlf, int64Digits_eq]
      omega
  | nil => rfl
  | line type strval isLine fits noNewline noReturn =>
      cases type with
      | bulkString => exact absurd rfl isLine
      | simpleString => simp [RedisMsg.pack, RedisMsg.packSize, crlf]; omega
      | errorString => simp [RedisMsg.pack, RedisMsg.packSize, crlf]; omega
  | integer ival lower upper =>
      simp [RedisMsg.pack, RedisMsg.packSize, crlf, int64Digits_eq]
      omega
  | null => rfl
  | array elements fits _ ih =>
      simp [RedisMsg.pack, RedisMsg.packSize, crlf, int64Digits_eq, packArray_length ih]
      omega

/-- The service reads any sequence of packed messages back. -/
theorem process_pack (wrk : ScratchMem) {ms : List RedisMsg}
    (each : ∀ m ∈ ms, m.WellFormed ∧ ∀ size ∈ m.requests, wrk size) :
    process wrk (ms.flatMap RedisMsg.pack) = (ms.map .message, []) := by
  rw [process]
  induction ms with
  | nil => exact drain_nil (incremental_attempt wrk).progress
  | cons m ms ih =>
      obtain ⟨wellFormed, granted⟩ := each m (by simp)
      have first := (attempt_item wrk).mpr
        (unpack_pack wrk wellFormed granted (ms.flatMap RedisMsg.pack))
      rw [List.flatMap_cons, drain_item (incremental_attempt wrk).progress first, List.drop_left,
        ih fun m member => each m (by simp [member])]
      rfl

/-- The writer and the reader agree on every message, its size and every sequence of messages. -/
theorem pack_roundTrip (wrk : ScratchMem) :
    (∀ m : RedisMsg, m.WellFormed → (∀ size ∈ m.requests, wrk size) →
      ∀ rest : Bytes, m.pack.length = m.packSize ∧
        unpack wrk (m.pack ++ rest) = .ok (m, m.packSize)) ∧
    ∀ ms : List RedisMsg,
      (∀ m ∈ ms, m.WellFormed ∧ ∀ size ∈ m.requests, wrk size) →
      process wrk (ms.flatMap RedisMsg.pack) = (ms.map .message, []) := by
  constructor
  · intro m wellFormed granted rest
    have size := pack_length wellFormed
    refine ⟨size, ?_⟩
    rw [← size]
    exact unpack_pack wrk wellFormed granted rest
  · intro ms each
    exact process_pack wrk each

/-- A nested array with a nil, a number and a string returns from the wire. -/
theorem pack_roundTrip_nested :
    let m : RedisMsg := .array 2 [.array 2 [.integer (-7), .string .bulkString (-1) []],
      .string .bulkString 3 [104, 13, 10]]
    m.pack.length = m.packSize ∧ unpack (fun size => size ≤ 32) (m.pack ++ [42]) =
        .ok (m, m.packSize) ∧
      process (fun size => size ≤ 32) ([m, m].flatMap RedisMsg.pack) =
        ([.message m, .message m], []) := by
  intro m
  have inner : (RedisMsg.array 2 [.integer (-7), .string .bulkString (-1) []]).WellFormed := by
    refine .array [.integer (-7), .string .bulkString (-1) []] (by decide) ?_
    intro m member
    rcases List.mem_cons.mp member with rfl | member
    · exact .integer _ (by decide) (by decide)
    · rw [List.mem_singleton.mp member]
      exact .nil
  have wellFormed : m.WellFormed := by
    refine .array [.array 2 [.integer (-7), .string .bulkString (-1) []],
      .string .bulkString 3 [104, 13, 10]] (by decide) ?_
    intro m member
    rcases List.mem_cons.mp member with rfl | member
    · exact inner
    · rw [List.mem_singleton.mp member]
      exact .bulkString [104, 13, 10] (by decide)
  have granted : ∀ size ∈ m.requests, size ≤ 32 := by
    simp [m, RedisMsg.requests, RedisMsg.requests.requestsArray, sizeofRedisMsg]
  have trip := pack_roundTrip fun size => size ≤ 32
  have single := trip.1 m wellFormed (by simpa using granted) [42]
  refine ⟨single.1, single.2, trip.2 [m, m] ?_⟩
  intro m' member
  obtain rfl : m' = m := by simpa using member
  exact ⟨wellFormed, by simpa using granted⟩

end Raids
