import Raids.Construction.Pubsub.Message
import Raids.Proof.Msg.RoundTrip

namespace Raids.Pubsub

section Frame

/-- A string as a message, and its bytes. -/
def bulk (str : Bytes) : RedisMsg := .string .bulkString str.length str

theorem pack_bulk (str : Bytes) : (bulk str).pack =
    StringType.char .bulkString :: uint64ToString str.length ++ crlf ++ str ++ crlf := by
  have natural : int64ToString str.length = uint64ToString str.length := by
    rw [int64ToString, if_neg (by omega), Int.natAbs_natCast]
  simp [bulk, RedisMsg.pack, natural]

theorem length_pack_bulk (str : Bytes) : (bulk str).pack.length = stringSize str := by
  rw [pack_bulk, stringSize, uint64Digits_eq]
  simp [crlf]
  omega

/-- A string is written behind the bytes that are there. -/
theorem putString_copy (n : Nat) (front str : Bytes) :
    putString ((Block.alloc n).copy 0 front) front.length str =
      ((Block.alloc n).copy 0 (front ++ (bulk str).pack), (front ++ (bulk str).pack).length) := by
  have behind : ∀ front more : Bytes, ((Block.alloc n).copy 0 front).copy front.length more =
      (Block.alloc n).copy 0 (front ++ more) := by
    intro front more
    have joined := Block.copy_append (Block.alloc n) 0 front more
    rwa [Nat.zero_add] at joined
  have type := behind front [StringType.char .bulkString]
  have digits := behind (front ++ [StringType.char .bulkString]) (uint64ToString str.length)
  have line := behind (front ++ [StringType.char .bulkString] ++ uint64ToString str.length) crlf
  have body := behind
    (front ++ [StringType.char .bulkString] ++ uint64ToString str.length ++ crlf) str
  have ending := behind
    (front ++ [StringType.char .bulkString] ++ uint64ToString str.length ++ crlf ++ str) crlf
  simp only [List.length_append, List.length_singleton] at type digits line body ending
  have two : crlf.length = 2 := rfl
  rw [two] at body ending
  rw [putString, type, digits, line, body, ending, pack_bulk]
  simp [two]
  omega

/-- The bytes of the last element. -/
def RedisMsgTransform.bytes (xf : RedisMsgTransform) : Bytes :=
  if xf.isRedis then xf.msg else (bulk xf.msg).pack

theorem length_bytes (xf : RedisMsgTransform) : xf.bytes.length = xf.size := by
  rw [RedisMsgTransform.bytes, RedisMsgTransform.size]
  split
  · omega
  · rw [length_pack_bulk, stringSize]
    omega

theorem putMsg_copy (n : Nat) (front : Bytes) (xf : RedisMsgTransform) :
    putMsg xf ((Block.alloc n).copy 0 front) front.length =
      (Block.alloc n).copy 0 (front ++ xf.bytes) := by
  rw [putMsg, RedisMsgTransform.bytes]
  split
  · have joined := Block.copy_append (Block.alloc n) 0 front xf.msg
    rwa [Nat.zero_add] at joined
  · rw [putString_copy]

/-- The strings in front of the message. -/
def frontStrings (sub : Bytes) : Option Bytes → List Bytes
  | none => [text "message", sub]
  | some pat => [text "pmessage", pat, sub]

/-- The bytes of an array of strings and a message. -/
def frame (strs : List Bytes) (last : Bytes) : Bytes :=
  arrayChar :: int64ToString (strs.length + 1 : Nat) ++ crlf ++
    strs.flatMap (fun str => (bulk str).pack) ++ last

/-- The bytes that are written have exactly the reserved size. -/
theorem pubMessage_eq (pref sub : Bytes) (pattern : Option Bytes) (xf : RedisMsgTransform)
    (msg : Bytes) (enc : MsgEnc) :
    ∃ block, pubMessage pref.length ⟨pref ++ sub, msg, enc⟩ xf (pattern.map (pref ++ ·)) =
      some block ∧ block.Holds (frame (frontStrings sub pattern) xf.bytes) := by
  have fits : ∀ other : Bytes, ¬(pref ++ other).length < pref.length := by
    intro other
    rw [List.length_append]
    omega
  cases pattern with
  | none =>
      have three : frame (frontStrings sub none) xf.bytes =
          hdr ++ (bulk sub).pack ++ xf.bytes := by
        have header : hdr = arrayChar :: int64ToString (2 + 1 : Nat) ++ crlf ++
            (bulk (text "message")).pack := by decide
        rw [header]
        simp [frame, frontStrings]
      refine ⟨_, ?_, Block.holds_copy _⟩
      rw [pubMessage, if_neg (fits sub), Option.map_none]
      simp only [List.drop_left]
      rw [putString_copy]
      simp only [putMsg_copy]
      rw [three, List.length_append, List.length_append, length_pack_bulk, length_bytes]
  | some pat =>
      have four : frame (frontStrings sub (some pat)) xf.bytes =
          phdr ++ (bulk pat).pack ++ (bulk sub).pack ++ xf.bytes := by
        have header : phdr = arrayChar :: int64ToString (3 + 1 : Nat) ++ crlf ++
            (bulk (text "pmessage")).pack := by decide
        rw [header]
        simp [frame, frontStrings]
      refine ⟨_, ?_, Block.holds_copy _⟩
      rw [pubMessage, if_neg (fits sub), Option.map_some]
      dsimp only
      rw [if_neg (fits pat)]
      simp only [List.drop_left]
      rw [putString_copy]
      simp only [putString_copy, putMsg_copy]
      rw [four, List.length_append, List.length_append, List.length_append, length_pack_bulk,
        length_pack_bulk, length_bytes]

end Frame

section Unpack

variable {wrk : ScratchMem} {str w : Bytes} {v : RedisMsg}

theorem strToInt32_lt {arg : Bytes} {len : Int} (read : strToInt32 arg = .ok len) :
    len < 2 ^ 31 := by
  obtain ⟨n, _, rfl⟩ := map_eq_ok read
  have upper : Int.bmod n (2 ^ 32) < (2 ^ 32 + 1) / 2 := Int.bmod_lt (by decide)
  rw [toInt32]
  omega

/-- A string that is read back has a length that the reader knows. -/
theorem length_of_unpack {rest : Bytes} {n : Nat}
    (read : unpack wrk ((bulk str).pack ++ rest) = .ok (bulk str, n)) : str.length < 2 ^ 31 := by
  have written : (bulk str).pack ++ rest =
      StringType.char .bulkString :: int64ToString str.length ++ crlf ++
        (str ++ (crlf ++ rest)) := by
    simp [bulk, RedisMsg.pack]
  rw [written, unpack_line wrk (by decide) (not_mem_int64ToString (by decide)),
    unpackLine_bulkString] at read
  cases number : strToInt32 (List.take (argLength (int64ToString str.length ++ [cr]))
      (int64ToString str.length ++ [cr])) with
  | error status =>
      rw [number] at read
      cases read
  | ok len =>
      have upper := strToInt32_lt number
      have same : len = str.length := by
        rw [number] at read
        dsimp only at read
        split at read
        · split at read
          · cases read
          · simp only [Except.ok.injEq, Prod.mk.injEq, bulk, RedisMsg.string.injEq] at read
            exact read.1.2.1
        · simp only [Except.ok.injEq, Prod.mk.injEq, bulk, RedisMsg.string.injEq] at read
          exact read.1.2.1
      omega

theorem unpack_bulk (fits : str.length < 2 ^ 31) (rest : Bytes) :
    unpack wrk ((bulk str).pack ++ rest) = .ok (bulk str, (bulk str).pack.length) :=
  unpack_pack_bulkString wrk str fits rest

/-- The strings and the last message are read one after the other. -/
theorem unpackArray_frame {strs : List Bytes} {ptr : Bytes} {j : Nat} (nonempty : w ≠ [])
    (behind : ptr.drop j = strs.flatMap (fun str => (bulk str).pack) ++ w) :
    unpackArray (unpack wrk) ptr (strs.length + 1) j =
        .ok (strs.map bulk ++ [v], ptr.length) ↔
      (∀ str ∈ strs, str.length < 2 ^ 31) ∧ unpack wrk w = .ok (v, w.length) := by
  have more : 0 < w.length := List.length_pos_of_ne_nil nonempty
  have length := congrArg List.length behind
  rw [List.length_drop, List.length_append] at length
  induction strs generalizing j with
  | nil =>
      have last : ptr.drop j = w := behind
      rw [List.flatMap_nil, List.length_nil, Nat.zero_add] at length
      rw [List.length_nil, Nat.zero_add, unpackArray, if_neg (by omega), last]
      cases read : unpack wrk w with
      | error status => simp
      | ok result =>
          obtain ⟨m, n⟩ := result
          simp [unpackArray, Except.map]
          omega
  | cons str strs ih =>
      rw [List.flatMap_cons, List.append_assoc] at behind
      rw [List.flatMap_cons, List.length_append] at length
      have tail : ptr.drop (j + (bulk str).pack.length) =
          strs.flatMap (fun str => (bulk str).pack) ++ w := by
        rw [← List.drop_drop, behind, List.drop_left]
      rw [List.length_cons, unpackArray, if_neg (by omega), behind, List.forall_mem_cons]
      have step := ih tail (by rw [← List.length_drop, tail, List.length_append])
      by_cases fits : str.length < 2 ^ 31
      · rw [unpack_bulk fits, and_assoc, and_iff_right fits]
        refine Iff.trans ?_ step
        dsimp only
        cases unpackArray (unpack wrk) ptr (strs.length + 1) (j + (bulk str).pack.length) with
        | error status => simp [Except.map]
        | ok result => simp [Except.map, Prod.ext_iff]
      · refine iff_of_false ?_ fun both => fits both.1.1
        cases read : unpack wrk ((bulk str).pack ++
            (strs.flatMap (fun str => (bulk str).pack) ++ w)) with
        | error status => simp
        | ok result =>
            obtain ⟨m, n⟩ := result
            dsimp only
            intro whole
            obtain ⟨rest, _, same⟩ := map_eq_ok whole
            have first : m = bulk str := by
              simp only [List.map_cons, List.cons_append, Prod.mk.injEq, List.cons.injEq] at same
              exact same.1.1
            rw [first] at read
            exact fits (length_of_unpack read)

/-- The frame is read as its strings and the last message exactly if their lengths are known to the
reader and the last bytes are one message. -/
theorem unpack_frame (free : ∀ n, wrk n) {strs : List Bytes} (few : strs.length + 1 < 2 ^ 31)
    (nonempty : w ≠ []) :
    unpack wrk (frame strs w) =
        .ok (.array (strs.length + 1 : Nat) (strs.map bulk ++ [v]), (frame strs w).length) ↔
      (∀ str ∈ strs, str.length < 2 ^ 31) ∧ unpack wrk w = .ok (v, w.length) := by
  have written : frame strs w = arrayChar :: int64ToString (strs.length + 1 : Nat) ++ crlf ++
      (strs.flatMap (fun str => (bulk str).pack) ++ w) := by
    simp [frame]
  have behind := drop_line arrayChar (int64ToString (strs.length + 1 : Nat) ++ [cr])
    (strs.flatMap (fun str => (bulk str).pack) ++ w)
  rw [← unpackArray_frame nonempty behind, written,
    unpack_line wrk (by decide) (not_mem_int64ToString (by decide)),
    unpackLine_array, take_argLength, strToInt32_int64ToString (by omega) (by omega)]
  have size : (arrayChar :: (int64ToString (strs.length + 1 : Nat) ++ [cr] ++ lf ::
      (strs.flatMap (fun str => (bulk str).pack) ++ w))).length =
      (arrayChar :: int64ToString (strs.length + 1 : Nat) ++ crlf ++
        (strs.flatMap (fun str => (bulk str).pack) ++ w)).length := by
    simp [crlf]
  have positive : (0 : Int) < (strs.length + 1 : Nat) := by omega
  dsimp only
  rw [if_pos positive, if_neg (by simp [free]), ← size, Int.toNat_natCast]
  cases unpackArray (unpack wrk) (arrayChar :: (int64ToString (strs.length + 1 : Nat) ++ [cr] ++
      lf :: (strs.flatMap (fun str => (bulk str).pack) ++ w))) (strs.length + 1)
      ((int64ToString (strs.length + 1 : Nat) ++ [cr]).length + 2) with
  | error status => simp [Except.map]
  | ok result => simp [Except.map, Prod.ext_iff]

end Unpack

section Inbox

/-- The low bytes give a number back that fits in them. -/
theorem value_idBytes (left : Nat) {k : Nat} (fits : k < 256 ^ left) :
    LittleEndian.value (idBytes left k) = k := by
  induction left generalizing k with
  | zero =>
      rw [Nat.pow_zero] at fits
      rw [idBytes, LittleEndian.value_nil]
      omega
  | succ left ih =>
      rw [idBytes]
      split
      · rename_i zero
        rw [zero, LittleEndian.value_nil]
      · rw [Nat.pow_succ] at fits
        rw [LittleEndian.value_cons, ih (by omega)]
        have low : k.toUInt8.toNat = k % 256 := rfl
        omega

theorem length_idBytes_pos {left k : Nat} (some : k ≠ 0) : 0 < (idBytes (left + 1) k).length := by
  rw [idBytes, if_neg some, List.length_cons]
  omega

/-- The bytes behind the last dot are those without a dot. -/
theorem lastToken_append {token : Bytes} (noDot : (46 : UInt8) ∉ token) (front : Bytes) :
    lastToken (front ++ [46] ++ token) = token := by
  have all : ∀ c ∈ token.reverse, decide (c ≠ 46) = true := by
    intro c found
    rw [List.mem_reverse] at found
    rw [decide_eq_true_eq]
    rintro rfl
    exact noDot found
  rw [lastToken, List.reverse_append, List.reverse_append, List.takeWhile_append_of_pos all]
  simp

/-- An inbox is read back to its hash and its number unless the number is zero. -/
theorem inboxToken_inboxSubject {base64 : Base64} {h k : Nat} (works : base64.Works (inboxId h k))
    (hash : h < 2 ^ 32) (fits : k < 2 ^ 32) (pref session : Bytes) :
    inboxToken base64 (inboxSubject base64 pref session h k) = some (h, k) ↔ k ≠ 0 := by
  have four : (LittleEndian.digits 4 h).length = 4 := LittleEndian.length_digits 4 h
  rw [inboxToken, inboxSubject, lastToken_append works.noDot, if_pos works.short, works.reads]
  by_cases zero : k = 0
  · have short : (inboxId h k).length = 4 := by
      rw [inboxId, zero, List.length_append, four]
      rfl
    rw [if_neg (by omega)]
    simp [zero]
  · have long : 5 ≤ (inboxId h k).length := by
      have positive : 0 < (idBytes 4 k).length := length_idBytes_pos zero
      rw [inboxId, List.length_append, four]
      omega
    rw [if_pos long, inboxId, List.take_left' four, List.drop_left' four,
      LittleEndian.value_digits, value_idBytes 4 (by omega), Nat.mod_eq_of_lt (by omega)]
    simp [zero]

end Inbox

section Spec

variable (wrk : ScratchMem) (pref sub : Bytes) (pattern : Option Bytes)
  (transform : Bytes → Option Bytes) (msg : Bytes) (enc : MsgEnc)

/-- The payload of a message of this protocol is that message, and another one is a string. -/
def IsPayload (xf : RedisMsgTransform) (v : RedisMsg) : Prop :=
  if xf.isRedis then unpack wrk xf.msg = .ok (v, xf.msg.length) else v = bulk xf.msg

/-- The array that a subscriber should get. -/
def delivered (v : RedisMsg) : RedisMsg :=
  match pattern with
  | none => .array 3 [bulk (text "message"), bulk sub, v]
  | some pat => .array 4 [bulk (text "pmessage"), bulk pat, bulk sub, v]

/-- The bytes of the message fill what was reserved for them, and they are read as the array of the
subscription, of the subject and the pattern without the prefix, and of the payload. -/
def Delivers : Prop :=
  let pub : EvPublish := ⟨pref ++ sub, msg, enc⟩
  let xf := checkTransform transform pub
  ∃ block bytes v, pubMessage pref.length pub xf (pattern.map (pref ++ ·)) = some block ∧
    block.Holds bytes ∧ IsPayload wrk xf v ∧
    unpack wrk bytes = .ok (delivered sub pattern v, bytes.length)

/-- A message that is sent without a frame: it says that it is one of this protocol, and starts like
one. -/
def SentAsIs : Prop := enc = .mdMessage ∧ ∃ b rest, msg = b :: rest ∧ validTypeChar b = true

/-- The reader knows all lengths, and a payload without a frame is one whole message. -/
def DeliverCondition : Prop :=
  sub.length < 2 ^ 31 ∧ (∀ pat ∈ pattern, pat.length < 2 ^ 31) ∧
    (SentAsIs msg enc → ∃ v, unpack wrk msg = .ok (v, msg.length)) ∧
    (¬SentAsIs msg enc →
      (checkTransform transform ⟨pref ++ sub, msg, enc⟩).msg.length < 2 ^ 31)

end Spec

variable {wrk : ScratchMem} {pref sub : Bytes} {pattern : Option Bytes}
  {transform : Bytes → Option Bytes} {msg : Bytes} {enc : MsgEnc}

theorem isRedis_iff : (checkTransform transform ⟨pref ++ sub, msg, enc⟩).isRedis = true ↔
    SentAsIs msg enc := by
  cases msg with
  | nil => simp [checkTransform, SentAsIs]
  | cons b rest =>
      have sent : SentAsIs (b :: rest) enc ↔ enc = .mdMessage ∧ validTypeChar b = true := by
        apply and_congr_right
        intro _
        apply Iff.intro
        · rintro ⟨_, _, same, valid⟩
          rw [(List.cons.inj same).1]
          exact valid
        · exact fun valid => ⟨b, rest, rfl, valid⟩
      rw [sent, checkTransform]
      dsimp only
      by_cases isText : enc = .mdString
      · rw [if_pos isText, isText]
        simp
      · rw [if_neg isText]
        split <;> simp [*]

theorem msg_of_sentAsIs (sent : SentAsIs msg enc) :
    (checkTransform transform ⟨pref ++ sub, msg, enc⟩).msg = msg := by
  obtain ⟨isMessage, b, rest, rfl, valid⟩ := sent
  simp [checkTransform, isMessage, valid]

theorem unpack_delivered (free : ∀ n, wrk n) {w : Bytes} {v : RedisMsg} (nonempty : w ≠ []) :
    unpack wrk (frame (frontStrings sub pattern) w) =
        .ok (delivered sub pattern v, (frame (frontStrings sub pattern) w).length) ↔
      (sub.length < 2 ^ 31 ∧ ∀ pat ∈ pattern, pat.length < 2 ^ 31) ∧
        unpack wrk w = .ok (v, w.length) := by
  cases pattern with
  | none =>
      have read := @unpack_frame wrk w v free (frontStrings sub none)
        (show 2 + 1 < 2 ^ 31 by decide) nonempty
      refine read.trans (and_congr_left' ?_)
      have short : (text "message").length < 2 ^ 31 := by decide
      rw [frontStrings, List.forall_mem_cons, List.forall_mem_singleton, and_iff_right short]
      simp
  | some pat =>
      have read := @unpack_frame wrk w v free (frontStrings sub (some pat))
        (show 3 + 1 < 2 ^ 31 by decide) nonempty
      refine read.trans (and_congr_left' ?_)
      have short : (text "pmessage").length < 2 ^ 31 := by decide
      rw [frontStrings, List.forall_mem_cons, List.forall_mem_cons, List.forall_mem_singleton,
        and_iff_right short]
      simp [and_comm]

/-- A message is delivered under this condition only. -/
theorem delivers_iff (free : ∀ n, wrk n) : Delivers wrk pref sub pattern transform msg enc ↔
    DeliverCondition wrk pref sub pattern transform msg enc := by
  obtain ⟨xf, isXf⟩ : ∃ xf, xf = checkTransform transform ⟨pref ++ sub, msg, enc⟩ := ⟨_, rfl⟩
  obtain ⟨block, written, holds⟩ := pubMessage_eq pref sub pattern xf msg enc
  have only : ∀ bytes, block.Holds bytes → bytes = frame (frontStrings sub pattern) xf.bytes := by
    intro bytes also
    have length : bytes.length = (frame (frontStrings sub pattern) xf.bytes).length :=
      also.2.1.symm.trans holds.2.1
    apply List.ext_getElem?
    intro k
    by_cases below : k < bytes.length
    · rw [← also.2.2 k below, holds.2.2 k (by omega)]
    · rw [List.getElem?_eq_none (by omega), List.getElem?_eq_none (by omega)]
  have reduced : Delivers wrk pref sub pattern transform msg enc ↔
      ∃ v, IsPayload wrk xf v ∧ unpack wrk (frame (frontStrings sub pattern) xf.bytes) =
        .ok (delivered sub pattern v, (frame (frontStrings sub pattern) xf.bytes).length) := by
    rw [Delivers]
    simp only [← isXf]
    apply Iff.intro
    · rintro ⟨block', bytes, v, written', holds', payload, read⟩
      obtain rfl := Option.some.inj (written.symm.trans written')
      rw [only bytes holds'] at read
      exact ⟨v, payload, read⟩
    · rintro ⟨v, payload, read⟩
      exact ⟨block, _, v, written, holds, payload, read⟩
  have redis : xf.isRedis = true ↔ SentAsIs msg enc := by rw [isXf, isRedis_iff]
  rw [reduced, DeliverCondition, ← isXf]
  by_cases sent : SentAsIs msg enc
  · have raw : xf.msg = msg := by rw [isXf, msg_of_sentAsIs sent]
    have bytes : xf.bytes = msg := by
      rw [RedisMsgTransform.bytes, if_pos (redis.mpr sent), raw]
    have nonempty : msg ≠ [] := by
      obtain ⟨_, b, rest, rfl, _⟩ := sent
      simp
    simp only [IsPayload, if_pos (redis.mpr sent), raw, bytes, unpack_delivered free nonempty]
    simp only [sent, forall_const, not_true_eq_false, false_implies, and_true]
    apply Iff.intro
    · rintro ⟨v, read, fits, _⟩
      exact ⟨fits.1, fits.2, v, read⟩
    · rintro ⟨first, second, v, read⟩
      exact ⟨v, read, ⟨first, second⟩, read⟩
  · have text_ : ¬xf.isRedis = true := mt redis.mp sent
    have bytes : xf.bytes = (bulk xf.msg).pack := by rw [RedisMsgTransform.bytes, if_neg text_]
    have nonempty : (bulk xf.msg).pack ≠ [] := by
      rw [pack_bulk]
      simp
    have reads : unpack wrk (bulk xf.msg).pack = .ok (bulk xf.msg, (bulk xf.msg).pack.length) ↔
        xf.msg.length < 2 ^ 31 := by
      have whole : (bulk xf.msg).pack = (bulk xf.msg).pack ++ [] := (List.append_nil _).symm
      apply Iff.intro
      · intro read
        rw [whole] at read
        exact length_of_unpack read
      · intro fits
        have read := @unpack_bulk wrk xf.msg fits []
        rwa [← whole] at read
    simp only [IsPayload, if_neg text_, bytes, exists_eq_left, unpack_delivered free nonempty,
      reads]
    simp only [sent, false_implies, not_false_eq_true, forall_const, true_and]
    rw [and_assoc]

/-- A message is read as the array of its subscription under its condition only, and an inbox is
read back to its token unless its number is zero. -/
theorem pubMessage_exact (wrk : ScratchMem) (pref sub : Bytes) (pattern : Option Bytes)
    (transform : Bytes → Option Bytes) (msg : Bytes) (enc : MsgEnc) (base64 : Base64)
    (session : Bytes) (h k : Nat) (free : ∀ n, wrk n) (works : base64.Works (inboxId h k))
    (hash : h < 2 ^ 32) (fits : k < 2 ^ 32) :
    (Delivers wrk pref sub pattern transform msg enc ↔
      DeliverCondition wrk pref sub pattern transform msg enc) ∧
      (inboxToken base64 (inboxSubject base64 pref session h k) = some (h, k) ↔ k ≠ 0) := by
  apply And.intro
  · exact delivers_iff free
  · exact inboxToken_inboxSubject works hash fits pref session

/-- A table of the text of one inbox. -/
def oneBase64 : Base64 where
  binToBase64 _ := text "AQAAAAE"
  base64ToBin _ := [1, 0, 0, 0, 1]
  size8 := 12

theorem pubMessage_exact_hi :
    (Delivers (fun _ => true) (text "_DB.") (text "a") none (fun _ => none) (text "hi")
        .mdString ↔
      DeliverCondition (fun _ => true) (text "_DB.") (text "a") none (fun _ => none) (text "hi")
        .mdString) ∧
      (inboxToken oneBase64 (inboxSubject oneBase64 (text "_DB.") (text "s") 1 1) = some (1, 1) ↔
        1 ≠ 0) :=
  pubMessage_exact (fun _ => true) (text "_DB.") (text "a") none (fun _ => none) (text "hi")
    .mdString oneBase64 (text "s") 1 1 (fun _ => rfl) ⟨rfl, by decide, by decide⟩ (by decide)
    (by decide)

/-- A message that is a dash only starts like a message of this protocol and is none. -/
theorem pubMessage_dash : ¬Delivers (fun _ => true) (text "_DB.") (text "a") none (fun _ => none)
    (text "-") .mdMessage := by
  rw [delivers_iff (fun _ => rfl)]
  intro condition
  have sent : SentAsIs (text "-") .mdMessage := ⟨rfl, 45, [], rfl, rfl⟩
  obtain ⟨v, whole⟩ := condition.2.2.1 sent
  have short : unpack (fun _ => true) (text "-") = .error .partialValue := by decide
  rw [short] at whole
  cases whole

end Raids.Pubsub
