import Raids.Construction.WebSocket.Frame

namespace Raids
open BigEndian

namespace WebSocketFrame

/-- The second byte of a header tells the form of the length and whether a key follows. -/
def lengthByte (buf : Bytes) : UInt8 := buf.getD 1 0 &&& 0x7f

def Masked (buf : Bytes) : Prop := buf.getD 1 0 &&& 0x80 ≠ 0

instance (buf : Bytes) : Decidable (Masked buf) := inferInstanceAs (Decidable (_ ≠ _))

/-- The place of the key behind the length. -/
def keyOffset (buf : Bytes) : Nat :=
  if lengthByte buf = 126 then 4 else if lengthByte buf = 127 then 10 else 2

def headerLength (buf : Bytes) : Nat := keyOffset buf + if Masked buf then 4 else 0

/-- The length that a header declares. -/
def declaredLength (buf : Bytes) : Nat :=
  if lengthByte buf = 126 ∨ lengthByte buf = 127 then value ((buf.drop 2).take (keyOffset buf - 2))
  else (lengthByte buf).toNat

def key (buf : Bytes) : UInt32 := maskOfBytes ((buf.drop (keyOffset buf)).take 4)

/-- The frame that a complete header describes. -/
def headerFrame (buf : Bytes) : WebSocketFrame where
  payloadLen := UInt64.ofNat (declaredLength buf)
  mask := if Masked buf then key buf else 0
  opcode := buf.getD 0 0 &&& 0xf
  fin := buf.getD 0 0 &&& 0x80 ≠ 0

/-- The frame before its key is read. -/
def openFrame (buf : Bytes) : WebSocketFrame :=
  { headerFrame buf with mask := if Masked buf then 1 else 0 }

theorem decode_length (before : WebSocketFrame) {buf : Bytes}
    (notClose : buf.getD 0 0 &&& 0xf ≠ wsClose) (two : 2 ≤ buf.length) :
    (buf.length < keyOffset buf → (decode before buf).1 = 0) ∧
      (keyOffset buf ≤ buf.length →
        decode before buf = decodeMask (openFrame buf) buf (keyOffset buf)) := by
  match buf, notClose, two with
  | x :: y :: rest, notClose, _ =>
      have same : x &&& 0xf ≠ wsClose := notClose
      have byte : lengthByte (x :: y :: rest) = y &&& 0x7f := rfl
      rw [decode]
      simp only [same, if_false]
      split
      · rename_i short
        have offset : keyOffset (x :: y :: rest) = 4 := if_pos short
        have declared : declaredLength (x :: y :: rest) =
            value (((x :: y :: rest).drop 2).take 2) := by
          rw [declaredLength, if_pos (.inl short), offset]
        rw [openFrame, headerFrame, declared, offset]
        constructor
        · intro less
          rw [if_pos less]
        · intro enough
          rw [if_neg (Nat.not_lt.mpr enough)]
          rfl
      · rename_i notShort
        split
        · rename_i long
          have offset : keyOffset (x :: y :: rest) = 10 := by
            rw [keyOffset, byte, if_neg notShort, if_pos long]
          have declared : declaredLength (x :: y :: rest) =
              value (((x :: y :: rest).drop 2).take 8) := by
            rw [declaredLength, if_pos (.inr long), offset]
          rw [openFrame, headerFrame, declared, offset]
          constructor
          · intro less
            rw [if_pos less]
          · intro enough
            rw [if_neg (Nat.not_lt.mpr enough)]
            rfl
        · rename_i notLong
          have offset : keyOffset (x :: y :: rest) = 2 := by
            rw [keyOffset, byte, if_neg notShort, if_neg notLong]
          have declared : declaredLength (x :: y :: rest) = (y &&& 0x7f).toNat := by
            rw [declaredLength, byte, if_neg (not_or.mpr ⟨notShort, notLong⟩)]
          rw [openFrame, headerFrame, declared, offset]
          constructor
          · intro less
            simp at less
          · intro _
            rw [UInt64.ofNat_uInt8ToNat]
            rfl

/-- A header is decoded as soon as it is complete. -/
theorem decode_header (before : WebSocketFrame) {buf : Bytes}
    (notClose : buf.getD 0 0 &&& 0xf ≠ wsClose) :
    (buf.length < headerLength buf → (decode before buf).1 = 0) ∧
      (headerLength buf ≤ buf.length → decode before buf = (headerLength buf, headerFrame buf)) := by
  by_cases two : 2 ≤ buf.length
  · obtain ⟨short, long⟩ := decode_length before notClose two
    rw [headerLength]
    by_cases enough : keyOffset buf ≤ buf.length
    · rw [long enough, decodeMask]
      by_cases masked : Masked buf
      · have mask : (openFrame buf).mask ≠ 0 := by simp [openFrame, masked]
        rw [if_pos mask, if_pos masked]
        constructor
        · intro less
          rw [if_pos less]
        · intro complete
          rw [if_neg (Nat.not_lt.mpr complete)]
          simp [openFrame, headerFrame, masked, key]
      · have mask : ¬(openFrame buf).mask ≠ 0 := by simp [openFrame, masked]
        rw [if_neg mask, if_neg masked]
        constructor
        · intro less
          omega
        · intro _
          simp [openFrame, headerFrame, masked]
    · constructor
      · intro _
        exact short (Nat.lt_of_not_le enough)
      · intro complete
        omega
  · have header : 2 ≤ headerLength buf := by
      rw [headerLength, keyOffset]
      split
      · omega
      · split <;> omega
    constructor
    · intro _
      rcases buf with _ | ⟨x, _ | ⟨y, rest⟩⟩
      · rfl
      · have same : x &&& 0xf ≠ wsClose := notClose
        simp [decode, same]
      · simp at two
    · intro complete
      omega

/-- The length byte and the length bytes behind it. -/
def lengthForm (len : UInt64) : UInt8 × Bytes :=
  if len < 126 then (len.toUInt8, [])
  else if len ≤ 0xffff then (126, [((len >>> 8) &&& 0xff).toUInt8, (len &&& 0xff).toUInt8])
  else
    (127, [0, 0, 0, ((len >>> 32) &&& 0xff).toUInt8, ((len >>> 24) &&& 0xff).toUInt8,
      ((len >>> 16) &&& 0xff).toUInt8, ((len >>> 8) &&& 0xff).toUInt8, (len &&& 0xff).toUInt8])

def firstByte (ws : WebSocketFrame) : UInt8 := (if ws.fin then 0x80 else 0) ||| ws.opcode

def maskBit (ws : WebSocketFrame) : UInt8 := if ws.mask ≠ 0 then 0x80 else 0

def keyPart (ws : WebSocketFrame) : Bytes := if ws.mask ≠ 0 then maskBytes ws.mask else []

theorem encode_eq {ws : WebSocketFrame} (notClose : ws.opcode ≠ wsClose) :
    ws.encode = ws.firstByte :: ((lengthForm ws.payloadLen).1 ||| ws.maskBit) ::
      ((lengthForm ws.payloadLen).2 ++ ws.keyPart) := by
  rw [encode]
  simp only [notClose, if_false, lengthForm]
  split
  · rfl
  · split <;> rfl

theorem shiftedByte (len : UInt64) (shift : UInt64) (small : shift.toNat < 64) :
    ((len >>> shift) &&& 0xff).toUInt8.toNat = len.toNat / 2 ^ shift.toNat % 256 := by
  rw [UInt64.toNat_toUInt8, UInt64.toNat_and, UInt64.toNat_shiftRight, Nat.mod_eq_of_lt small,
    Nat.shiftRight_eq_div_pow]
  have low := Nat.and_two_pow_sub_one_eq_mod (len.toNat / 2 ^ shift.toNat) 8
  show (len.toNat / 2 ^ shift.toNat &&& (2 ^ 8 - 1)) % 2 ^ 8 = _
  rw [low, Nat.mod_mod]

theorem shiftedByte_eq (len : UInt64) (shift : UInt64) (small : shift.toNat < 64) :
    ((len >>> shift) &&& 0xff).toUInt8 = UInt8.ofNat (len.toNat / 2 ^ shift.toNat) := by
  apply UInt8.toNat_inj.mp
  rw [shiftedByte len shift small, UInt8.toNat_ofNat']

theorem lowByte_eq (len : UInt64) : (len &&& 0xff).toUInt8 = UInt8.ofNat len.toNat := by
  have low := shiftedByte_eq len 0 (by decide)
  rwa [UInt64.shiftRight_zero, show (0 : UInt64).toNat = 0 from rfl, Nat.pow_zero, Nat.div_one]
    at low

/-- The two bytes of a length are its digits. -/
theorem shortLength_eq (len : UInt64) :
    [((len >>> 8) &&& 0xff).toUInt8, (len &&& 0xff).toUInt8] = digits 2 len.toNat := by
  rw [shiftedByte_eq len 8 (by decide), lowByte_eq]
  rfl

/-- The low five of the eight bytes of a length are its digits. -/
theorem longLength_eq (len : UInt64) :
    [((len >>> 32) &&& 0xff).toUInt8, ((len >>> 24) &&& 0xff).toUInt8,
      ((len >>> 16) &&& 0xff).toUInt8, ((len >>> 8) &&& 0xff).toUInt8,
      (len &&& 0xff).toUInt8] = digits 5 len.toNat := by
  rw [shiftedByte_eq len 8 (by decide), shiftedByte_eq len 16 (by decide),
    shiftedByte_eq len 24 (by decide), shiftedByte_eq len 32 (by decide), lowByte_eq]
  simp only [digits, Nat.div_div_eq_div_mul, List.nil_append, List.cons_append]
  rfl

/-- The bytes of a length tell the length below `2 ^ 40`. -/
theorem lengthForm_spec (len : UInt64) :
    (len < 126 ∧ lengthForm len = (len.toUInt8, []) ∧ len.toUInt8.toNat = len.toNat) ∨
      (126 ≤ len ∧ len ≤ 0xffff ∧ (lengthForm len).1 = 126 ∧ (lengthForm len).2.length = 2 ∧
        value (lengthForm len).2 = len.toNat) ∨
      (0xffff < len ∧ (lengthForm len).1 = 127 ∧ (lengthForm len).2.length = 8 ∧
        value (lengthForm len).2 = len.toNat % 2 ^ 40) := by
  rw [lengthForm]
  by_cases short : len < 126
  · left
    rw [if_pos short]
    have bound := UInt64.lt_iff_toNat_lt.mp short
    refine ⟨short, rfl, ?_⟩
    rw [UInt64.toNat_toUInt8, Nat.mod_eq_of_lt]
    exact bound.trans (by decide)
  · rw [if_neg short]
    right
    by_cases medium : len ≤ 0xffff
    · left
      rw [if_pos medium, shortLength_eq]
      have bound := UInt64.le_iff_toNat_le.mp medium
      refine ⟨UInt64.not_lt.mp short, medium, rfl, length_digits 2 _, ?_⟩
      exact value_digits_of_lt (Nat.lt_of_le_of_lt bound (by decide))
    · right
      rw [if_neg medium, longLength_eq]
      have bytes := length_digits 5 len.toNat
      have number := value_digits 5 len.toNat
      generalize digits 5 len.toNat = bytes' at bytes number
      refine ⟨UInt64.not_le.mp medium, rfl, ?_, ?_⟩
      · show bytes'.length + 3 = 8
        rw [bytes]
      · show value bytes' = _
        rw [number]
        rfl

/-- The length byte and the mask bit do not disturb each other. -/
theorem lengthByte_bits (ws : WebSocketFrame) (l : UInt8) (small : l < 128) :
    (l ||| ws.maskBit) &&& 0x7f = l ∧ ((l ||| ws.maskBit) &&& 0x80 ≠ 0 ↔ ws.mask ≠ 0) := by
  have bits : ∀ l : UInt8, l < 128 → (l ||| 0x80) &&& 0x7f = l ∧ (l ||| 0x80) &&& 0x80 ≠ 0 ∧
      (l ||| 0) &&& 0x7f = l ∧ (l ||| 0) &&& 0x80 = 0 := by
    apply forall_byte
    decide +kernel
  obtain ⟨low, set, low', clear⟩ := bits l small
  by_cases masked : ws.mask ≠ 0
  · rw [maskBit, if_pos masked]
    exact ⟨low, iff_of_true set masked⟩
  · rw [maskBit, if_neg masked]
    exact ⟨low', iff_of_false (not_not.mpr clear) masked⟩

theorem firstByte_bits (ws : WebSocketFrame) (opcode : ws.opcode < 16) :
    ws.firstByte &&& 0xf = ws.opcode ∧ decide (ws.firstByte &&& 0x80 ≠ 0) = ws.fin := by
  have bits (fin : Bool) : ∀ op : UInt8, op < 16 →
      ((if fin then 0x80 else 0) ||| op) &&& 0xf = op ∧
        decide (((if fin then 0x80 else 0) ||| op) &&& 0x80 ≠ 0) = fin := by
    apply forall_byte
    cases fin <;> decide +kernel
  exact bits ws.fin ws.opcode opcode

theorem maskOfBytes_maskBytes (mask : UInt32) : maskOfBytes (maskBytes mask) = mask := by
  rw [maskOfBytes, maskBytes, List.reverse_reverse, value_digits_of_lt mask.toNat_lt,
    UInt32.ofNat_toNat]

theorem length_keyPart (ws : WebSocketFrame) :
    ws.keyPart.length = if ws.mask ≠ 0 then 4 else 0 := by
  rw [keyPart]
  split
  · rw [maskBytes, List.length_reverse, length_digits]
  · rfl

/-- The parts of a header are found where they were written. -/
theorem header_parts (ws : WebSocketFrame) (x l : UInt8) (lenBytes rest : Bytes) (small : l < 128)
    (offset : (if l = 126 then 4 else if l = 127 then 10 else 2) = lenBytes.length + 2) :
    let buf := x :: (l ||| ws.maskBit) :: (lenBytes ++ (ws.keyPart ++ rest))
    headerLength buf = lenBytes.length + 2 + ws.keyPart.length ∧
      declaredLength buf = (if l = 126 ∨ l = 127 then value lenBytes else l.toNat) ∧
      (if Masked buf then key buf else 0) = ws.mask := by
  intro buf
  obtain ⟨low, bit⟩ := ws.lengthByte_bits l small
  have byte : lengthByte buf = l := low
  have masked : Masked buf ↔ ws.mask ≠ 0 := bit
  have keyAt : keyOffset buf = lenBytes.length + 2 := by
    rw [keyOffset, byte, offset]
  refine ⟨?_, ?_, ?_⟩
  · rw [headerLength, keyAt, length_keyPart]
    simp only [masked]
  · rw [declaredLength, byte, keyAt, Nat.add_sub_cancel]
    show (if _ then value ((lenBytes ++ (ws.keyPart ++ rest)).take lenBytes.length) else _) = _
    rw [List.take_left' rfl]
  · simp only [masked]
    split
    · rename_i mask
      have behind : buf.drop (lenBytes.length + 2) = maskBytes ws.mask ++ rest := by
        show (lenBytes ++ (ws.keyPart ++ rest)).drop lenBytes.length = _
        rw [List.drop_left' rfl, keyPart, if_pos mask]
      have four : (maskBytes ws.mask).length = 4 := by
        rw [maskBytes, List.length_reverse, length_digits]
      rw [key, keyAt, behind, List.take_left' four, maskOfBytes_maskBytes]
    · rename_i mask
      exact (not_not.mp mask).symm

/-- An encoded frame with anything behind it has the header of the frame. -/
theorem encode_header {ws : WebSocketFrame} (notClose : ws.opcode ≠ wsClose) (rest : Bytes) :
    headerLength (ws.encode ++ rest) = ws.encode.length ∧
      ws.encode.length = ws.hdrSize.toNat ∧
      declaredLength (ws.encode ++ rest) = ws.payloadLen.toNat % 2 ^ 40 ∧
      (if Masked (ws.encode ++ rest) then key (ws.encode ++ rest) else 0) = ws.mask := by
  have keyPart := ws.length_keyPart
  have size : ws.hdrSize.toNat = ws.keyPart.length +
      if ws.payloadLen < 126 then 2 else if ws.payloadLen ≤ 0xffff then 4 else 10 := by
    rw [hdrSize, if_neg notClose, keyPart]
    split <;> split <;> (try split) <;> rfl
  rw [encode_eq notClose, size]
  simp only [List.cons_append, List.append_assoc, List.length_cons, List.length_append]
  have form := lengthForm_spec ws.payloadLen
  generalize lengthForm ws.payloadLen = form' at form
  obtain ⟨l, lenBytes⟩ := form'
  rcases form with ⟨short, same, len⟩ | ⟨above, medium, byte, two, len⟩ |
      ⟨long, byte, eight, len⟩
  · cases same
    have bound := UInt64.lt_iff_toNat_lt.mp short
    have below : ws.payloadLen.toUInt8.toNat < 126 := by
      rw [len]
      exact bound
    have small : ws.payloadLen.toUInt8 < 128 := UInt8.lt_iff_toNat_lt.mpr (below.trans (by decide))
    have not126 : ws.payloadLen.toUInt8 ≠ 126 := by
      intro same
      rw [same] at below
      exact absurd below (by decide)
    have not127 : ws.payloadLen.toUInt8 ≠ 127 := by
      intro same
      rw [same] at below
      exact absurd below (by decide)
    obtain ⟨header, declared, mask⟩ := header_parts ws ws.firstByte ws.payloadLen.toUInt8 [] rest
      small (by rw [if_neg not126, if_neg not127]; rfl)
    rw [if_pos short]
    refine ⟨?_, ?_, ?_, mask⟩
    · rw [header]
      simp only [List.length_nil]
      omega
    · simp only [List.length_nil]
      omega
    · rw [declared, if_neg (by simp [not126, not127]), len, Nat.mod_eq_of_lt]
      exact bound.trans (by decide)
  · simp only at byte two len
    subst byte
    dsimp only
    obtain ⟨header, declared, mask⟩ := header_parts ws ws.firstByte 126 lenBytes rest
      (by decide) (by rw [two]; rfl)
    have bound := UInt64.le_iff_toNat_le.mp medium
    rw [if_neg (UInt64.not_lt.mpr above), if_pos medium]
    refine ⟨?_, ?_, ?_, mask⟩
    · rw [header]
      omega
    · omega
    · rw [declared, if_pos (.inl rfl), len, Nat.mod_eq_of_lt]
      exact Nat.lt_of_le_of_lt bound (by decide)
  · simp only at byte eight len
    subst byte
    dsimp only
    obtain ⟨header, declared, mask⟩ := header_parts ws ws.firstByte 127 lenBytes rest
      (by decide) (by rw [eight]; rfl)
    have notShort : ¬ws.payloadLen < 126 := by
      intro short
      exact absurd (UInt64.lt_trans long short) (by decide)
    rw [if_neg notShort, if_neg (UInt64.not_le.mpr long)]
    refine ⟨?_, ?_, ?_, mask⟩
    · rw [header]
      omega
    · omega
    · rw [declared, if_pos (.inr rfl), len]

/-- A frame is read back from its bytes, and not from fewer of them. -/
structure RoundTrips (ws : WebSocketFrame) : Prop where
  size : ws.encode.length = ws.hdrSize.toNat
  decoded : ∀ before rest, decode before (ws.encode ++ rest) = (ws.encode.length, ws)
  short : ∀ before n, n < ws.encode.length → (decode before (ws.encode.take n)).1 = 0

theorem getD_encode {ws : WebSocketFrame} (notClose : ws.opcode ≠ wsClose) (rest : Bytes) :
    (ws.encode ++ rest).getD 0 0 = ws.firstByte := by
  rw [encode_eq notClose]
  rfl

/-- The decoder returns an opcode of four bits. -/
theorem decode_opcode (before : WebSocketFrame) (x : UInt8) (rest : Bytes) :
    (decode before (x :: rest)).2.opcode = x &&& 0xf := by
  have masked (ws : WebSocketFrame) (buf : Bytes) (i : Nat) :
      (decodeMask ws buf i).2.opcode = ws.opcode := by
    rw [decodeMask]
    split
    · split <;> rfl
    · rfl
  unfold decode
  dsimp only
  split
  · rfl
  · split
    · rfl
    · repeat' split
      all_goals first | rfl | exact masked _ _ _

/-- A header needs two bytes, and is told by its first two. -/
theorem two_le_headerLength (buf : Bytes) : 2 ≤ headerLength buf := by
  rw [headerLength, keyOffset]
  split
  · omega
  · split <;> omega

theorem headerLength_take (buf : Bytes) {n : Nat} (two : 2 ≤ n) :
    headerLength (buf.take n) = headerLength buf := by
  have second : (buf.take n).getD 1 0 = buf.getD 1 0 := by
    rw [List.getD_eq_getElem?_getD, List.getElem?_take_of_lt (by omega),
      List.getD_eq_getElem?_getD]
  have masked : Masked (buf.take n) ↔ Masked buf := by
    rw [Masked, Masked, second]
  have byte : lengthByte (buf.take n) = lengthByte buf := by
    rw [lengthByte, lengthByte, second]
  have keyAt : keyOffset (buf.take n) = keyOffset buf := by
    rw [keyOffset, keyOffset, byte]
  rw [headerLength, headerLength, keyAt]
  simp only [masked]

theorem headerFrame_encode {ws : WebSocketFrame} (notClose : ws.opcode ≠ wsClose)
    (opcode : ws.opcode < 16) (rest : Bytes) :
    headerFrame (ws.encode ++ rest) =
      { ws with payloadLen := UInt64.ofNat (ws.payloadLen.toNat % 2 ^ 40) } := by
  obtain ⟨-, -, declared, mask⟩ := encode_header notClose rest
  obtain ⟨code, fin⟩ := ws.firstByte_bits opcode
  rw [headerFrame, declared, mask, getD_encode notClose, code, fin]

theorem toNat_low (len : UInt64) : (UInt64.ofNat (len.toNat % 2 ^ 40)).toNat =
    len.toNat % 2 ^ 40 := by
  rw [UInt64.toNat_ofNat', Nat.mod_eq_of_lt]
  omega

/-- A frame is read back exactly when its opcode has four bits and its length has forty. -/
theorem roundTrips_iff {ws : WebSocketFrame} (notClose : ws.opcode ≠ wsClose) :
    RoundTrips ws ↔ ws.opcode < 16 ∧ ws.payloadLen.toNat < 2 ^ 40 := by
  have decoded (opcode : ws.opcode < 16) (before : WebSocketFrame) (rest : Bytes) :
      decode before (ws.encode ++ rest) = (ws.encode.length,
        { ws with payloadLen := UInt64.ofNat (ws.payloadLen.toNat % 2 ^ 40) }) := by
    obtain ⟨header, -, -, -⟩ := encode_header notClose rest
    obtain ⟨bits, -⟩ := ws.firstByte_bits opcode
    have isOpen : (ws.encode ++ rest).getD 0 0 &&& 0xf ≠ wsClose := by
      rw [getD_encode notClose, bits]
      exact notClose
    rw [(decode_header before isOpen).2 (by rw [header, List.length_append]; omega), header,
      headerFrame_encode notClose opcode]
  constructor
  · intro trips
    have whole := trips.decoded ws []
    have opcode : ws.opcode < 16 := by
      have four : ∀ b : UInt8, b &&& 0xf < 16 := by
        intro b
        rw [UInt8.lt_iff_toNat_lt, UInt8.toNat_and]
        exact Nat.lt_of_le_of_lt Nat.and_le_right (by decide)
      have same := congrArg (fun result => result.2.opcode) whole
      rw [encode_eq notClose, List.cons_append, decode_opcode] at same
      exact same ▸ four _
    rw [decoded opcode] at whole
    have payload := congrArg (fun result => result.2.payloadLen.toNat) whole
    simp only [toNat_low] at payload
    refine ⟨opcode, ?_⟩
    omega
  · rintro ⟨opcode, small⟩
    obtain ⟨header, size, -, -⟩ := encode_header notClose []
    rw [List.append_nil] at header
    refine ⟨size, fun before rest => ?_, fun before n less => ?_⟩
    · rw [decoded opcode, Nat.mod_eq_of_lt small, UInt64.ofNat_toNat]
    · have length : (ws.encode.take n).length = n := by
        rw [List.length_take]
        omega
      have need : (ws.encode.take n).length < headerLength (ws.encode.take n) := by
        rw [length]
        by_cases two : 2 ≤ n
        · rw [headerLength_take _ two, header]
          exact less
        · exact Nat.lt_of_lt_of_le (Nat.lt_of_not_le two) (two_le_headerLength _)
      have isOpen : (ws.encode.take n).getD 0 0 &&& 0xf ≠ wsClose := by
        cases n with
        | zero =>
            rw [List.take_zero]
            decide
        | succ n =>
            obtain ⟨bits, -⟩ := ws.firstByte_bits opcode
            rw [encode_eq notClose, List.take_succ_cons]
            show ws.firstByte &&& 0xf ≠ wsClose
            rw [bits]
            exact notClose
      exact (decode_header before isOpen).1 need

/-- The length of a header is written in the shortest form. -/
structure Minimal (buf : Bytes) : Prop where
  two : lengthByte buf = 126 → 126 ≤ declaredLength buf
  eight : lengthByte buf = 127 → 0xffff < declaredLength buf

/-- The bytes of the key are zero although the mask bit is set. -/
def ZeroKey (buf : Bytes) : Prop := Masked buf ∧ key buf = 0

/-- The sizes of a decoded frame are those of its header and its payload. -/
structure Measures (n : Nat) (ws : WebSocketFrame) : Prop where
  header : ws.hdrSize.toNat = n
  frame : ws.frameSize.toNat = n + ws.payloadLen.toNat

/-- A decoded header has its length and its frame. -/
theorem decode_accepted {before : WebSocketFrame} {buf : Bytes}
    (accepted : (decode before buf).1 ≠ 0) (notClose : (decode before buf).2.opcode ≠ wsClose) :
    decode before buf = (headerLength buf, headerFrame buf) := by
  cases buf with
  | nil => exact absurd rfl accepted
  | cons x rest =>
      rw [decode_opcode] at notClose
      have isOpen : (x :: rest).getD 0 0 &&& 0xf ≠ wsClose := notClose
      obtain ⟨short, complete⟩ := decode_header before isOpen
      by_cases enough : headerLength (x :: rest) ≤ (x :: rest).length
      · exact complete enough
      · exact absurd (short (Nat.lt_of_not_le enough)) accepted

theorem lengthByte_lt (buf : Bytes) : (lengthByte buf).toNat < 128 := by
  rw [lengthByte, UInt8.toNat_and]
  exact Nat.lt_of_le_of_lt Nat.and_le_right (by decide)

theorem declaredLength_lt (buf : Bytes) : declaredLength buf < 2 ^ 64 := by
  rw [declaredLength]
  split
  · have bound := value_lt ((buf.drop 2).take (keyOffset buf - 2))
    have eight : ((buf.drop 2).take (keyOffset buf - 2)).length ≤ 8 := by
      rw [List.length_take, keyOffset]
      split
      · omega
      · split <;> omega
    calc value ((buf.drop 2).take (keyOffset buf - 2))
        < 256 ^ ((buf.drop 2).take (keyOffset buf - 2)).length := bound
      _ ≤ 256 ^ 8 := Nat.pow_le_pow_right (by decide) eight
      _ = 2 ^ 64 := by decide
  · exact (lengthByte_lt buf).trans (by decide)

theorem payloadLen_headerFrame (buf : Bytes) :
    (headerFrame buf).payloadLen.toNat = declaredLength buf := by
  show (UInt64.ofNat _).toNat = _
  rw [UInt64.toNat_ofNat', Nat.mod_eq_of_lt (declaredLength_lt buf)]

/-- The length form of a minimal header is the one of its length. -/
theorem keyOffset_minimal {buf : Bytes} (minimal : Minimal buf) :
    keyOffset buf = if (headerFrame buf).payloadLen < 126 then 2
      else if (headerFrame buf).payloadLen ≤ 0xffff then 4 else 10 := by
  have short : (headerFrame buf).payloadLen < 126 ↔ declaredLength buf < 126 := by
    rw [UInt64.lt_iff_toNat_lt, payloadLen_headerFrame]
    rfl
  have medium : (headerFrame buf).payloadLen ≤ 0xffff ↔ declaredLength buf ≤ 0xffff := by
    rw [UInt64.le_iff_toNat_le, payloadLen_headerFrame]
    rfl
  simp only [short, medium]
  rw [keyOffset]
  split
  · rename_i two
    have above := minimal.two two
    have bound := value_lt ((buf.drop 2).take (keyOffset buf - 2))
    have below : declaredLength buf ≤ 0xffff := by
      have length : ((buf.drop 2).take (keyOffset buf - 2)).length ≤ 2 := by
        rw [List.length_take, keyOffset, if_pos two]
        omega
      have power := Nat.pow_le_pow_right (by decide : 0 < 256) length
      rw [declaredLength, if_pos (.inl two)]
      omega
    rw [if_neg (by omega), if_pos below]
  · rename_i notTwo
    split
    · rename_i eight
      have above := minimal.eight eight
      rw [if_neg (by omega), if_neg (by omega)]
    · rename_i notEight
      have below : declaredLength buf < 126 := by
        have bound := lengthByte_lt buf
        have not126 : (lengthByte buf).toNat ≠ 126 := fun same =>
          notTwo (UInt8.toNat_inj.mp same)
        have not127 : (lengthByte buf).toNat ≠ 127 := fun same =>
          notEight (UInt8.toNat_inj.mp same)
        rw [declaredLength, if_neg (not_or.mpr ⟨notTwo, notEight⟩)]
        omega
      rw [if_pos below]

/-- The header of a minimal length has the size of its frame unless its key is zero. -/
theorem hdrSize_headerFrame {buf : Bytes} (minimal : Minimal buf)
    (isOpen : (headerFrame buf).opcode ≠ wsClose) :
    (headerFrame buf).hdrSize.toNat = headerLength buf ↔ ¬ZeroKey buf := by
  have size : (headerFrame buf).hdrSize.toNat =
      (if (headerFrame buf).mask ≠ 0 then 4 else 0) + keyOffset buf := by
    rw [keyOffset_minimal minimal, hdrSize, if_neg isOpen]
    split <;> split <;> (try split) <;> rfl
  rw [size, headerLength, ZeroKey]
  by_cases masked : Masked buf
  · have mask : (headerFrame buf).mask = key buf := if_pos masked
    rw [mask, if_pos masked]
    by_cases zero : key buf = 0
    · rw [if_neg (not_not.mpr zero)]
      exact iff_of_false (by omega) (not_not.mpr ⟨masked, zero⟩)
    · rw [if_pos zero]
      exact iff_of_true (by omega) fun both => zero both.2
  · have mask : (headerFrame buf).mask = 0 := if_neg masked
    rw [mask, if_neg masked]
    exact iff_of_true (by simp) fun both => masked both.1

theorem measures_iff {before : WebSocketFrame} {buf : Bytes}
    (accepted : (decode before buf).1 ≠ 0) (notClose : (decode before buf).2.opcode ≠ wsClose)
    (minimal : Minimal buf) :
    Measures (decode before buf).1 (decode before buf).2 ↔
      ¬ZeroKey buf ∧ headerLength buf + declaredLength buf < 2 ^ 64 := by
  have same := decode_accepted accepted notClose
  rw [same] at notClose ⊢
  have header := hdrSize_headerFrame minimal notClose
  have payload := payloadLen_headerFrame buf
  have frame : (headerFrame buf).frameSize.toNat =
      ((headerFrame buf).hdrSize.toNat + declaredLength buf) % 2 ^ 64 := by
    rw [frameSize, UInt64.toNat_add, UInt32.toNat_toUInt64, payload]
  constructor
  · rintro ⟨size, sum⟩
    refine ⟨header.mp size, ?_⟩
    dsimp only at size sum
    rw [frame, payload, size] at sum
    rw [← sum]
    exact Nat.mod_lt _ (by decide)
  · rintro ⟨noZero, small⟩
    have size := header.mpr noZero
    refine ⟨size, ?_⟩
    rw [frame, payload, size, Nat.mod_eq_of_lt small]

end WebSocketFrame

section Main
open WebSocketFrame

/-- A frame is read back exactly when its opcode has four bits and its length has forty, and the
sizes of a decoded frame are right exactly when its key is not zero and its end has 64 bits. -/
theorem webSocketFrame_iff (ws before : WebSocketFrame) (buf : Bytes) :
    (ws.opcode ≠ wsClose →
      (RoundTrips ws ↔ ws.opcode < 16 ∧ ws.payloadLen.toNat < 2 ^ 40)) ∧
    ((decode before buf).1 ≠ 0 → (decode before buf).2.opcode ≠ wsClose → Minimal buf →
      (Measures (decode before buf).1 (decode before buf).2 ↔
        ¬ZeroKey buf ∧ headerLength buf + declaredLength buf < 2 ^ 64)) := by
  constructor
  · intro notClose
    exact roundTrips_iff notClose
  · intro accepted notClose minimal
    exact measures_iff accepted notClose minimal

end Main

section Examples
open WebSocketFrame

/-- A masked text frame of three bytes. -/
def maskedText : WebSocketFrame := ⟨3, 0x04030201, 1, true⟩

theorem webSocketFrame_maskedText :
    RoundTrips maskedText ∧
      Measures (decode maskedText [0x81, 0x83, 1, 2, 3, 4]).1
        (decode maskedText [0x81, 0x83, 1, 2, 3, 4]).2 := by
  constructor
  · exact ((webSocketFrame_iff maskedText maskedText []).1 (by decide)).mpr (by decide)
  · refine ((webSocketFrame_iff maskedText maskedText [0x81, 0x83, 1, 2, 3, 4]).2
      (by decide +kernel) (by decide +kernel) ?_).mpr ?_
    · constructor
      · intro two
        exact absurd two (by decide +kernel)
      · intro eight
        exact absurd eight (by decide +kernel)
    · constructor
      · rintro ⟨-, zero⟩
        exact absurd zero (by decide +kernel)
      · decide +kernel

/-- A frame of `2 ^ 40` bytes is written as an empty one. -/
theorem not_webSocketFrame_long :
    ¬((∀ ws : WebSocketFrame, ws.opcode ≠ wsClose → ws.opcode < 16 →
        ws.payloadLen.toNat < 2 ^ 63 → RoundTrips ws) ∧
      ∀ (before : WebSocketFrame) (buf : Bytes), (decode before buf).1 ≠ 0 →
        (decode before buf).2.opcode ≠ wsClose → Minimal buf →
        Measures (decode before buf).1 (decode before buf).2) := by
  rintro ⟨trips, -⟩
  have long := trips ⟨2 ^ 40, 0, 2, true⟩ (by decide) (by decide) (by decide)
  exact absurd ((roundTrips_iff (by decide)).mp long).2 (by decide)

end Examples

end Raids
