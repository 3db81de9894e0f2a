import Raids.Construction.Cmd.KeyGeometry
import Raids.Proof.WebSocket.Input

namespace Raids
open BigEndian IncrementalParser

section Feed

variable {mem : JsonMem}

/-- The loop over the commands runs after each payload. -/
def feedWsmsg (mem : JsonMem) :
    Bytes → List Bytes → List (Event RedisMsg RedisMsgStatus) × Bytes
  | pending, [] => ([], pending)
  | pending, data :: later =>
      let done := processWsmsg mem (pending ++ data)
      let rest := feedWsmsg mem done.2 later
      (done.1 ++ rest.1, rest.2)

/-- No payload is cut at a place where the parser of JSON does not wait for more. -/
def WholeTokens (mem : JsonMem) : Bytes → List Bytes → Prop
  | _, [] => True
  | pending, data :: later =>
      ¬CutAt (lastRound mem (pending ++ data)) later.flatten ∧
        WholeTokens mem (processWsmsg mem (pending ++ data)).2 later

theorem feedWsmsg_append (pending : Bytes) (first second : List Bytes) :
    feedWsmsg mem pending (first ++ second) =
      ((feedWsmsg mem pending first).1 ++ (feedWsmsg mem (feedWsmsg mem pending first).2 second).1,
        (feedWsmsg mem (feedWsmsg mem pending first).2 second).2) := by
  induction first generalizing pending with
  | nil => rfl
  | cons data first ih =>
      rw [List.cons_append, feedWsmsg, feedWsmsg, ih]
      simp only [List.append_assoc]

/-- Two event lists are alike up to the first error; after an error nothing is said. -/
theorem upToError_append_left {first second third : List (Event RedisMsg RedisMsgStatus)}
    (same : upToError second = upToError third) :
    upToError (first ++ second) = upToError (first ++ third) := by
  rw [upToError_append, upToError_append, same]

/-- Payloads that are not cut inside a token give the commands of their stream. -/
theorem feedWsmsg_eq (pending : Bytes) (payloads : List Bytes)
    (waits : processWsmsg mem pending = ([], pending)) (whole : WholeTokens mem pending payloads) :
    upToError (feedWsmsg mem pending payloads).1 =
      upToError (processWsmsg mem (pending ++ payloads.flatten)).1 ∧
    ((upToError (processWsmsg mem (pending ++ payloads.flatten)).1).2 = none →
      (feedWsmsg mem pending payloads).2 =
        (processWsmsg mem (pending ++ payloads.flatten)).2) := by
  induction payloads generalizing pending with
  | nil =>
      rw [List.flatten_nil, List.append_nil, waits]
      exact ⟨rfl, fun _ => rfl⟩
  | cons data later ih =>
      obtain ⟨token, further⟩ := whole
      obtain ⟨events, left⟩ := processWsmsg_append (pending ++ data) later.flatten token
      obtain ⟨events', left'⟩ := ih _ (processWsmsg_pending (pending ++ data)) further
      rw [List.flatten_cons, ← List.append_assoc, feedWsmsg]
      constructor
      · rw [← events]
        exact upToError_append_left events'
      · intro noError
        rw [← left noError]
        apply left'
        rw [← events, upToError_append] at noError
        cases failed : (upToError (processWsmsg mem (pending ++ data)).1).2 with
        | some status =>
            rw [failed] at noError
            cases noError
        | none =>
            rw [failed] at noError
            exact noError

end Feed

/-- A frame of a client, with its header in any form and the payload that it carries. -/
structure WireFrame where
  header : Bytes
  payload : Bytes
  opened : header.getD 0 0 &&& 0xf ≠ wsClose
  whole : WebSocketFrame.headerLength header = header.length
  length : WebSocketFrame.declaredLength header = payload.length
  limit : payload.length ≤ maxPayload

namespace WireFrame

def ws (frame : WireFrame) : WebSocketFrame := WebSocketFrame.headerFrame frame.header

/-- The payload as it is sent. -/
def body (frame : WireFrame) : Bytes :=
  if frame.ws.mask ≠ 0 then frame.payload.mapIdx fun i c => c ^^^ maskAt frame.ws.mask i
  else frame.payload

def wire (frame : WireFrame) : Bytes := frame.header ++ frame.body

def IsControl (frame : WireFrame) : Prop := frame.ws.opcode = wsPing ∨ frame.ws.opcode = wsPong

instance (frame : WireFrame) : Decidable frame.IsControl := inferInstanceAs (Decidable (_ ∨ _))

/-- The bytes of the command stream that a frame carries. -/
def data (frame : WireFrame) : Bytes := if frame.IsControl then [] else frame.payload

variable (frame : WireFrame)

theorem length_body : frame.body.length = frame.payload.length := by
  unfold body
  split
  · rw [List.length_mapIdx]
  · rfl

theorem unmask_body : frame.ws.unmask frame.body = frame.payload := by
  unfold WebSocketFrame.unmask body
  split
  · rename_i masked
    exact applyMask_mapIdx _ _
  · rfl

theorem two_le_header : 2 ≤ frame.header.length := by
  rw [← frame.whole]
  exact WebSocketFrame.two_le_headerLength _

end WireFrame

namespace WebSocketFrame

/-- More bytes behind a whole header do not change it. -/
theorem headerFrame_append {header : Bytes} (whole : headerLength header = header.length)
    (more : Bytes) :
    headerLength (header ++ more) = header.length ∧
      headerFrame (header ++ more) = headerFrame header := by
  have two : 2 ≤ header.length := whole ▸ two_le_headerLength header
  have first : (header ++ more).getD 0 0 = header.getD 0 0 := by
    rw [List.getD_eq_getElem?_getD, List.getElem?_append_left (by omega),
      List.getD_eq_getElem?_getD]
  have second : (header ++ more).getD 1 0 = header.getD 1 0 := by
    rw [List.getD_eq_getElem?_getD, List.getElem?_append_left (by omega),
      List.getD_eq_getElem?_getD]
  have byte : lengthByte (header ++ more) = lengthByte header := by
    rw [lengthByte, lengthByte, second]
  have masked : Masked (header ++ more) ↔ Masked header := by
    rw [Masked, Masked, second]
  have keyAt : keyOffset (header ++ more) = keyOffset header := by
    rw [keyOffset, keyOffset, byte]
  have size : headerLength (header ++ more) = header.length := by
    rw [headerLength, keyAt]
    simp only [masked]
    exact whole
  have bound : keyOffset header ≤ header.length := by
    rw [← whole, headerLength]
    exact Nat.le_add_right _ _
  have declared : declaredLength (header ++ more) = declaredLength header := by
    have field : ((header ++ more).drop 2).take (keyOffset header - 2) =
        (header.drop 2).take (keyOffset header - 2) := by
      rw [List.drop_append_of_le_length two, List.take_append_of_le_length]
      rw [List.length_drop]
      omega
    rw [declaredLength, declaredLength, byte, keyAt, field]
  have keys : Masked header → key (header ++ more) = key header := by
    intro isMasked
    have four : keyOffset header + 4 = header.length := by
      rw [← whole, headerLength, if_pos isMasked]
    rw [key, key, keyAt, List.drop_append_of_le_length bound, List.take_append_of_le_length]
    rw [List.length_drop]
    omega
  refine ⟨size, ?_⟩
  unfold headerFrame
  rw [declared, first]
  simp only [masked]
  congr 1
  split
  · rename_i isMasked
    exact keys isMasked
  · rfl

end WebSocketFrame

section Buffer

variable {realloc : Nat → Bool} (granted : ∀ size, realloc size = true)

namespace WsBuffer

theorem put_fits {b : WsBuffer} {payload : Bytes} (fuel : Nat)
    (fits : b.wsbuf.length + payload.length ≤ b.wsalloc) :
    ∃ b', b.put realloc (fuel + 1) payload = some b' ∧ b'.unread = b.unread ++ payload := by
  rw [put, dif_pos fits]
  exact ⟨_, rfl, List.drop_append_of_le_length b.inside⟩

include granted in
/-- A buffer that starts at its front is grown at most once. -/
theorem put_front {b : WsBuffer} {payload : Bytes} (fuel : Nat) (front : b.wsoff = 0) :
    ∃ b', b.put realloc (fuel + 2) payload = some b' ∧ b'.unread = b.unread ++ payload := by
  by_cases fits : b.wsbuf.length + payload.length ≤ b.wsalloc
  · exact put_fits (fuel + 1) fits
  · rw [put, dif_neg fits, if_neg (by omega)]
    simp only [granted, if_true]
    exact put_fits fuel (le_align _)

include granted in
/-- The payload goes behind the bytes that are not taken; none of them is lost or doubled. -/
theorem append_spec (b : WsBuffer) (payload : Bytes) :
    ∃ b', b.append realloc payload = some b' ∧ b'.unread = b.unread ++ payload := by
  unfold append
  by_cases fits : b.wsbuf.length + payload.length ≤ b.wsalloc
  · exact put_fits 2 fits
  · by_cases front : b.wsoff = 0
    · exact put_front granted 1 front
    · rw [put, dif_neg fits, if_pos (by omega)]
      exact put_front granted 0 rfl

/-- The bytes that are left are a part of the unread ones at their end. -/
theorem unread_leave {b : WsBuffer} {rest : Bytes} (suffix : rest <:+ b.unread) :
    (b.leave rest).unread = rest := by
  obtain ⟨taken, split⟩ := suffix
  have whole := List.take_append_drop b.wsoff b.wsbuf
  rw [show b.wsbuf.drop b.wsoff = b.unread from rfl, ← split, ← List.append_assoc] at whole
  show b.wsbuf.drop (b.wsbuf.length - rest.length) = rest
  rw [← whole, List.length_append, Nat.add_sub_cancel_right, List.drop_left]

end WsBuffer

/-- The loop leaves an end of its buffer. -/
theorem processWsmsg_suffix {mem : JsonMem} (p : Bytes) : (processWsmsg mem p).2 <:+ p := by
  induction p using processWsmsg_induction with
  | nil => exact List.suffix_rfl
  | blank c rest blank ih =>
      rw [processWsmsg_blank blank]
      exact ih.trans (List.suffix_cons c rest)
  | stop c rest status other read =>
      by_cases isError : status = .partialValue
      · subst isError
        rw [processWsmsg_unfinished other read]
      · rw [processWsmsg_error other read isError]
        exact List.nil_suffix
  | command c rest m size other read ih =>
      rw [processWsmsg_command other read]
      exact ih.trans (List.drop_suffix size _)

/-- The buffer of an executed connection has the bytes that the loop leaves. -/
theorem unread_execute (mem : WsMem) (conn : WsConnection) :
    (conn.execute mem).buf.unread = (processWsmsg mem.msg conn.buf.unread).2 :=
  WsBuffer.unread_leave (processWsmsg_suffix _)

end Buffer

section Frames

variable {mem : WsMem} {conn : WsConnection} {frame : WireFrame}

theorem opened_append {header : Bytes} (opened : header.getD 0 0 &&& 0xf ≠ wsClose)
    (nonempty : header ≠ []) (more : Bytes) : (header ++ more).getD 0 0 &&& 0xf ≠ wsClose := by
  cases header with
  | nil => exact absurd rfl nonempty
  | cons c header => exact opened

/-- A whole header is decoded as the frame that it describes. -/
theorem decode_frame (frame : WireFrame) (before : WebSocketFrame) (more : Bytes) :
    WebSocketFrame.decode before (frame.header ++ more) = (frame.header.length, frame.ws) := by
  have two := frame.two_le_header
  have nonempty : frame.header ≠ [] := fun empty => by rw [empty, List.length_nil] at two; omega
  obtain ⟨size, same⟩ := WebSocketFrame.headerFrame_append frame.whole more
  rw [(WebSocketFrame.decode_header before (opened_append frame.opened nonempty more)).2
    (by rw [size, List.length_append]; omega), size, same]
  rfl

/-- A part of a header is not decoded. -/
theorem decode_part (frame : WireFrame) (before : WebSocketFrame) {count : Nat}
    (short : count < frame.header.length) :
    (WebSocketFrame.decode before (frame.header.take count)).1 = 0 := by
  have length : (frame.header.take count).length = count := by
    rw [List.length_take]
    omega
  have opened : (frame.header.take count).getD 0 0 &&& 0xf ≠ wsClose := by
    cases count with
    | zero =>
        rw [List.take_zero]
        decide
    | succ count =>
        rw [List.getD_eq_getElem?_getD, List.getElem?_take_of_lt (by omega),
          ← List.getD_eq_getElem?_getD]
        exact frame.opened
  apply (WebSocketFrame.decode_header before opened).1
  rw [length]
  by_cases two : 2 ≤ count
  · rw [WebSocketFrame.headerLength_take _ two, frame.whole]
    exact short
  · exact Nat.lt_of_lt_of_le (Nat.lt_of_not_le two) (WebSocketFrame.two_le_headerLength _)

theorem toNat_payloadLen (frame : WireFrame) :
    frame.ws.payloadLen.toNat = frame.payload.length := by
  have limit := frame.limit
  unfold maxPayload at limit
  show (UInt64.ofNat (WebSocketFrame.declaredLength frame.header)).toNat = _
  rw [frame.length, UInt64.toNat_ofNat', Nat.mod_eq_of_lt]
  omega

theorem length_wire (frame : WireFrame) :
    frame.wire.length = frame.header.length + frame.payload.length := by
  rw [WireFrame.wire, List.length_append, frame.length_body]

/-- A whole frame at the front of the data is taken, and its data goes into the message buffer. -/
theorem recvWsframe_wire (granted : ∀ size, mem.realloc size = true) {more : Bytes}
    (recv : conn.recv = frame.wire ++ more) :
    ∃ buf pongs, recvWsframe mem conn =
        (frame.wire.length, { conn with buf := buf, pongs := pongs }) ∧
      buf.unread = conn.buf.unread ++ frame.data := by
  have two := frame.two_le_header
  have limit := frame.limit
  have behind : conn.recv.drop frame.header.length = frame.body ++ more := by
    rw [recv, WireFrame.wire, List.append_assoc, List.drop_left]
  have taken : (frame.body ++ more).take frame.payload.length = frame.body := by
    rw [← frame.length_body, List.take_left]
  have decoded : WebSocketFrame.decode anyFrame conn.recv = (frame.header.length, frame.ws) := by
    rw [recv, WireFrame.wire, List.append_assoc, decode_frame]
  unfold recvWsframe
  simp only [decoded, toNat_payloadLen, behind, taken, frame.unmask_body, ← length_wire]
  rw [if_neg (by omega), if_neg (by omega),
    if_neg (by rw [List.length_append, frame.length_body]; omega)]
  by_cases ping : frame.ws.opcode = wsPing
  · have control : frame.IsControl := Or.inl ping
    rw [if_pos ping, WireFrame.data, if_pos control]
    exact ⟨conn.buf, _, rfl, (List.append_nil _).symm⟩
  · by_cases pong : frame.ws.opcode = wsPong
    · have control : frame.IsControl := Or.inr pong
      rw [if_neg ping, if_pos pong, WireFrame.data, if_pos control]
      exact ⟨conn.buf, conn.pongs, rfl, (List.append_nil _).symm⟩
    · have other : ¬frame.IsControl := not_or.mpr ⟨ping, pong⟩
      rw [if_neg ping, if_neg pong, WireFrame.data, if_neg other]
      obtain ⟨buf, put, unread⟩ := conn.buf.append_spec granted frame.payload
      rw [put]
      exact ⟨buf, conn.pongs, rfl, unread⟩

/-- A part of a frame is left where it is. -/
theorem recvWsframe_part (part : conn.recv <+: frame.wire)
    (short : conn.recv.length < frame.wire.length) : recvWsframe mem conn = (0, conn) := by
  have two := frame.two_le_header
  have limit := frame.limit
  have taken := List.prefix_iff_eq_take.mp part
  have length := length_wire frame
  by_cases header : conn.recv.length < frame.header.length
  · have front : conn.recv = frame.header.take conn.recv.length := by
      rw [WireFrame.wire, List.take_append_of_le_length (by omega)] at taken
      exact taken
    have decoded := decode_part frame anyFrame header
    rw [← front] at decoded
    unfold recvWsframe
    simp only [decoded, Nat.zero_le, if_true]
  · have front : ∃ rest, conn.recv = frame.header ++ rest := by
      rw [WireFrame.wire, List.take_append, List.take_of_length_le (by omega)] at taken
      exact ⟨_, taken⟩
    obtain ⟨rest, split⟩ := front
    have decoded : WebSocketFrame.decode anyFrame conn.recv =
        (frame.header.length, frame.ws) := by
      rw [split, decode_frame]
    have behind : (conn.recv.drop frame.header.length).length < frame.payload.length := by
      rw [List.length_drop]
      omega
    unfold recvWsframe
    simp only [decoded, toNat_payloadLen]
    rw [if_neg (by omega), if_neg (by omega), if_pos behind]

/-- A connection that has taken some frames from the front of the later ones. -/
structure Taken (mem : WsMem) (conn : WsConnection) (later : List WireFrame)
    (result : WsConnection) (taken rest : List WireFrame) : Prop where
  frames : later = taken ++ rest
  recv : conn.recv = taken.flatMap WireFrame.wire ++ result.recv
  part : ∀ frame ∈ rest.head?, result.recv.length < frame.wire.length
  unread : result.buf.unread = (feedWsmsg mem.msg conn.buf.unread (taken.map WireFrame.data)).2
  events : result.events =
    conn.events ++ (feedWsmsg mem.msg conn.buf.unread (taken.map WireFrame.data)).1
  closed : result.closed = conn.closed

theorem taken_none {later : List WireFrame}
    (part : ∀ frame ∈ later.head?, conn.recv.length < frame.wire.length) :
    Taken mem conn later conn [] later :=
  ⟨rfl, rfl, part, rfl, (List.append_nil _).symm, rfl⟩

theorem wire_pos (frame : WireFrame) : 2 ≤ frame.wire.length := by
  have two := frame.two_le_header
  rw [length_wire]
  omega

/-- The loop takes the frames that are whole. -/
theorem processWebsockFuel_taken (granted : ∀ size, mem.realloc size = true) {fuel : Nat}
    {later : List WireFrame} (enough : conn.recv.length < fuel)
    (prefixed : conn.recv <+: later.flatMap WireFrame.wire) :
    ∃ taken rest, Taken mem conn later (processWebsockFuel mem fuel conn) taken rest := by
  induction fuel generalizing conn later with
  | zero => omega
  | succ fuel ih =>
      rw [processWebsockFuel]
      by_cases empty : conn.recv.isEmpty = true
      · rw [if_pos empty]
        refine ⟨[], later, taken_none fun frame _ => ?_⟩
        have two := wire_pos frame
        rw [List.isEmpty_iff.mp empty, List.length_nil]
        omega
      · rw [if_neg empty]
        cases later with
        | nil =>
            rw [List.flatMap_nil, List.prefix_nil] at prefixed
            rw [prefixed] at empty
            exact absurd rfl empty
        | cons frame later =>
            rw [List.flatMap_cons] at prefixed
            by_cases short : conn.recv.length < frame.wire.length
            · have part := List.prefix_of_prefix_length_le prefixed
                (List.prefix_append frame.wire _) (by omega)
              rw [recvWsframe_part part short]
              refine ⟨[], frame :: later, taken_none fun other member => ?_⟩
              rw [← Option.some.inj member]
              exact short
            · have front := List.prefix_of_prefix_length_le
                (List.prefix_append frame.wire _) prefixed (by omega)
              obtain ⟨more, split⟩ := front
              obtain ⟨buf, pongs, received, unread⟩ := recvWsframe_wire granted split.symm
              have two := wire_pos frame
              have behind : conn.recv.drop frame.wire.length = more := by
                rw [← split, List.drop_left]
              have moreWhole : more <+: later.flatMap WireFrame.wire := by
                rw [← split] at prefixed
                exact (List.prefix_append_right_inj _).mp prefixed
              rw [received]
              simp only
              rw [if_neg (by omega), if_neg (by omega), behind]
              generalize executed : WsConnection.execute mem
                { conn with recv := more, buf := buf, pongs := pongs } = conn'
              have recv : conn'.recv = more := by rw [← executed]; rfl
              have closed : conn'.closed = conn.closed := by rw [← executed]; rfl
              have left : conn'.buf.unread =
                  (processWsmsg mem.msg (conn.buf.unread ++ frame.data)).2 := by
                rw [← executed, unread_execute, ← unread]
              have events : conn'.events = conn.events ++
                  (processWsmsg mem.msg (conn.buf.unread ++ frame.data)).1 := by
                rw [← executed, ← unread]
                rfl
              have less : conn'.recv.length < fuel := by
                rw [recv]
                have length := congrArg List.length split
                rw [List.length_append] at length
                omega
              obtain ⟨taken, rest, later'⟩ := ih less (recv ▸ moreWhole)
              refine ⟨frame :: taken, rest, ?_⟩
              constructor
              · rw [later'.frames, List.cons_append]
              · rw [List.flatMap_cons, List.append_assoc, ← later'.recv, recv, split]
              · exact later'.part
              · rw [later'.unread, left]
                rfl
              · rw [later'.events, events, left, List.append_assoc]
                rfl
              · rw [later'.closed, closed]

end Frames

section Chunks

variable {mem : WsMem} {conn middle result : WsConnection} {frames rest last : List WireFrame}
  {first second : List WireFrame} {chunks : List Bytes}

/-- What is taken later is taken behind what was taken before. -/
theorem Taken.trans {more : Bytes} (before : Taken mem conn frames middle first rest)
    (behind : Taken mem { middle with recv := middle.recv ++ more } rest result second last) :
    Taken mem { conn with recv := conn.recv ++ more } frames result (first ++ second) last where
  frames := by rw [before.frames, behind.frames, List.append_assoc]
  recv := by
    have bytes := behind.recv
    simp only at bytes ⊢
    rw [before.recv, List.append_assoc, bytes, List.flatMap_append, List.append_assoc]
  part := behind.part
  unread := by
    rw [List.map_append, feedWsmsg_append, behind.unread, before.unread]
  events := by
    rw [List.map_append, feedWsmsg_append, behind.events, before.events, before.unread,
      List.append_assoc]
  closed := behind.closed.trans before.closed

/-- The chunks of a stream of frames leave the frames that are whole taken. -/
theorem websockAfter_taken (granted : ∀ size, mem.realloc size = true)
    (prefixed : chunks.flatten <+: frames.flatMap WireFrame.wire) :
    ∃ taken rest, Taken mem { recv := chunks.flatten } frames (websockAfter mem chunks) taken
      rest := by
  induction chunks using List.reverseRecOn with
  | nil =>
      refine ⟨[], frames, taken_none fun frame _ => ?_⟩
      have two := wire_pos frame
      rw [List.flatten_nil, List.length_nil]
      omega
  | append_singleton chunks chunk ih =>
      rw [List.flatten_append, List.flatten_singleton] at prefixed ⊢
      obtain ⟨taken, rest, before⟩ := ih ((List.prefix_append _ _).trans prefixed)
      have stays := before.closed
      have after : websockAfter mem (chunks ++ [chunk]) =
          receiveWebsock mem (websockAfter mem chunks) chunk := by
        rw [websockAfter, List.foldl_append]
        rfl
      generalize websockAfter mem chunks = middle at before after stays
      rw [after, receiveWebsock, if_neg (by rw [stays]; exact Bool.false_ne_true)]
      have waiting : { middle with recv := middle.recv ++ chunk }.recv <+:
          rest.flatMap WireFrame.wire := by
        show middle.recv ++ chunk <+: _
        have bytes := before.recv
        simp only at bytes
        rw [bytes, before.frames, List.flatMap_append, List.append_assoc] at prefixed
        exact (List.prefix_append_right_inj _).mp prefixed
      obtain ⟨taken', rest', behind⟩ :=
        processWebsockFuel_taken granted (Nat.lt_succ_self _) waiting
      exact ⟨taken ++ taken', rest', before.trans behind⟩

/-- Frames that have arrived as a whole are all taken. -/
theorem websockAfter_frames (granted : ∀ size, mem.realloc size = true)
    (received : chunks.flatten = frames.flatMap WireFrame.wire) :
    (websockAfter mem chunks).closed = false ∧ (websockAfter mem chunks).recv = [] ∧
      (websockAfter mem chunks).events =
        (feedWsmsg mem.msg [] (frames.map WireFrame.data)).1 ∧
      (websockAfter mem chunks).buf.unread =
        (feedWsmsg mem.msg [] (frames.map WireFrame.data)).2 := by
  have prefixed : chunks.flatten <+: frames.flatMap WireFrame.wire := by
    rw [received]
  obtain ⟨taken, rest, all⟩ := websockAfter_taken granted prefixed
  have bytes := all.recv
  simp only at bytes
  rw [received, all.frames, List.flatMap_append] at bytes
  have left := List.append_cancel_left bytes
  have none : rest = [] := by
    cases rest with
    | nil => rfl
    | cons frame rest =>
        have part := all.part frame rfl
        rw [← left, List.flatMap_cons, List.length_append] at part
        omega
  subst none
  have whole := all.frames
  rw [List.append_nil] at whole
  subst whole
  exact ⟨all.closed, left.symm, by rw [all.events]; rfl, all.unread⟩

/-- A connection has executed the commands of a stream as when it comes in one piece, up to its
first error; without an error it is left with the same bytes. -/
structure ReadsStream (mem : WsMem) (stream : Bytes) (conn : WsConnection) : Prop where
  closed : conn.closed = false
  recv : conn.recv = []
  events : upToError conn.events = upToError (processWsmsg mem.msg stream).1
  commands : (upToError (processWsmsg mem.msg stream).1).2 = none →
    conn.events = (processWsmsg mem.msg stream).1 ∧
      conn.buf.unread = (processWsmsg mem.msg stream).2

/-- Without an error the events are their messages. -/
theorem events_of_upToError {events : List (Event RedisMsg RedisMsgStatus)}
    (noError : (upToError events).2 = none) :
    events = (upToError events).1.map Event.message := by
  induction events with
  | nil => rfl
  | cons event events ih =>
      cases event with
      | error status => cases noError
      | message m => exact congrArg (Event.message m :: ·) (ih noError)

/-- Where no frame cuts a number on its own, an escape or a word of JSON, the commands of the frames
are those of their stream in one frame. -/
theorem websockAfter_readsStream (granted : ∀ size, mem.realloc size = true)
    (received : chunks.flatten = frames.flatMap WireFrame.wire)
    (whole : WholeTokens mem.msg [] (frames.map WireFrame.data)) :
    ReadsStream mem (frames.flatMap WireFrame.data) (websockAfter mem chunks) ∧
      ∀ one : WireFrame, one.data = frames.flatMap WireFrame.data →
        (websockAfter mem [one.wire]).events =
          (processWsmsg mem.msg (frames.flatMap WireFrame.data)).1 := by
  obtain ⟨closed, recv, events, unread⟩ := websockAfter_frames granted received
  obtain ⟨same, left⟩ := feedWsmsg_eq [] _ processWsmsg_nil whole
  rw [List.nil_append, ← List.flatMap_def, ← events] at same
  rw [List.nil_append, ← List.flatMap_def, ← unread] at left
  refine ⟨⟨closed, recv, same, fun noError => ⟨?_, left noError⟩⟩, fun one carries => ?_⟩
  · rw [events_of_upToError noError, ← same]
    exact events_of_upToError (same ▸ noError)
  · have wire : [one.wire].flatten = [one].flatMap WireFrame.wire := by
      simp
    have once := (websockAfter_frames granted wire).2.2.1
    rw [once, ← carries]
    exact List.append_nil _

end Chunks

/-- A memory that is never refused. -/
def freeMem : WsMem := ⟨⟨fun _ => true, fun _ => 0⟩, fun _ => true⟩

/-- A text frame with a mask, and one without. -/
def maskedStart : WireFrame where
  header := [0x81, 0x87, 1, 2, 3, 4]
  payload := text "[\"get\","
  opened := by decide +kernel
  whole := by decide +kernel
  length := by decide +kernel
  limit := by decide +kernel

def pingFrame : WireFrame where
  header := [0x89, 2]
  payload := text "hi"
  opened := by decide +kernel
  whole := by decide +kernel
  length := by decide +kernel
  limit := by decide +kernel

def plainEnd : WireFrame where
  header := [0x81, 5]
  payload := text "\"a\"]\n"
  opened := by decide +kernel
  whole := by decide +kernel
  length := by decide +kernel
  limit := by decide +kernel

/-- A command in two frames with a ping between them, which arrive in two chunks. -/
theorem websockAfter_readsStream_ping :
    ReadsStream freeMem (text "[\"get\",\"a\"]\n")
      (websockAfter freeMem [maskedStart.wire ++ [0x89], [2, 104, 105] ++ plainEnd.wire]) :=
  have received : [maskedStart.wire ++ [0x89], [2, 104, 105] ++ plainEnd.wire].flatten =
      [maskedStart, pingFrame, plainEnd].flatMap WireFrame.wire := by
    decide +kernel
  (websockAfter_readsStream (fun _ => rfl) received
    ⟨by decide +kernel, by decide +kernel, by decide +kernel, trivial⟩).1

def escapeStart : WireFrame where
  header := [0x81, 6]
  payload := text "[\"\\u00"
  opened := by decide +kernel
  whole := by decide +kernel
  length := by decide +kernel
  limit := by decide +kernel

def escapeEnd : WireFrame where
  header := [0x81, 4]
  payload := text "41\"]"
  opened := by decide +kernel
  whole := by decide +kernel
  length := by decide +kernel
  limit := by decide +kernel

/-- A command that is cut inside an escape is not executed, but the digits behind it are. -/
theorem not_websockAfter_readsStream_escape :
    ¬∀ (mem : WsMem) (frames : List WireFrame) (chunks : List Bytes),
      (∀ size, mem.realloc size = true) →
      chunks.flatten = frames.flatMap WireFrame.wire →
      (upToError (processWsmsg mem.msg (frames.flatMap WireFrame.data)).1).2 = none →
      messages (websockAfter mem chunks).events =
        messages (processWsmsg mem.msg (frames.flatMap WireFrame.data)).1 := by
  intro independent
  have same := independent freeMem [escapeStart, escapeEnd] [escapeStart.wire, escapeEnd.wire]
    (fun _ => rfl) (by simp) (by decide +kernel)
  have split : messages (websockAfter freeMem [escapeStart.wire, escapeEnd.wire]).events =
      [.integer 41] := by
    decide +kernel
  have whole : messages (processWsmsg freeMem.msg
      ([escapeStart, escapeEnd].flatMap WireFrame.data)).1 =
      [.array 1 [.string .bulkString 1 (text "A")]] := by
    decide +kernel
  rw [split, whole] at same
  cases same

end Raids
