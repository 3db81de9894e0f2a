import Raids.Construction.Cmd.KeyGeometry
import Raids.Construction.WebSocket.Output
import Raids.Proof.Msg.JsonWrite
import Raids.Proof.Msg.RoundTrip
import Raids.Proof.WebSocket.Frame

namespace Raids
open WebSocketFrame

section Items

variable {wrk : ScratchMem}

/-- A reply that can be read again, or a literal whose length has one byte; the answer to a ping
is neither. -/
def WsOutput.Readable (wrk : ScratchMem) : WsOutput → Prop
  | .reply msg => msg.WellFormed ∧ ∀ size ∈ msg.requests, wrk size
  | .literal chunk => 0 < chunk.length ∧ chunk.length ≤ maxLiteral
  | .pong _ => False

theorem wsText_open (size : Nat) : (wsText size).opcode ≠ wsClose := by
  show (1 : UInt8) ≠ wsClose
  decide

theorem length_textFrame (payload : Bytes) :
    (textFrame payload).length = payload.length + (wsText payload.length).hdrSize.toNat := by
  obtain ⟨-, size, -, -⟩ := encode_header (wsText_open payload.length) []
  rw [textFrame, List.length_append, size, Nat.add_comm]

theorem textFrame_pos (payload : Bytes) : 0 < (textFrame payload).length := by
  rw [textFrame, encode_eq (wsText_open payload.length)]
  exact Nat.succ_pos _

/-- A reply starts with the character of its type. -/
theorem head_pack (msg : RedisMsg) : ∃ c rest, msg.pack = c :: rest ∧ c ≠ atSign := by
  cases msg with
  | string type len strval =>
      cases type with
      | bulkString => exact ⟨_, _, by rw [RedisMsg.pack]; rfl, by decide⟩
      | simpleString =>
          exact ⟨StringType.char .simpleString, strval.take len.toNat ++ crlf,
            by simp [RedisMsg.pack], by decide⟩
      | errorString =>
          exact ⟨StringType.char .errorString, strval.take len.toNat ++ crlf,
            by simp [RedisMsg.pack], by decide⟩
  | integer ival => exact ⟨_, _, by rw [RedisMsg.pack]; rfl, by decide⟩
  | array len elems => exact ⟨_, _, by rw [RedisMsg.pack]; rfl, by decide⟩

/-- The passes read an item of the output with the sizes of its frame. -/
structure Measured (wrk : ScratchMem) (output : WsOutput) (rest : Bytes) (item : WsItemSize) :
    Prop where
  measure : measureItem wrk (output.text ++ rest) = some item
  msgsize : item.msgsize = output.text.length
  framed : item.framed = output.frame.length
  encode : encodeItem (output.text ++ rest) item = output.frame

theorem measured_reply {msg : RedisMsg} (wellFormed : msg.WellFormed)
    (granted : ∀ size ∈ msg.requests, wrk size) (rest : Bytes) :
    ∃ item, Measured wrk (.reply msg) rest item := by
  obtain ⟨c, tail, start, other⟩ := head_pack msg
  have size : msg.toAlmostJsonSize false + crlf.length =
      (msg.toAlmostJson false ++ crlf).length := by
    rw [(toAlmostJsonSize_eq false msg).1, List.length_append]
  refine ⟨⟨msg.toAlmostJsonSize false + crlf.length, msg.pack.length, some msg⟩, ?_, rfl, ?_, ?_⟩
  · have noLiteral : ¬(2 < (msg.pack ++ rest).length ∧
        (msg.pack ++ rest).head? = some atSign) := by
      rintro ⟨-, literal⟩
      rw [start] at literal
      exact other (Option.some.inj literal)
    show measureItem wrk (msg.pack ++ rest) = _
    rw [measureItem, if_neg noLiteral, unpack_pack wrk wellFormed granted rest]
  · show _ + _ = (textFrame _).length
    rw [length_textFrame, size]
  · show _ ++ (_ ++ crlf) = textFrame _
    rw [textFrame, ← size, Nat.add_sub_cancel, (toAlmostJsonSize_eq false msg).1,
      List.take_length]

theorem measured_literal {chunk : Bytes} (some' : 0 < chunk.length)
    (small : chunk.length ≤ maxLiteral) (rest : Bytes) :
    ∃ item, Measured wrk (.literal chunk) rest item := by
  have byte : (UInt8.ofNat chunk.length).toNat = chunk.length := by
    unfold maxLiteral at small
    rw [UInt8.toNat_ofNat', Nat.mod_eq_of_lt (by omega)]
  refine ⟨⟨chunk.length, chunk.length + 2, none⟩, ?_, rfl, ?_, ?_⟩
  · have literal : 2 < (literalText chunk ++ rest).length ∧
        (literalText chunk ++ rest).head? = some atSign := by
      refine ⟨?_, rfl⟩
      simp only [literalText, List.cons_append, List.length_cons, List.length_append]
      omega
    have length : ((literalText chunk ++ rest).getD 1 0).toNat = chunk.length := byte
    show measureItem wrk (literalText chunk ++ rest) = _
    rw [measureItem, if_pos literal]
    simp only [length]
    rw [if_neg]
    simp only [literalText, List.cons_append, List.length_cons, List.length_append]
    omega
  · show _ + _ = (textFrame _).length
    rw [length_textFrame]
  · show _ ++ ((literalText chunk ++ rest).drop 2).take chunk.length = textFrame chunk
    rw [show (literalText chunk ++ rest).drop 2 = chunk ++ rest from rfl, List.take_left]
    rfl

theorem measured (output : WsOutput) (readable : output.Readable wrk) (rest : Bytes) :
    ∃ item, Measured wrk output rest item := by
  cases output with
  | reply msg => exact measured_reply readable.1 readable.2 rest
  | literal chunk => exact measured_literal readable.1 readable.2 rest
  | pong payload => exact readable.elim

theorem text_pos (output : WsOutput) (readable : output.Readable wrk) :
    0 < output.text.length := by
  cases output with
  | reply msg =>
      obtain ⟨c, tail, start, -⟩ := head_pack msg
      show 0 < msg.pack.length
      rw [start]
      exact Nat.succ_pos _
  | literal chunk => exact Nat.succ_pos _
  | pong payload => exact readable.elim

theorem frame_pos (output : WsOutput) (readable : output.Readable wrk) :
    0 < output.frame.length := by
  cases output with
  | reply msg => exact textFrame_pos _
  | literal chunk => exact textFrame_pos _
  | pong payload => exact readable.elim

/-- The first pass finds the size of all frames; of one frame it keeps the item. -/
theorem measureItems_eq {outputs : List WsOutput} (nonempty : outputs ≠ [])
    (readable : ∀ output ∈ outputs, output.Readable wrk) {fuel : Nat}
    (enough : outputs.length ≤ fuel) :
    ∃ last, measureItems wrk fuel (outputs.flatMap WsOutput.text) =
        some ((outputs.flatMap WsOutput.frame).length, last) ∧
      (last.framed = (outputs.flatMap WsOutput.frame).length →
        encodeItem (outputs.flatMap WsOutput.text) last = outputs.flatMap WsOutput.frame) ∧
      last.framed ≤ (outputs.flatMap WsOutput.frame).length := by
  induction outputs generalizing fuel with
  | nil => exact absurd rfl nonempty
  | cons output outputs ih =>
      obtain ⟨fuel, rfl⟩ : ∃ less, fuel = less + 1 := by
        rw [List.length_cons] at enough
        exact ⟨fuel - 1, by omega⟩
      have first := readable output List.mem_cons_self
      have others := fun o member => readable o (List.mem_cons_of_mem output member)
      obtain ⟨item, reads⟩ := measured output first (outputs.flatMap WsOutput.text)
      rw [List.flatMap_cons, List.flatMap_cons, measureItems, reads.measure]
      simp only
      cases outputs with
      | nil =>
          have framed := reads.framed
          have encode := reads.encode
          simp only [List.flatMap_nil, List.append_nil] at encode ⊢
          rw [if_pos reads.msgsize, framed]
          exact ⟨item, rfl, fun _ => encode, le_of_eq framed⟩
      | cons next outputs =>
          have textPos := text_pos next (others next List.mem_cons_self)
          have framePos := frame_pos output first
          rw [List.length_cons] at enough
          have less : (next :: outputs).length ≤ fuel := by
            omega
          obtain ⟨last, later, -, bound⟩ := ih nofun others less
          rw [if_neg, reads.msgsize, List.drop_left, later]
          · refine ⟨last, ?_, fun whole => ?_, ?_⟩
            · rw [List.length_append, ← reads.framed]
              rfl
            · rw [List.length_append] at whole
              omega
            · rw [List.length_append]
              omega
          · rw [reads.msgsize, List.length_append, List.flatMap_cons, List.length_append]
            omega

/-- The second pass writes all frames. -/
theorem encodeItems_eq {outputs : List WsOutput} (nonempty : outputs ≠ [])
    (readable : ∀ output ∈ outputs, output.Readable wrk) {fuel : Nat}
    (enough : outputs.length ≤ fuel) :
    encodeItems wrk fuel (outputs.flatMap WsOutput.frame).length
        (outputs.flatMap WsOutput.text) = outputs.flatMap WsOutput.frame := by
  induction outputs generalizing fuel with
  | nil => exact absurd rfl nonempty
  | cons output outputs ih =>
      obtain ⟨fuel, rfl⟩ : ∃ less, fuel = less + 1 := by
        rw [List.length_cons] at enough
        exact ⟨fuel - 1, by omega⟩
      have first := readable output List.mem_cons_self
      have others := fun o member => readable o (List.mem_cons_of_mem output member)
      obtain ⟨item, reads⟩ := measured output first (outputs.flatMap WsOutput.text)
      rw [List.flatMap_cons, List.flatMap_cons, encodeItems, reads.measure]
      simp only [reads.encode]
      cases outputs with
      | nil =>
          rw [List.flatMap_nil, List.append_nil, if_pos rfl]
      | cons next outputs =>
          have framePos := frame_pos next (others next List.mem_cons_self)
          rw [List.length_cons] at enough
          rw [if_neg, reads.msgsize, List.drop_left, List.length_append, Nat.add_sub_cancel_left,
            ih nofun others (by omega)]
          rw [List.length_append, List.flatMap_cons, List.length_append]
          omega

end Items

section Find

/-- The search goes over the buffers that are framed. -/
theorem findOff_append (head rest : List Bytes) (nbytes : Nat) :
    findOff (nbytes + head.flatten.length) nbytes (head ++ rest) =
      head.length + findOff (nbytes + head.flatten.length) (nbytes + head.flatten.length) rest := by
  induction head generalizing nbytes with
  | nil => exact (Nat.zero_add _).symm
  | cons b head ih =>
      have total : nbytes + (b :: head).flatten.length =
          nbytes + b.length + head.flatten.length := by
        rw [List.flatten_cons, List.length_append, Nat.add_assoc]
      rw [total, List.cons_append, findOff, if_neg (by omega), ih, List.length_cons]
      omega

/-- The search stops at the first byte that is not framed. -/
theorem findOff_rest (rest : List Bytes) (nbytes : Nat) :
    (rest.take (findOff nbytes nbytes rest)).flatten = [] ∧
      (findOff nbytes nbytes rest = rest.length ↔ rest.flatten = []) := by
  induction rest with
  | nil => exact ⟨rfl, iff_of_true rfl rfl⟩
  | cons b rest ih =>
      rw [findOff]
      by_cases empty : b = []
      · subst empty
        rw [if_neg (by simp)]
        simp only [List.length_nil, Nat.add_zero, List.take_succ_cons, List.flatten_cons,
          List.nil_append, List.length_cons, Nat.add_right_cancel_iff]
        exact ih
      · have some := List.length_pos_iff.mpr empty
        rw [if_pos (by omega)]
        refine ⟨rfl, iff_of_false (by simp) fun none => ?_⟩
        rw [List.flatten_cons, List.append_eq_nil_iff] at none
        exact empty none.1

end Find

section Frames

variable {ops : StreamOps} (lawful : ops.Lawful) {wrk : ScratchMem} {pre : Bytes}
  {framed raw : List WsOutput} {s : WsStream}

/-- The stream is what was in front of the upgrade, the frames of some output and the output that
is not framed yet, which starts at the front of a buffer; the place of the framing and the counts
are those of the stream, and only frames are sent. -/
structure WsFramed (wrk : ScratchMem) (pre : Bytes) (framed raw : List WsOutput) (s : WsStream) :
    Prop where
  stream : s.sent ++ s.bytes =
    pre ++ framed.flatMap WsOutput.frame ++ raw.flatMap WsOutput.text
  off : s.websockOff = (pre ++ framed.flatMap WsOutput.frame).length
  sent : s.sent <+: pre ++ framed.flatMap WsOutput.frame
  bytesSent : s.bytesSent = s.sent.length
  wrPending : s.wrPending = s.iov.flatten.length
  aligned : raw ≠ [] → ∃ head rest, s.iov = head ++ rest ∧
    s.sent.length + head.flatten.length = s.websockOff
  readable : ∀ output ∈ raw, output.Readable wrk

theorem WsFramed.pending (inv : WsFramed wrk pre framed raw s) :
    s.bytesSent + s.pending = s.websockOff + (raw.flatMap WsOutput.text).length := by
  have total := congrArg List.length inv.stream
  rw [List.length_append, List.length_append, ← inv.off] at total
  rw [WsStream.pending, inv.bytesSent, inv.wrPending, ← total, WsStream.bytes,
    List.length_append]

/-- Output has some bytes. -/
theorem text_eq_nil (readable : ∀ output ∈ raw, output.Readable wrk) :
    (raw.flatMap WsOutput.text).length = 0 ↔ raw = [] := by
  constructor
  · intro empty
    cases raw with
    | nil => rfl
    | cons output raw =>
        have some := text_pos output (readable output List.mem_cons_self)
        rw [List.flatMap_cons, List.length_append] at empty
        omega
  · rintro rfl
    rfl

include lawful in
/-- The tail buffer is flushed in front of the framing. -/
theorem framed_flush (inv : WsFramed wrk pre framed raw s) :
    WsFramed wrk pre framed raw (if s.out.isEmpty then s else ops.flush s) ∧
      (if s.out.isEmpty then s else ops.flush s).out = [] := by
  by_cases empty : s.out.isEmpty = true
  · rw [if_pos empty]
    exact ⟨inv, List.isEmpty_iff.mp empty⟩
  · rw [if_neg empty, lawful.flush]
    refine ⟨?_, rfl⟩
    constructor
    · have stream := inv.stream
      simp only [WsStream.bytes, List.flatten_append, List.flatten_singleton, List.append_nil]
        at stream ⊢
      exact stream
    · exact inv.off
    · exact inv.sent
    · exact inv.bytesSent
    · simp only [List.flatten_append, List.length_append, List.flatten_singleton, inv.wrPending]
    · intro some
      obtain ⟨head, rest, iov, place⟩ := inv.aligned some
      exact ⟨head, rest ++ [s.out], by simp only [iov, List.append_assoc], place⟩
    · exact inv.readable

/-- The framed stream is behind the bytes that are sent and in front of the output. -/
theorem WsFramed.split (inv : WsFramed wrk pre framed raw s) (out : s.out = [])
    {head rest : List Bytes} (iov : s.iov = head ++ rest) (place : s.sent.length + head.flatten.length = s.websockOff) :
    s.sent ++ head.flatten = pre ++ framed.flatMap WsOutput.frame ∧
      rest.flatten = raw.flatMap WsOutput.text := by
  have stream := inv.stream
  rw [WsStream.bytes, out, List.append_nil, iov, List.flatten_append, ← List.append_assoc] at stream
  apply List.append_inj stream
  rw [List.length_append, place, inv.off]

theorem length_le_texts (readable : ∀ output ∈ raw, output.Readable wrk) :
    raw.length ≤ (raw.flatMap WsOutput.text).length := by
  induction raw with
  | nil => exact Nat.zero_le _
  | cons output raw ih =>
      have some := text_pos output (readable output List.mem_cons_self)
      have others := ih fun o member => readable o (List.mem_cons_of_mem output member)
      rw [List.flatMap_cons, List.length_append, List.length_cons]
      omega

/-- The two passes put the frames of the output together. -/
theorem passes_eq (nonempty : raw ≠ []) (readable : ∀ output ∈ raw, output.Readable wrk) :
    ∃ last, measureItems wrk (raw.flatMap WsOutput.text).length (raw.flatMap WsOutput.text) =
        some ((raw.flatMap WsOutput.frame).length, last) ∧
      (if (raw.flatMap WsOutput.frame).length = last.framed then
          encodeItem (raw.flatMap WsOutput.text) last
        else encodeItems wrk (raw.flatMap WsOutput.text).length
          (raw.flatMap WsOutput.frame).length (raw.flatMap WsOutput.text)) =
        raw.flatMap WsOutput.frame := by
  have enough := length_le_texts readable
  obtain ⟨last, measured, single, -⟩ := measureItems_eq nonempty readable enough
  refine ⟨last, measured, ?_⟩
  split
  · rename_i one
    exact single one.symm
  · exact encodeItems_eq nonempty readable enough

include lawful in
/-- The framing takes all output that is not framed. -/
theorem framed_frameWebsock2 (inv : WsFramed wrk pre framed raw s) :
    (frameWebsock2 ops wrk s).1 = true ∧
      WsFramed wrk pre (framed ++ raw) [] (frameWebsock2 ops wrk s).2 ∧
      (frameWebsock2 ops wrk s).2.out = [] := by
  obtain ⟨inv, out⟩ := framed_flush lawful inv
  unfold frameWebsock2
  generalize (if s.out.isEmpty then s else ops.flush s) = s at inv out
  simp only
  by_cases none : raw = []
  · subst none
    have place : s.bytesSent + s.iov.flatten.length = s.websockOff := by
      have pending := inv.pending
      rw [WsStream.pending, out, inv.wrPending] at pending
      exact pending
    have all : findOff s.websockOff s.bytesSent s.iov = s.iov.length := by
      have search := findOff_append s.iov [] s.bytesSent
      rw [place, List.append_nil] at search
      exact search
    rw [if_pos all, List.append_nil]
    exact ⟨rfl, inv, out⟩
  · obtain ⟨head, rest, iov, place⟩ := inv.aligned none
    obtain ⟨before, texts⟩ := inv.split out iov place
    have framedBytes : s.bytesSent + head.flatten.length = s.websockOff := by
      rw [inv.bytesSent, place]
    have off := findOff_append head rest s.bytesSent
    rw [framedBytes, ← iov] at off
    obtain ⟨skipped, ends⟩ := findOff_rest rest s.websockOff
    generalize findOff s.websockOff s.websockOff rest = count at off skipped ends
    have more : rest.flatten ≠ [] := by
      intro empty
      rw [texts] at empty
      exact none ((text_eq_nil inv.readable).mp (by rw [empty]; rfl))
    have other : ¬head.length + count = s.iov.length := by
      rw [iov, List.length_append, Nat.add_left_cancel_iff, ends]
      exact more
    have bound : head.length + count ≤ s.iov.length := by
      by_contra beyond
      rw [iov, List.length_append] at beyond
      rw [List.take_of_length_le (by omega)] at skipped
      exact more skipped
    have buf : (s.iov.drop (head.length + count)).flatten = raw.flatMap WsOutput.text := by
      rw [iov, ← List.drop_drop, List.drop_left, ← texts]
      conv_rhs => rw [← List.take_append_drop count rest, List.flatten_append, skipped]
      rfl
    have front : (s.iov.take (head.length + count)).flatten = head.flatten := by
      rw [iov, List.take_length_add_append, List.flatten_append, skipped, List.append_nil]
    have length : (s.iov.take (head.length + count)).length = head.length + count := by
      rw [List.length_take]
      omega
    rw [off, if_neg other, buf]
    obtain ⟨last, measured, newbuf⟩ := passes_eq none inv.readable
    have positive : 0 < (raw.flatMap WsOutput.frame).length := by
      obtain ⟨output, later, rfl⟩ := List.exists_cons_of_ne_nil none
      have some := frame_pos output (inv.readable output List.mem_cons_self)
      rw [List.flatMap_cons, List.length_append]
      omega
    rw [measured]
    simp only
    rw [if_pos positive, newbuf]
    have taken : (s.iov.take (head.length + count) ++
        [raw.flatMap WsOutput.text]).take (head.length + count) =
        s.iov.take (head.length + count) := by
      rw [List.take_append_of_le_length (le_of_eq length.symm), List.take_take, Nat.min_self]
    rw [taken]
    have pendingBytes : s.wrPending =
        head.flatten.length + (raw.flatMap WsOutput.text).length := by
      rw [inv.wrPending, iov, List.flatten_append, List.length_append, texts]
    refine ⟨rfl, ?_, out⟩
    constructor
    · simp only [WsStream.bytes, out, List.append_nil, List.flatten_append, front,
        List.flatten_singleton, List.flatMap_append, List.flatMap_nil]
      rw [← List.append_assoc, before, List.append_assoc]
    · simp only [List.flatMap_append]
      rw [inv.off, ← List.append_assoc]
      exact List.length_append.symm
    · rw [List.flatMap_append, ← List.append_assoc]
      exact inv.sent.trans (List.prefix_append _ _)
    · exact inv.bytesSent
    · simp only [List.flatten_append, front, List.flatten_singleton, List.length_append,
        pendingBytes]
      split <;> omega
    · exact fun some => absurd rfl some
    · exact nofun

/-- Output that is appended behind a framed stream starts a buffer. -/
def StreamOps.Separate (ops : StreamOps) (choice : Nat) (s : WsStream) (text : Bytes) : Prop :=
  s.bytesSent + s.pending = s.websockOff →
    ∃ head, head <+: (ops.append choice s text).iov ∧ head.flatten = s.bytes

include lawful in
/-- Output is appended behind the output that is not framed. -/
theorem framed_append (inv : WsFramed wrk pre framed raw s) {choice : Nat} {output : WsOutput}
    (readable : output.Readable wrk) (separate : ops.Separate choice s output.text) :
    WsFramed wrk pre framed (raw ++ [output]) (ops.append choice s output.text) := by
  have pending := inv.pending
  unfold StreamOps.Separate at separate
  obtain ⟨iov, out, front, bytes, eq⟩ := lawful.append choice s output.text
  rw [eq] at separate ⊢
  constructor
  · have stream := inv.stream
    show s.sent ++ (iov.flatten ++ out) = _
    rw [bytes, ← List.append_assoc, stream, List.flatMap_append, List.flatMap_singleton,
      List.append_assoc]
  · exact inv.off
  · exact inv.sent
  · exact inv.bytesSent
  · obtain ⟨more, rfl⟩ := front
    show s.wrPending + _ = _
    rw [inv.wrPending, List.flatten_append, List.length_append, Nat.add_sub_cancel_left]
  · intro some
    show ∃ head rest, iov = head ++ rest ∧ s.sent.length + head.flatten.length = s.websockOff
    by_cases first : raw = []
    · subst first
      obtain ⟨head, ⟨rest, iov⟩, flat⟩ := separate pending
      apply Exists.intro head
      apply Exists.intro rest
      apply And.intro iov.symm
      rw [flat, WsStream.bytes, List.length_append, ← inv.wrPending, ← inv.bytesSent]
      exact pending
    · obtain ⟨more, rfl⟩ := front
      obtain ⟨head, rest, iov, place⟩ := inv.aligned first
      exact ⟨head, rest ++ more, by rw [iov, List.append_assoc], place⟩
  · intro o member
    rcases List.mem_append.mp member with before | last
    · exact inv.readable o before
    · rw [List.mem_singleton.mp last]
      exact readable

/-- A stream with output that is not framed has a place for more. -/
theorem WsFramed.separate (inv : WsFramed wrk pre framed raw s) (some : raw ≠ []) (choice : Nat)
    (text : Bytes) : ops.Separate choice s text := by
  intro empty
  rw [inv.pending] at empty
  exact absurd ((text_eq_nil inv.readable).mp (by omega)) some

include lawful in
/-- A stream without a tail buffer has a place for more. -/
theorem separate_of_out (out : s.out = []) (choice : Nat) (text : Bytes) :
    ops.Separate choice s text := by
  intro _
  obtain ⟨iov, tail, front, -, eq⟩ := lawful.append choice s text
  rw [eq]
  exact ⟨s.iov, front, by rw [WsStream.bytes, out, List.append_nil]⟩

/-- The chunks of the terminal fit a literal. -/
theorem termChunks_small (fuel : Nat) (buf : Bytes) :
    ∀ chunk ∈ termChunks fuel buf, 0 < chunk.length ∧ chunk.length ≤ maxLiteral := by
  induction fuel generalizing buf with
  | zero => exact nofun
  | succ fuel ih =>
      intro chunk member
      rw [termChunks] at member
      split at member
      · exact nomatch member
      · rename_i some
        rcases List.mem_cons.mp member with rfl | later
        · have pos : 0 < buf.length := List.length_pos_iff.mpr fun none => some (by rw [none]; rfl)
          rw [List.length_take]
          unfold maxLiteral
          omega
        · exact ih _ chunk later

include lawful in
theorem framed_literals {chunks : List Bytes}
    (small : ∀ chunk ∈ chunks, 0 < chunk.length ∧ chunk.length ≤ maxLiteral) {choice : Nat}
    (inv : WsFramed wrk pre framed raw s)
    (separate : ∀ chunk ∈ chunks.head?, ops.Separate choice s (literalText chunk)) :
    WsFramed wrk pre framed (raw ++ chunks.map .literal)
      (chunks.foldl (fun s chunk => ops.append choice s (literalText chunk)) s) := by
  induction chunks generalizing raw s with
  | nil =>
      rw [List.map_nil, List.append_nil]
      exact inv
  | cons chunk chunks ih =>
      have others := fun c member => small c (List.mem_cons_of_mem chunk member)
      have first : WsFramed wrk pre framed (raw ++ [.literal chunk])
          (ops.append choice s (literalText chunk)) :=
        framed_append lawful inv (small chunk List.mem_cons_self) (separate chunk rfl)
      rw [List.map_cons, List.append_cons]
      apply ih others first
      intro next _
      exact first.separate (List.append_ne_nil_of_right_ne_nil raw nofun) choice _

/-- The literals of the terminal. -/
def termOutputs (buf : Bytes) : List WsOutput := (termChunks buf.length buf).map .literal

include lawful in
/-- The literals of the terminal go behind the output. -/
theorem framed_flushTerm {choice : Nat} {buf : Bytes} (inv : WsFramed wrk pre framed raw s)
    (separate : ∀ chunk ∈ (termChunks buf.length buf).head?,
      ops.Separate choice s (literalText chunk)) :
    WsFramed wrk pre framed (raw ++ termOutputs buf) (flushTerm ops choice s buf) :=
  framed_literals lawful (termChunks_small _ buf) inv separate

include lawful in
/-- The framing of a write takes the prompt as well. -/
theorem framed_frameWebsock (inv : WsFramed wrk pre framed raw s) (choice : Nat)
    (prompt : Bytes) :
    (frameWebsock ops wrk choice prompt s).1 = true ∧
      WsFramed wrk pre (framed ++ raw ++ termOutputs prompt) []
        (frameWebsock ops wrk choice prompt s).2 := by
  obtain ⟨done, next, out⟩ := framed_frameWebsock2 lawful inv
  unfold frameWebsock
  simp only
  split
  · rename_i none
    rw [List.isEmpty_iff.mp none]
    show _ ∧ WsFramed wrk pre (framed ++ raw ++ []) [] _
    rw [List.append_nil]
    exact ⟨done, next⟩
  · have shown : WsFramed wrk pre (framed ++ raw) ([] ++ termOutputs prompt) _ :=
      framed_flushTerm lawful next fun chunk _ => separate_of_out lawful out choice _
    rw [List.nil_append] at shown
    obtain ⟨-, last, -⟩ := framed_frameWebsock2 lawful shown
    exact ⟨done, last⟩

include lawful in
/-- Bytes of a framed stream are sent. -/
theorem framed_send (inv : WsFramed wrk pre framed [] s) (choice : Nat) :
    WsFramed wrk pre framed [] (ops.send choice s) := by
  obtain ⟨count, iov, bound, rest, eq⟩ := lawful.send choice s
  have stream := inv.stream
  rw [List.flatMap_nil, List.append_nil] at stream
  have split : s.sent ++ s.bytes.take count ++ s.bytes.drop count =
      pre ++ framed.flatMap WsOutput.frame := by
    rw [List.append_assoc, List.take_append_drop, stream]
  rw [eq]
  constructor
  · show s.sent ++ s.bytes.take count ++ (iov.flatten ++ []) = _
    rw [rest, List.append_nil, split, List.flatMap_nil, List.append_nil]
  · exact inv.off
  · exact ⟨s.bytes.drop count, split⟩
  · show s.bytesSent + count = _
    rw [inv.bytesSent, List.length_append, List.length_take, Nat.min_eq_left bound]
  · show s.pending - count = iov.flatten.length
    rw [rest, List.length_drop, WsStream.pending, inv.wrPending, WsStream.bytes,
      List.length_append]
  · exact fun some => absurd rfl some
  · exact nofun

include lawful in
/-- A write leaves no output that is not framed. -/
theorem framed_writeWebsock (inv : WsFramed wrk pre framed raw s) (upgraded : pre ≠ [])
    (choice : Nat) (prompt : Bytes) :
    WsFramed wrk pre
      (framed ++ raw ++
        if s.websockOff < s.bytesSent + s.pending then termOutputs prompt else []) []
      (writeWebsock ops wrk choice prompt s) := by
  have front := List.length_pos_iff.mpr upgraded
  have off := inv.off
  rw [List.length_append] at off
  unfold writeWebsock
  by_cases more : s.websockOff < s.bytesSent + s.pending
  · obtain ⟨done, next⟩ := framed_frameWebsock lawful inv choice prompt
    rw [if_pos more, if_pos ⟨by omega, more⟩]
    simp only [done, if_true]
    exact framed_send lawful next choice
  · have pending := inv.pending
    have none : raw = [] := (text_eq_nil inv.readable).mp (by omega)
    subst none
    rw [if_neg more, if_neg fun both => more both.2, List.append_nil, List.append_nil]
    exact framed_send lawful inv choice

end Frames

section Run

variable (ops : StreamOps) (wrk : ScratchMem)

/-- What an action puts into the output; a prompt is shown when there is output to frame. -/
def WsStream.outputs (s : WsStream) : WsAction → List WsOutput
  | .put _ output => [output]
  | .terminal _ buf => termOutputs buf
  | .write _ prompt => if s.websockOff < s.bytesSent + s.pending then termOutputs prompt else []

/-- The output of a run, in the order of its actions. -/
def WsStream.produced (s : WsStream) : List WsAction → List WsOutput
  | [] => []
  | action :: actions =>
      s.outputs action ++ (s.act ops wrk action).produced actions

/-- No ping is answered, replies can be read again, and the first output behind a framed stream
starts a buffer. -/
def WsStream.CleanAction (s : WsStream) : WsAction → Prop
  | .put choice output => output.Readable wrk ∧ ops.Separate choice s output.text
  | .terminal choice buf => ∀ chunk ∈ (termChunks buf.length buf).head?,
      ops.Separate choice s (literalText chunk)
  | .write _ _ => True

/-- Every action of the run is clean. -/
def WsStream.CleanRun (s : WsStream) : List WsAction → Prop
  | [] => True
  | action :: actions =>
      s.CleanAction ops wrk action ∧ (s.act ops wrk action).CleanRun actions

variable {ops wrk} {pre : Bytes} {framed raw : List WsOutput} {s : WsStream}

/-- A clean action keeps the stream framed, and puts its output at the end. -/
theorem framed_act (lawful : ops.Lawful) (inv : WsFramed wrk pre framed raw s)
    (upgraded : pre ≠ []) {action : WsAction} (clean : s.CleanAction ops wrk action) :
    ∃ framed' raw', framed' ++ raw' = framed ++ raw ++ s.outputs action ∧
      WsFramed wrk pre framed' raw' (s.act ops wrk action) ∧
      ((∃ choice prompt, action = .write choice prompt) → raw' = []) := by
  cases action with
  | put choice output =>
      obtain ⟨readable, separate⟩ := clean
      apply Exists.intro framed
      apply Exists.intro (raw ++ [output])
      apply And.intro (List.append_assoc _ _ _).symm
      apply And.intro (framed_append lawful inv readable separate)
      rintro ⟨choice', prompt, write⟩
      exact nomatch write
  | terminal choice buf =>
      apply Exists.intro framed
      apply Exists.intro (raw ++ termOutputs buf)
      apply And.intro (List.append_assoc _ _ _).symm
      apply And.intro (framed_flushTerm lawful inv clean)
      rintro ⟨choice', prompt, write⟩
      exact nomatch write
  | write choice prompt =>
      apply Exists.intro (framed ++ raw ++ s.outputs (.write choice prompt))
      apply Exists.intro []
      apply And.intro (List.append_nil _)
      apply And.intro (framed_writeWebsock lawful inv upgraded choice prompt)
      exact fun _ => rfl

/-- A clean run keeps the stream framed. -/
theorem framed_after (lawful : ops.Lawful) (inv : WsFramed wrk pre framed raw s)
    (upgraded : pre ≠ []) {actions : List WsAction} (clean : s.CleanRun ops wrk actions) :
    ∃ framed' raw', framed' ++ raw' = framed ++ raw ++ s.produced ops wrk actions ∧
      WsFramed wrk pre framed' raw' (s.after ops wrk actions) ∧
      ((∃ choice prompt, actions.getLast? = some (.write choice prompt)) → raw' = []) := by
  induction actions generalizing framed raw s with
  | nil =>
      refine ⟨framed, raw, (List.append_nil _).symm, inv, ?_⟩
      rintro ⟨choice, prompt, last⟩
      exact nomatch last
  | cons action actions ih =>
      obtain ⟨first, others⟩ := clean
      obtain ⟨framed', raw', order, next, written⟩ := framed_act lawful inv upgraded first
      cases actions with
      | nil =>
          refine ⟨framed', raw', ?_, next, ?_⟩
          · rw [order]
            show _ = _ ++ (_ ++ [])
            rw [List.append_nil]
          · rintro ⟨choice, prompt, write⟩
            rw [List.getLast?_singleton] at write
            exact written ⟨choice, prompt, Option.some.inj write⟩
      | cons second actions =>
          obtain ⟨framed'', raw'', orders, last, allWritten⟩ := ih next others
          refine ⟨framed'', raw'', ?_, last, ?_⟩
          · rw [orders, order, List.append_assoc]
            rfl
          · rintro ⟨choice, prompt, write⟩
            rw [List.getLast?_cons_cons] at write
            exact allWritten ⟨choice, prompt, write⟩

/-- A stream at the end of its upgrade: all of it counts as framed. -/
structure WsStream.Upgraded (s : WsStream) : Prop where
  response : s.sent ++ s.bytes ≠ []
  bytesSent : s.bytesSent = s.sent.length
  wrPending : s.wrPending = s.iov.flatten.length
  off : s.websockOff = s.bytesSent + s.pending

theorem WsStream.Upgraded.start (upgraded : s.Upgraded) :
    WsFramed wrk (s.sent ++ s.bytes) [] [] s := by
  constructor
  · rw [List.flatMap_nil, List.append_nil, List.flatMap_nil, List.append_nil]
  · rw [upgraded.off, upgraded.bytesSent, WsStream.pending, upgraded.wrPending, List.flatMap_nil,
      List.append_nil, List.length_append, WsStream.bytes, List.length_append]
  · rw [List.flatMap_nil, List.append_nil]
    exact List.prefix_append _ _
  · exact upgraded.bytesSent
  · exact upgraded.wrPending
  · exact fun some => absurd rfl some
  · exact nofun

/-- The stream holds the output in the order it was put: behind the upgrade there are the frames
of the first part, of which some bytes are sent, and the rest is not framed; the place of the
framing and the counts are those of the stream, and a write leaves nothing that is not framed. -/
structure WsStream.Frames (pre : Bytes) (outputs : List WsOutput) (written : Prop)
    (s : WsStream) : Prop where
  stream : ∃ framed raw, framed ++ raw = outputs ∧
    s.sent ++ s.bytes = pre ++ framed.flatMap WsOutput.frame ++ raw.flatMap WsOutput.text ∧
    s.sent <+: pre ++ framed.flatMap WsOutput.frame ∧
    s.websockOff = (pre ++ framed.flatMap WsOutput.frame).length ∧
    (written → raw = [])
  bytesSent : s.bytesSent = s.sent.length
  wrPending : s.wrPending = s.iov.flatten.length

/-- A run ends with a write. -/
def endsWithWrite (actions : List WsAction) : Prop :=
  ∃ choice prompt, actions.getLast? = some (.write choice prompt)

/-- In every clean run, the stream is made of the frames of the output. -/
theorem websockOutput (lawful : ops.Lawful) (upgraded : s.Upgraded) (actions : List WsAction)
    (clean : s.CleanRun ops wrk actions) :
    (s.after ops wrk actions).Frames (s.sent ++ s.bytes) (s.produced ops wrk actions)
      (endsWithWrite actions) := by
  obtain ⟨framed, raw, order, inv, written⟩ :=
    framed_after lawful upgraded.start upgraded.response clean
  constructor
  · exact ⟨framed, raw, order, inv.stream, inv.sent, inv.off, written⟩
  · exact inv.bytesSent
  · exact inv.wrPending

/-- One tail buffer takes everything, and a write sends all of it. -/
def tailOps : StreamOps where
  flush s :=
    { s with
      iov := s.iov ++ [s.out]
      wrPending := s.wrPending + s.out.length
      out := [] }
  append _ s bytes := { s with out := s.out ++ bytes }
  send _ s :=
    { s with
      sent := s.sent ++ s.bytes
      bytesSent := s.bytesSent + s.bytes.length
      iov := []
      wrPending := s.pending - s.bytes.length
      out := [] }

theorem tailOps_lawful : tailOps.Lawful := by
  constructor
  · exact fun _ => rfl
  · intro choice s bytes
    refine ⟨s.iov, s.out ++ bytes, List.prefix_refl _, (List.append_assoc _ _ _).symm, ?_⟩
    rw [Nat.sub_self, Nat.add_zero]
    rfl
  · intro choice s
    refine ⟨s.bytes.length, [], Nat.le_refl _, ?_, ?_⟩
    · rw [List.drop_length, List.flatten_nil]
    · rw [List.take_length]
      rfl

/-- A stream whose upgrade is sent. -/
def upgradedStream : WsStream := ⟨[33, 33], 2, [], 0, [], 2⟩

/-- A reply is framed and sent. -/
theorem websockOutput_reply :
    upgradedStream.Upgraded ∧
      (upgradedStream.after tailOps (fun _ => true)
        [.put 0 (.reply (.integer 1)), .write 0 []]).sent =
        [33, 33] ++ textFrame (text "1\r\n") ∧
      (upgradedStream.after tailOps (fun _ => true)
        [.put 0 (.reply (.integer 1)), .write 0 []]).Frames [33, 33]
        [.reply (.integer 1)] (endsWithWrite [.put 0 (.reply (.integer 1)), .write 0 []]) := by
  have upgraded : upgradedStream.Upgraded := by
    constructor <;> decide
  have clean : upgradedStream.CleanRun tailOps (fun _ => true)
      [.put 0 (.reply (.integer 1)), .write 0 []] := by
    refine ⟨⟨?_, ?_⟩, trivial, trivial⟩
    · exact ⟨.integer 1 (by decide) (by decide), nofun⟩
    · exact fun _ => ⟨[], List.nil_prefix, rfl⟩
  exact ⟨upgraded, by decide, websockOutput tailOps_lawful upgraded _ clean⟩

/-- A ping is answered, a reply follows, and the output is written. -/
def pongActions : List WsAction :=
  [.put 0 (.pong (text "hi")), .put 0 (.reply (.string .simpleString 2 (text "OK"))), .write 0 []]

/-- The answer to a ping is read as the start of a reply, and loses its frame. -/
theorem not_websockOutput_pong :
    ¬∀ (ops : StreamOps) (wrk : ScratchMem) (s : WsStream) (actions : List WsAction), ops.Lawful →
      s.Upgraded → (s.after ops wrk actions).Frames (s.sent ++ s.bytes)
        (s.produced ops wrk actions) (endsWithWrite actions) := by
  intro claim
  have upgraded : upgradedStream.Upgraded := by
    constructor <;> decide
  obtain ⟨framed, raw, order, stream, -, -, written⟩ :=
    (claim tailOps (fun _ => true) upgradedStream pongActions tailOps_lawful upgraded).stream
  have none : raw = [] := written ⟨0, [], rfl⟩
  rw [none, List.append_nil] at order
  rw [none, order] at stream
  exact absurd stream (by decide)

end Run

end Raids
