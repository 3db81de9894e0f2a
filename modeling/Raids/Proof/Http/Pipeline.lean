import Raids.Proof.Http.WellFormed
import Raids.Proof.Msg.JsonWrite
import Raids.Proof.Http.Chunks

namespace Raids.Http

section Bulk

variable {wrk : ScratchMem} {read : Bytes → Except RedisMsgStatus (RedisMsg × Nat)}

/-- The split of a line is an array. -/
theorem split_ne_string {strval : Bytes} {type : StringType} {len : Int} {value : Bytes} :
    split wrk strval ≠ .ok (.string type len value) := by
  unfold split
  simp only
  split
  · exact nofun
  · intro same
    obtain ⟨words, -, array⟩ := map_eq_ok same
    cases array

/-- Only a bulk string line is read as a bulk string. -/
theorem unpackLine_length {ptr line value : Bytes} {len : Int} {size : Nat}
    (unpacked : unpackLine wrk read ptr line = .ok (.string .bulkString len value, size))
    (filled : 0 ≤ len) : value.length = len.toNat := by
  rw [unpackLine] at unpacked
  simp only at unpacked
  split at unpacked
  · split at unpacked
    · cases unpacked
    · split at unpacked
      · split at unpacked
        · cases unpacked
        · rename_i enough
          simp only [Except.ok.injEq, Prod.mk.injEq, RedisMsg.string.injEq] at unpacked
          obtain ⟨⟨-, rfl, rfl⟩, -⟩ := unpacked
          rw [List.length_take, List.length_drop]
          omega
      · rename_i empty
        simp only [Except.ok.injEq, Prod.mk.injEq, RedisMsg.string.injEq] at unpacked
        obtain ⟨⟨-, rfl, rfl⟩, -⟩ := unpacked
        rw [List.length_nil]
        omega
  · split at unpacked
    · split at unpacked
      · cases unpacked
      · split at unpacked
        · split at unpacked
          · cases unpacked
          · obtain ⟨_, -, other⟩ := map_eq_ok unpacked
            cases other
        · cases unpacked
    · split at unpacked
      · obtain ⟨_, -, other⟩ := map_eq_ok unpacked
        cases other
      · split at unpacked
        · cases unpacked
        · split at unpacked
          · cases unpacked
          · obtain ⟨m, words, other⟩ := map_eq_ok unpacked
            simp only [Prod.mk.injEq] at other
            exact absurd (other.1 ▸ words) split_ne_string

/-- A bulk string that is read has the bytes of its length. -/
theorem unpack_length {buf value : Bytes} {len : Int} {size : Nat}
    (unpacked : unpack wrk buf = .ok (.string .bulkString len value, size)) (filled : 0 ≤ len) :
    value.length = len.toNat := by
  rw [unpack, unpackFuel] at unpacked
  simp only at unpacked
  split at unpacked
  · cases unpacked
  · obtain ⟨⟨m, j⟩, line, same⟩ := map_eq_ok unpacked
    simp only [Prod.mk.injEq] at same
    obtain ⟨rfl, -⟩ := same
    exact unpackLine_length line filled

end Bulk

/-- What the service relies on: the stream, the digits of a number in its own width, a debug command
without output, and texts of the digest that are on one line. -/
structure HttpEnv.Lawful {σ β : Type} (env : HttpEnv σ β) : Prop where
  buf : env.buf.Lawful
  digits : ∀ n, env.digits n (uint64Digits n) = uint64ToString n
  debug : ∀ app command, (env.exec app command).status = .debug →
    (env.exec app command).reply = []
  realm : ∀ db ∈ env.digestDb, lf ∉ db.realm
  nonce : lf ∉ env.svrNonce.nonce
  opaqueValue : lf ∉ env.svrNonce.opaqueValue

section Stream

variable {β : Type} {buf : StreamBuf β} (lawful : buf.Lawful)

/-- A stream whose tail buffer has no pending bytes. -/
def StreamBuf.Quiet (buf : StreamBuf β) (strm : β) : Prop := buf.out strm = []

theorem bytes_of_quiet {strm : β} (quiet : buf.Quiet strm) :
    buf.bytes strm = (buf.iov strm).flatten := by
  rw [StreamBuf.bytes, show buf.out strm = [] from quiet, List.append_nil]

include lawful

theorem quiet_flush (strm : β) : buf.Quiet (buf.flush strm) := lawful.out_flush strm

theorem bytes_flush (strm : β) : buf.bytes (buf.flush strm) = buf.bytes strm := by
  rw [bytes_of_quiet (quiet_flush lawful strm), lawful.iov_flush, List.flatten_append,
    List.flatten_singleton]
  rfl

/-- A response behind an empty tail goes behind the stream. -/
theorem bytes_assign {strm : β} (quiet : buf.Quiet strm) (response : Bytes) :
    buf.bytes (buf.assign strm response) = buf.bytes strm ++ response := by
  rw [StreamBuf.bytes, lawful.iov_assign, lawful.out_assign, show buf.out strm = [] from quiet,
    List.nil_append, List.take_length, ← bytes_of_quiet quiet]

/-- A stream that is cut where it had an empty tail is as it was. -/
theorem truncate_append {strm : β} (quiet : buf.Quiet strm) {longer : β} {reply : Bytes}
    (bytes : buf.bytes longer = buf.bytes strm ++ reply) (iov : buf.iov strm <+: buf.iov longer) :
    buf.bytes (buf.truncate longer (buf.pending strm)) = buf.bytes strm ∧
      buf.Quiet (buf.truncate longer (buf.pending strm)) := by
  constructor
  · rw [lawful.bytes_truncate, bytes, StreamBuf.pending, List.take_left]
  · apply lawful.out_truncate
    obtain ⟨rest, split⟩ := iov
    rw [← split, List.flatten_append, List.length_append, StreamBuf.pending, bytes_of_quiet quiet]
    exact Nat.le_add_right _ _

/-- A header that is put in front of a reply follows the stream without the reply. -/
theorem bytes_prependFlush {strm longer : β} {reply : Bytes} (quiet : buf.Quiet strm)
    (bytes : buf.bytes longer = buf.bytes strm ++ reply) (iov : buf.iov strm <+: buf.iov longer)
    (header : Bytes) :
    buf.bytes (buf.prependFlush (buf.assign (buf.flush longer) header) (buf.iov strm).length) =
      buf.bytes strm ++ header ++ reply := by
  obtain ⟨rest, split⟩ := iov
  have assigned : buf.iov (buf.assign (buf.flush longer) header) =
      buf.iov strm ++ (rest ++ [buf.out longer]) := by
    rw [lawful.iov_assign, lawful.iov_flush, ← split, List.append_assoc]
  have out : buf.out (buf.assign (buf.flush longer) header) = header := by
    rw [lawful.out_assign, lawful.out_flush, List.nil_append, List.take_length]
  have behind : (rest ++ [buf.out longer]).flatten = reply := by
    have whole := bytes
    rw [StreamBuf.bytes, ← split, List.flatten_append, List.append_assoc, bytes_of_quiet quiet]
      at whole
    have same := List.append_cancel_left whole
    rw [List.flatten_append, List.flatten_singleton]
    exact same
  have inserted := lawful.iov_prependFlush (buf.assign (buf.flush longer) header)
    (buf.iov strm).length (by rw [assigned, List.length_append]; exact Nat.le_add_right _ _)
  rw [assigned, List.take_left, List.drop_left, out] at inserted
  rw [StreamBuf.bytes, inserted, lawful.out_prependFlush, List.append_nil, List.flatten_append,
    List.flatten_cons, behind, bytes_of_quiet quiet, List.append_assoc]

end Stream

section Outcome

variable {σ β : Type} {env : HttpEnv σ β}

/-- A handler answers with one response behind the stream, or leaves the stream as it was. -/
def Outcome (env : HttpEnv σ β) (strm : β) (result : HttpState σ β × Bool) : Prop :=
  if result.2 then
    ∃ response, WellFormedResponse response ∧
      env.buf.bytes result.1.strm = env.buf.bytes strm ++ response
  else env.buf.bytes result.1.strm = env.buf.bytes strm ∧ env.buf.Quiet result.1.strm

/-- A stream behind an execution: a quiet stream with a reply behind it. -/
structure Replied (buf : StreamBuf β) (strm longer : β) (reply : Bytes) : Prop where
  quiet : buf.Quiet strm
  bytes : buf.bytes longer = buf.bytes strm ++ reply
  iov : buf.iov strm <+: buf.iov longer

theorem replied_append (lawful : env.buf.Lawful) {strm longer : β} {reply : Bytes}
    (replied : Replied env.buf strm longer reply) (more : Bytes) :
    Replied env.buf strm (env.buf.append longer more) (reply ++ more) where
  quiet := replied.quiet
  bytes := by rw [lawful.bytes_append, replied.bytes, List.append_assoc]
  iov := replied.iov.trans (lawful.iov_append longer more)

theorem replied_self {strm : β} (quiet : env.buf.Quiet strm) : Replied env.buf strm strm [] :=
  ⟨quiet, (List.append_nil _).symm, List.prefix_rfl⟩

theorem flushTail_spec (lawful : env.buf.Lawful) (strm : β) :
    env.buf.Quiet (flushTail env strm) ∧
      env.buf.bytes (flushTail env strm) = env.buf.bytes strm := by
  unfold flushTail
  split
  · rename_i empty
    exact ⟨List.isEmpty_iff.mp empty, rfl⟩
  · exact ⟨quiet_flush lawful strm, bytes_flush lawful strm⟩

/-- The bytes behind the place of a quiet stream are the reply. -/
theorem Replied.drop {strm longer : β} {reply : Bytes} (replied : Replied env.buf strm longer reply) :
    (env.buf.bytes longer).drop (env.buf.pending strm) = reply := by
  rw [replied.bytes, StreamBuf.pending, List.drop_left]

/-- An execution without a reply leaves the stream quiet. -/
theorem Replied.quiet_of_nil {strm longer : β} (replied : Replied env.buf strm longer []) :
    env.buf.Quiet longer := by
  obtain ⟨rest, split⟩ := replied.iov
  have bytes := replied.bytes
  rw [bytes_of_quiet replied.quiet, StreamBuf.bytes, ← split, List.flatten_append,
    List.append_assoc] at bytes
  exact (List.append_eq_nil_iff.mp (List.append_cancel_left bytes)).2

theorem pending_eq_iff {strm longer : β} {reply : Bytes}
    (replied : Replied env.buf strm longer reply) :
    env.buf.pending longer = env.buf.pending strm ↔ reply = [] := by
  rw [StreamBuf.pending, replied.bytes, StreamBuf.pending, List.length_append,
    ← List.length_eq_zero_iff]
  omega

/-- A reply that is sent as it is gets its header. -/
theorem outcome_getResp (lawful : env.Lawful) {strm : β} {reply : Bytes} {st : HttpState σ β}
    (replied : Replied env.buf strm st.strm reply) (hreq : HttpReq) :
    Outcome env strm (getResp env st hreq (env.buf.pending strm) (env.buf.iov strm).length) := by
  have count : env.buf.pending (env.buf.flush st.strm) - env.buf.pending strm = reply.length := by
    rw [StreamBuf.pending, bytes_flush lawful.buf, replied.bytes, List.length_append,
      StreamBuf.pending]
    omega
  have head := ((isHead_initHttpResponse hreq false .ok).pushText (text "Content-Type")
    (text " application/x-resp") (by decide) (by decide) (by decide)).length reply.length
  have line : text "Content-Type" ++ colon :: text " application/x-resp" ++ crlf =
      text "Content-Type: application/x-resp\r\n" := by decide
  rw [line] at head
  refine ⟨_, head.wellFormed, ?_⟩
  simp only [getResp, count, lawful.digits]
  rw [bytes_prependFlush lawful.buf replied.quiet replied.bytes replied.iov]
  simp only [List.append_assoc]

/-- A JSON reply has the right length when nothing else is pending. -/
theorem outcome_getJson (lawful : env.Lawful) {strm : β} {reply : Bytes} {st : HttpState σ β}
    (replied : Replied env.buf strm st.strm reply) (hreq : HttpReq)
    (first : (unpack env.wrk reply).toOption.isSome = true → env.buf.bytes strm = []) :
    Outcome env strm (getJson env st hreq (env.buf.pending strm)) := by
  obtain ⟨bytes, quiet⟩ := truncate_append lawful.buf replied.quiet replied.bytes replied.iov
  unfold getJson
  simp only [replied.drop]
  cases unpacked : unpack env.wrk reply with
  | error status => exact ⟨bytes, quiet⟩
  | ok pair =>
      obtain ⟨m, size⟩ := pair
      have empty := first (by rw [unpacked]; rfl)
      have none : env.buf.pending strm = 0 := by rw [StreamBuf.pending, empty]; rfl
      have size : m.toAlmostJsonSize false + 2 = (m.toAlmostJson false ++ crlf).length := by
        rw [(toAlmostJsonSize_eq false m).1, List.length_append]
        rfl
      have head := ((isHead_initHttpResponse hreq false .ok).pushText (text "Content-Type")
        (text " application/json") (by decide) (by decide) (by decide)).length
        (m.toAlmostJson false ++ crlf).length
      have line : text "Content-Type" ++ colon :: text " application/json" ++ crlf =
          text "Content-Type: application/json\r\n" := by decide
      rw [line] at head
      refine ⟨_, head.wellFormed, ?_⟩
      simp only [none, size, sizeSub, Nat.zero_le, if_true, Nat.sub_zero, lawful.digits]
      rw [none] at bytes quiet
      rw [bytes_assign lawful.buf quiet, bytes]
      simp only [List.append_assoc]

/-- A type is one of the table or the last one. -/
theorem getMimeType_mem (path : Bytes) :
    (getMimeType path).1 ∈ octetStream :: mimeTypes.map Prod.snd := by
  unfold getMimeType
  simp only
  generalize (if (text ".gz").isSuffixOf path = true then _ else _) = plain
  generalize (text ".gz").isSuffixOf path = isGzip
  split
  · exact List.mem_cons_self
  · split
    · rename_i suffix mtype found
      exact List.mem_cons_of_mem _ (List.mem_map_of_mem (List.mem_of_find?_eq_some found))
    · exact List.mem_cons_self

theorem isLength_contentType (rest : Bytes) : isLength (text "Content-Type" ++ rest) = false := by
  rw [isLength, startsWithWord, beq_eq_false_iff_ne]
  intro same
  have front := congrArg (List.take 12) same
  rw [← List.map_take, List.take_take, List.take_append_of_le_length (by decide)] at front
  exact absurd front (by decide)

/-- The type of a path is a header. -/
theorem isHeader_mimeType (path : Bytes) :
    IsHeader (text "Content-Type" ++ colon :: (space :: (getMimeType path).1)) ∧
      isLength (text "Content-Type" ++ colon :: (space :: (getMimeType path).1)) = false := by
  have lines : ∀ mtype ∈ octetStream :: mimeTypes.map Prod.snd, lf ∉ space :: mtype := by
    decide +kernel
  exact ⟨isHeader_of_name _ _ (by decide) (lines _ (getMimeType_mem path)),
    isLength_contentType _⟩

/-- A value gets its header, when its path is not the one of a compressed file. -/
theorem outcome_getFile (lawful : env.Lawful) {strm : β} {reply path : Bytes}
    {st : HttpState σ β} (replied : Replied env.buf strm st.strm reply) (hreq : HttpReq)
    (plain : ∀ len value size, unpack env.wrk reply = .ok (.string .bulkString len value, size) →
      0 ≤ len → (getMimeType path).2 = false) :
    Outcome env strm (getFile env st hreq path (env.buf.pending strm)) := by
  obtain ⟨bytes, quiet⟩ := truncate_append lawful.buf replied.quiet replied.bytes replied.iov
  unfold getFile
  simp only [replied.drop]
  split
  · rename_i len value size unpacked
    split
    · rename_i filled
      have length : (value.take len.toNat).length = len.toNat := by
        rw [List.length_take, unpack_length unpacked filled, Nat.min_self]
      have none := plain len value size unpacked filled
      obtain ⟨header, other⟩ := isHeader_mimeType path
      have head := ((isHead_initHttpResponse hreq false .ok).push _ header other).length
        (value.take len.toNat).length
      refine ⟨_, head.wellFormed, ?_⟩
      simp only [none, Bool.false_eq_true, if_false, lawful.digits, length]
      rw [lawful.buf.bytes_appendIov, bytes_assign lawful.buf quiet, bytes]
      have front : text "Content-Type: " = text "Content-Type" ++ [colon, space] := by decide
      simp only [front, List.append_assoc, List.cons_append, List.nil_append]
    · exact ⟨bytes, quiet⟩
  · exact ⟨bytes, quiet⟩

/-- The bytes that an execution leaves on the stream. -/
def replyBytes {σ : Type} (answer : HttpAnswer σ) : Bytes :=
  match answer.status with
  | .debug => []
  | .setupOk => answer.reply
  | _ => answer.reply ++ answer.statusReply

/-- A reply becomes one response, or the stream stays as it was. -/
theorem outcome_respond (lawful : env.Lawful) {strm : β} {reply : Bytes} {st : HttpState σ β}
    (replied : Replied env.buf strm st.strm reply) (hreq : HttpReq)
    (json : (httpFormat hreq.path).1 = .json → (unpack env.wrk reply).toOption.isSome = true →
      env.buf.bytes strm = [])
    (plain : (httpFormat hreq.path).1 = .file → ∀ len value size,
      unpack env.wrk reply = .ok (.string .bulkString len value, size) → 0 ≤ len →
        (getMimeType (decodePath (hreq.path.drop 1))).2 = false) :
    Outcome env strm
      (respond env st hreq (env.buf.pending strm) (env.buf.iov strm).length) := by
  unfold respond
  split
  · rename_i same
    have none := (pending_eq_iff replied).mp same
    subst none
    exact ⟨by rw [replied.bytes, List.append_nil], replied.quiet_of_nil⟩
  · have closed : Replied env.buf strm
        ({ st with shutdown := st.shutdown || hreq.closes false } : HttpState σ β).strm reply :=
      replied
    simp only
    cases format : (httpFormat hreq.path).1 with
    | json => exact outcome_getJson lawful closed hreq (json format)
    | resp => exact outcome_getResp lawful closed hreq
    | file => exact outcome_getFile lawful closed hreq (plain format)

/-- A GET whose reply is JSON comes when nothing is pending, and a value is not of a compressed
file. -/
structure CleanGet (env : HttpEnv σ β) (st : HttpState σ β) (hreq : HttpReq) : Prop where
  refused : getCommand env hreq.path = none → env.buf.Quiet st.strm
  json : ∀ command, getCommand env hreq.path = some command →
    (httpFormat hreq.path).1 = .json →
    (unpack env.wrk (replyBytes (env.exec st.app command))).toOption.isSome = true →
      env.buf.bytes st.strm = []
  plain : ∀ command, getCommand env hreq.path = some command →
    (httpFormat hreq.path).1 = .file → (env.exec st.app command).status = .setupOk →
    ∀ len value size,
      unpack env.wrk (replyBytes (env.exec st.app command)) =
        .ok (.string .bulkString len value, size) → 0 ≤ len →
      (getMimeType (decodePath (hreq.path.drop 1))).2 = false

/-- A GET becomes one response, or leaves the stream as it was. -/
theorem outcome_processGet (lawful : env.Lawful) {st : HttpState σ β} {hreq : HttpReq}
    (clean : CleanGet env st hreq) : Outcome env st.strm (processGet env st hreq) := by
  unfold processGet
  cases got : getCommand env hreq.path with
  | none => exact ⟨rfl, clean.refused got⟩
  | some command =>
      have json := clean.json command got
      have plain := clean.plain command got
      obtain ⟨quiet, bytes⟩ := flushTail_spec lawful.buf st.strm
      have first := replied_append lawful.buf (replied_self quiet) (env.exec st.app command).reply
      have second := replied_append lawful.buf first (env.exec st.app command).statusReply
      rw [List.nil_append] at first second
      have moved : ∀ result : HttpState σ β × Bool,
          Outcome env (flushTail env st.strm) result → Outcome env st.strm result := by
        intro result outcome
        unfold Outcome at outcome ⊢
        rw [bytes] at outcome
        exact outcome
      apply moved
      rw [← bytes] at json
      cases status : (env.exec st.app command).status with
      | debug =>
          rw [lawful.debug _ _ status] at first
          simp only [status, lawful.debug _ _ status]
          exact ⟨by rw [first.bytes, List.append_nil], first.quiet_of_nil⟩
      | setupOk =>
          simp only [replyBytes, status] at json plain
          simp only [status]
          exact outcome_respond lawful first hreq json fun file => plain file trivial
      | quit =>
          simp only [replyBytes, status] at json plain
          simp only [status]
          split
          · exact truncate_append lawful.buf second.quiet second.bytes second.iov
          · rename_i query
            exact outcome_respond lawful second hreq json fun file => absurd file query
      | other =>
          simp only [replyBytes, status] at json plain
          simp only [status]
          split
          · exact truncate_append lawful.buf second.quiet second.bytes second.iov
          · rename_i query
            exact outcome_respond lawful second hreq json fun file => absurd file query

end Outcome

section Path

theorem path_setContentLength (req : HttpReq) (value : Bytes) :
    (req.setContentLength value).path = req.path := by
  unfold HttpReq.setContentLength
  split <;> rfl

theorem path_setWskey (req : HttpReq) (value : Bytes) : (req.setWskey value).path = req.path := by
  unfold HttpReq.setWskey
  split <;> rfl

/-- A header leaves the path as it is. -/
theorem path_parseHeader (req : HttpReq) (line : Bytes) :
    (req.parseHeader line).path = req.path := by
  unfold HttpReq.parseHeader
  simp only [apply_ite HttpReq.path, path_setContentLength, path_setWskey, ite_self]

theorem path_decodeHeaders {fuel used size : Nat} {req found : HttpReq} {data : Bytes}
    (decoded : decodeHeaders fuel (some req) used data = .blank found size) :
    found.path = req.path := by
  induction fuel generalizing req used data with
  | zero => cases decoded
  | succ fuel ih =>
      rw [decodeHeaders] at decoded
      split at decoded
      · cases decoded
      · split at decoded
        · split at decoded <;> cases decoded
        · split at decoded
          · simp only [Option.elim_some, HeaderEnd.blank.injEq] at decoded
            rw [decoded.1]
          · rw [ih decoded, path_parseHeader]

/-- A line without its end has the bytes in front of its line feed. -/
theorem mem_stripEol {line : Bytes} {c : UInt8} (member : c ∈ stripEol (line ++ [lf])) :
    c ∈ line := by
  unfold stripEol at member
  rw [if_pos (by simp), List.dropLast_concat] at member
  split at member
  · exact List.mem_of_mem_dropLast member
  · exact member

/-- The path of a request line is a part of the line without its end. -/
theorem mem_path {line : Bytes} {req : HttpReq} (version : parseVersion line = some req)
    {c : UInt8} (member : c ∈ req.path) : c ∈ stripEol line := by
  unfold parseVersion at version
  simp only at version
  split at version
  · cases version
  · have behind : ∀ body : Bytes, c ∈ ((((body.dropWhile (· == space)).dropWhile
        (· != space)).dropWhile (· != slash))) → c ∈ body := fun body inside =>
      (List.dropWhile_sublist _).subset
        ((List.dropWhile_sublist _).subset ((List.dropWhile_sublist _).subset inside))
    split at version
    · split at version
      · cases version
      · obtain rfl := Option.some.inj version
        exact behind _ member
    · split at version
      · cases version
      · obtain rfl := Option.some.inj version
        have front := List.mem_of_mem_dropLast (behind _ member)
        rw [List.mem_reverse] at front
        exact List.mem_reverse.mp ((List.dropWhile_sublist _).subset front)

/-- The path of a whole request has no line feed. -/
theorem lf_notMem_path {data : Bytes} {req : HttpReq} {size : Nat}
    (framed : frameWhole data = .request req size) (first : data.head? ≠ some lf) :
    lf ∉ req.path := by
  obtain ⟨found, used, headers, -, -, rfl⟩ := frameWhole_request framed
  intro member
  rw [headersOf, decodeHeaders] at headers
  split at headers
  · cases headers
  · split at headers
    · split at headers <;> cases headers
    · rename_i line rest next
      obtain ⟨c, body, none, rfl, rfl⟩ := nextLine_iff.mp next
      split at headers
      · cases headers
      · simp only at headers
        cases version : parseVersion (c :: body ++ [lf]) with
        | none =>
            rw [version] at headers
            cases headers
        | some req =>
            rw [version] at headers
            have same := path_decodeHeaders headers
            have inside := mem_path version (same ▸ member)
            rcases List.mem_cons.mp (mem_stripEol inside) with front | behind
            · exact first (by rw [front]; rfl)
            · exact none behind

end Path

section Run

variable {σ β : Type} {env : HttpEnv σ β}
  {sendWsUpgrade : HttpState σ β → HttpReq → Option (HttpState σ β)}

/-- Some bytes that are one whole GET, POST or PUT request. -/
structure WholeRequest where
  bytes : Bytes
  req : HttpReq
  regular : Regular bytes
  framed : frameWhole bytes = .request req bytes.length
  method : (startsWith bytes 103 || startsWith bytes 112) = true

/-- The service has handled one whole request after the other. -/
def serveAll (svc : HttpService σ) (app : σ) (items : List WholeRequest) : σ :=
  items.foldl (fun app item => (serve svc app item.bytes item.req).1) app

/-- A request that is refused, with or without its authorization, comes when the tail buffer has no
pending bytes, and it wants no websocket. -/
structure CleanStep (env : HttpEnv σ β)
    (sendWsUpgrade : HttpState σ β → HttpReq → Option (HttpState σ β)) (st : HttpState σ β)
    (item : WholeRequest) : Prop where
  unauthorized : ((httpService env sendWsUpgrade).checkAuth item.req).isSome = true →
    env.buf.Quiet st.strm
  get : startsWith item.bytes 103 = true →
    item.req.wantsWebsocket = false ∧ CleanGet env st item.req

/-- Each request of a run is clean, and only the last one has no authorization. -/
def CleanRun (env : HttpEnv σ β)
    (sendWsUpgrade : HttpState σ β → HttpReq → Option (HttpState σ β)) :
    HttpState σ β → List WholeRequest → Prop
  | _, [] => True
  | st, item :: items =>
      CleanStep env sendWsUpgrade st item ∧
        (((httpService env sendWsUpgrade).checkAuth item.req).isSome = true → items = []) ∧
        CleanRun env sendWsUpgrade
          (serve (httpService env sendWsUpgrade) st item.bytes item.req).1 items

theorem WholeRequest.head_ne_lf (item : WholeRequest) : item.bytes.head? ≠ some lf := by
  intro feed
  have method := item.method
  cases bytes : item.bytes with
  | nil =>
      rw [bytes] at feed
      cases feed
  | cons c rest =>
      rw [bytes] at feed method
      obtain rfl := Option.some.inj feed
      have other : (startsWith (lf :: rest) 103 || startsWith (lf :: rest) 112) = false := rfl
      rw [other] at method
      cases method

/-- A response that is not sent by its handler is a 404 behind a quiet stream. -/
theorem answers_of_outcome (lawful : env.Lawful) {strm : β} {result : HttpState σ β × Bool}
    {hreq : HttpReq} (outcome : Outcome env strm result) (other : result.2 = false) :
    env.buf.bytes (send404NotFound env result.1 hreq false).strm =
      env.buf.bytes strm ++ notFoundResponse hreq false := by
  rw [Outcome, other] at outcome
  obtain ⟨bytes, quiet⟩ := outcome
  show env.buf.bytes (env.buf.assign result.1.strm _) = _
  rw [bytes_assign lawful.buf quiet, bytes]

/-- The reply of a POST or PUT is dropped. -/
theorem quiet_processPost (lawful : env.Lawful) (st : HttpState σ β) (hreq : HttpReq) :
    env.buf.bytes (processPost env st hreq).1.strm = env.buf.bytes st.strm ∧
      env.buf.Quiet (processPost env st hreq).1.strm := by
  obtain ⟨quiet, bytes⟩ := flushTail_spec lawful.buf st.strm
  have replied := replied_append lawful.buf (replied_self quiet)
    (env.exec st.app (.set (decodePath (hreq.path.drop 1)) hreq.data)).reply
  have cut := truncate_append lawful.buf replied.quiet replied.bytes replied.iov
  rw [bytes] at cut
  exact cut

/-- A clean request gets one response, and the loop goes on if it has its authorization. -/
theorem answers_serve (lawful : env.Lawful) {st : HttpState σ β} {item : WholeRequest}
    (clean : CleanStep env sendWsUpgrade st item) :
    (∃ response, WellFormedResponse response ∧
      env.buf.bytes (serve (httpService env sendWsUpgrade) st item.bytes item.req).1.strm =
        env.buf.bytes st.strm ++ response) ∧
    (serve (httpService env sendWsUpgrade) st item.bytes item.req).2 =
      if ((httpService env sendWsUpgrade).checkAuth item.req).isSome then .leave else .again := by
  have path := lf_notMem_path item.framed item.head_ne_lf
  have unauthorized := clean.unauthorized
  have missing := wellFormed_notFoundResponse item.req false
  unfold serve
  cases auth : (httpService env sendWsUpgrade).checkAuth item.req with
  | some code =>
      rw [auth] at unauthorized
      refine ⟨⟨unauthorizedResponse env item.req code,
        wellFormed_unauthorizedResponse env item.req code lawful.realm lawful.nonce
          lawful.opaqueValue, ?_⟩, rfl⟩
      exact bytes_assign lawful.buf (unauthorized rfl) _
  | none =>
      simp only
      by_cases get : startsWith item.bytes 103 = true
      · obtain ⟨other, cleanGet⟩ := clean.get get
        have outcome : Outcome env st.strm
            ((httpService env sendWsUpgrade).processGet st item.req) :=
          outcome_processGet lawful cleanGet
        rw [if_pos get, other]
        simp only [Bool.false_eq_true, if_false, Option.isSome_none]
        cases result : (httpService env sendWsUpgrade).processGet st item.req with
        | mk app found =>
            rw [result] at outcome
            cases found with
            | true => exact ⟨outcome, rfl⟩
            | false => exact ⟨⟨_, missing, answers_of_outcome lawful outcome rfl⟩, rfl⟩
      · have post : startsWith item.bytes 112 = true := by
          have method := item.method
          rw [Bool.or_eq_true] at method
          exact method.resolve_left get
        obtain ⟨bytes, quiet⟩ : env.buf.bytes
              ((httpService env sendWsUpgrade).processPost st item.req).1.strm =
            env.buf.bytes st.strm ∧
            env.buf.Quiet ((httpService env sendWsUpgrade).processPost st item.req).1.strm :=
          quiet_processPost lawful st item.req
        rw [if_neg get, if_pos post]
        simp only [Bool.false_eq_true, if_false, Option.isSome_none]
        cases result : (httpService env sendWsUpgrade).processPost st item.req with
        | mk app created =>
            rw [result] at bytes quiet
            cases created with
            | true =>
                refine ⟨⟨_, wellFormed_createdResponse path, ?_⟩, rfl⟩
                rw [← bytes]
                exact bytes_assign lawful.buf quiet _
            | false =>
                refine ⟨⟨_, missing, ?_⟩, rfl⟩
                rw [← bytes]
                exact bytes_assign lawful.buf quiet _

/-- The stream behind each request of a clean run has one response more. -/
theorem answers_serveAll (lawful : env.Lawful) {st : HttpState σ β} {items : List WholeRequest}
    (clean : CleanRun env sendWsUpgrade st items) :
    ∃ responses : List Bytes, responses.length = items.length ∧
      (∀ response ∈ responses, WellFormedResponse response) ∧
      ∀ count ≤ items.length,
        env.buf.bytes (serveAll (httpService env sendWsUpgrade) st (items.take count)).strm =
          env.buf.bytes st.strm ++ (responses.take count).flatten := by
  induction items generalizing st with
  | nil =>
      refine ⟨[], rfl, nofun, fun count bound => ?_⟩
      rw [Nat.le_zero.mp bound]
      exact (List.append_nil _).symm
  | cons item items ih =>
      obtain ⟨step, -, further⟩ := clean
      obtain ⟨⟨response, wellFormed, bytes⟩, -⟩ := answers_serve lawful step
      obtain ⟨responses, length, each, later⟩ := ih further
      refine ⟨response :: responses, congrArg (· + 1) length, ?_, fun count bound => ?_⟩
      · intro other member
        rcases List.mem_cons.mp member with rfl | behind
        · exact wellFormed
        · exact each other behind
      · cases count with
        | zero => exact (List.append_nil _).symm
        | succ count =>
            rw [List.take_succ_cons, List.take_succ_cons, List.flatten_cons, ← List.append_assoc,
              ← bytes]
            exact later count (Nat.le_of_succ_le_succ bound)

/-- A clean run is handled request by request. -/
theorem handles_serveAll (lawful : env.Lawful) {st : HttpState σ β} {items : List WholeRequest}
    (clean : CleanRun env sendWsUpgrade st items) :
    Handles (httpService env sendWsUpgrade) false st (items.flatMap (·.bytes))
      ⟨serveAll (httpService env sendWsUpgrade) st items, .http, [], items.map (·.req)⟩ := by
  induction items generalizing st with
  | nil => exact Handles.empty
  | cons item items ih =>
      obtain ⟨step, last, further⟩ := clean
      obtain ⟨-, next⟩ := answers_serve lawful step
      have nonempty := nonempty_of_request item.framed
      have same := serve_append (httpService env sendWsUpgrade) st nonempty
        (items.flatMap (·.bytes)) item.req
      have regular := regular_append item.regular item.framed (items.flatMap (·.bytes))
      have framed := frameWhole_append item.framed (items.flatMap (·.bytes))
      rw [List.flatMap_cons]
      cases auth : ((httpService env sendWsUpgrade).checkAuth item.req).isSome with
      | false =>
          rw [auth] at next
          have later := Handles.again regular framed (by rw [same]; exact next)
            (by rw [same, List.drop_left]; exact ih further)
          exact later
      | true =>
          rw [auth] at next last
          obtain rfl := last rfl
          have left := Handles.leave regular framed (by rw [same]; exact next) rfl
          rw [same, List.drop_left] at left
          exact left

/-- In a run of whole requests that are received at once, where each request is clean, every request
is handled and the stream gets one response for each in their order. -/
theorem httpPipeline (lawful : env.Lawful) {st : HttpState σ β} {items : List WholeRequest}
    {whole : Receive} (received : whole.bytes = items.flatMap (·.bytes))
    (placed : ∀ round ∈ (connectionAfter (httpService env sendWsUpgrade) st [whole]).rounds,
      round.Placed)
    (clean : CleanRun env sendWsUpgrade st items) :
    (connectionAfter (httpService env sendWsUpgrade) st [whole]).requests = items.map (·.req) ∧
      (connectionAfter (httpService env sendWsUpgrade) st [whole]).app =
        serveAll (httpService env sendWsUpgrade) st items ∧
      ∃ responses : List Bytes, responses.length = items.length ∧
        (∀ response ∈ responses, WellFormedResponse response) ∧
        ∀ count ≤ items.length,
          env.buf.bytes (serveAll (httpService env sendWsUpgrade) st (items.take count)).strm =
            env.buf.bytes st.strm ++ (responses.take count).flatten := by
  have follows := follows_whole (handles_serveAll lawful clean) whole received placed
  exact ⟨follows.requests, follows.app, answers_serveAll lawful clean⟩

end Run

/-- A stream of two lists: the buffers that are to be sent and the tail buffer. -/
def listBuf : StreamBuf (List Bytes × Bytes) where
  iov := Prod.fst
  out := Prod.snd
  flush := fun strm => (strm.1 ++ [strm.2], [])
  assign := fun strm s => (strm.1, (strm.2 ++ s).take s.length)
  append := fun strm s => (strm.1, strm.2 ++ s)
  appendIov := fun strm s => (strm.1 ++ [strm.2, s], [])
  truncate := fun strm off =>
    if off ≤ strm.1.flatten.length then ([strm.1.flatten.take off], [])
    else (strm.1, strm.2.take (off - strm.1.flatten.length))
  prependFlush := fun strm i => (strm.1.take i ++ strm.2 :: strm.1.drop i, [])

theorem listBuf_lawful : listBuf.Lawful where
  iov_flush := fun _ => rfl
  out_flush := fun _ => rfl
  iov_assign := fun _ _ => rfl
  out_assign := fun _ _ => rfl
  bytes_append := fun strm s => (List.append_assoc strm.1.flatten strm.2 s).symm
  iov_append := fun _ _ => List.prefix_rfl
  bytes_appendIov := fun strm s => by
    simp [StreamBuf.bytes, listBuf]
  bytes_truncate := fun strm off => by
    simp only [StreamBuf.bytes, listBuf]
    split
    · rename_i inside
      simp [List.take_append_of_le_length inside]
    · rename_i behind
      have whole : strm.1.flatten.take off = strm.1.flatten :=
        List.take_of_length_le (Nat.le_of_not_le behind)
      rw [List.take_append, whole]
  out_truncate := fun _ _ inside => congrArg Prod.snd (if_pos inside)
  iov_prependFlush := fun _ _ _ => rfl
  out_prependFlush := fun _ _ => rfl

/-- A database that has no value for a key and takes every value. -/
def emptyEnv : HttpEnv Unit (List Bytes × Bytes) where
  buf := listBuf
  digits := fun n _ => uint64ToString n
  wrk := fun _ => true
  exec := fun _ command =>
    match command with
    | .get _ => ⟨(), .other, [], text "$-1\r\n"⟩
    | _ => ⟨(), .setupOk, text "+OK\r\n", []⟩
  md5 := id
  digestDb := none
  svrNonce := ⟨[], []⟩

theorem emptyEnv_lawful : emptyEnv.Lawful where
  buf := listBuf_lawful
  digits := fun _ => rfl
  debug := by
    intro app command debugged
    cases command <;> cases debugged
  realm := fun db member => by cases member
  nonce := List.not_mem_nil
  opaqueValue := List.not_mem_nil

/-- A key that is missing. -/
def missingGet : WholeRequest where
  bytes := text "GET /a HTTP/1.1\r\n\r\n"
  req := { method := text "GET", path := text "/a", opts := { http11 := true } }
  regular := by decide +kernel
  framed := by decide +kernel
  method := by decide +kernel

/-- A query that is no message. -/
def refusedGet : WholeRequest where
  bytes := text "GET /?$9 HTTP/1.1\r\n\r\n"
  req := { method := text "GET", path := text "/?$9", opts := { http11 := true } }
  regular := by decide +kernel
  framed := by decide +kernel
  method := by decide +kernel

/-- A value for a key. -/
def wholePut : WholeRequest where
  bytes := text "PUT /a HTTP/1.1\r\nContent-Length: 1\r\n\r\nx"
  req :=
    { method := text "PUT", path := text "/a", opts := { http11 := true }, contentLength := 1,
      data := text "x" }
  regular := by decide +kernel
  framed := by decide +kernel
  method := by decide +kernel

/-- A missing key behind a value that is set. -/
theorem httpPipeline_putGet :
    (connectionAfter (httpService emptyEnv fun _ _ => none) ⟨(), ([], []), false⟩
        [⟨wholePut.bytes ++ missingGet.bytes, 4096, false⟩]).requests =
      [wholePut.req, missingGet.req] ∧
    ∃ responses : List Bytes, responses.length = 2 ∧
      (∀ response ∈ responses, WellFormedResponse response) ∧
      listBuf.bytes (connectionAfter (httpService emptyEnv fun _ _ => none) ⟨(), ([], []), false⟩
        [⟨wholePut.bytes ++ missingGet.bytes, 4096, false⟩]).app.strm = responses.flatten := by
  have known : (getCommand emptyEnv missingGet.req.path).isSome = true := by decide +kernel
  have put : CleanStep emptyEnv (fun _ _ => none) ⟨(), ([], []), false⟩ wholePut :=
    ⟨fun _ => rfl, fun get => absurd get (by decide +kernel)⟩
  have get : CleanStep emptyEnv (fun _ _ => none)
      (serve (httpService emptyEnv fun _ _ => none) ⟨(), ([], []), false⟩ wholePut.bytes
        wholePut.req).1 missingGet :=
    { unauthorized := nofun
      get := fun _ => ⟨by decide +kernel,
        { refused := fun none => by rw [none] at known; cases known
          json := fun _ _ format => absurd format (by decide +kernel)
          plain := fun _ _ _ _ _ _ _ _ _ => by decide +kernel }⟩ }
  have clean : CleanRun emptyEnv (fun _ _ => none) ⟨(), ([], []), false⟩ [wholePut, missingGet] :=
    ⟨put, nofun, get, nofun, trivial⟩
  have received : Receive.bytes ⟨wholePut.bytes ++ missingGet.bytes, 4096, false⟩ =
      [wholePut, missingGet].flatMap (·.bytes) := by
    simp
  obtain ⟨requests, app, responses, length, each, streams⟩ := httpPipeline emptyEnv_lawful received
    (by unfold HttpRound.Placed; decide +kernel) clean
  have two : responses.length = 2 := length
  have all := streams 2 (le_refl 2)
  rw [List.take_of_length_le (le_of_eq two)] at all
  refine ⟨requests, responses, length, each, ?_⟩
  rw [app]
  exact all

theorem WellFormedResponse.nonempty {response : Bytes} (wellFormed : WellFormedResponse response) :
    response ≠ [] := by
  obtain ⟨head, body, rfl, -⟩ := wellFormed
  simp [crlf]

/-- A refused query behind a missing key has its response over the one in front of it. -/
theorem not_httpPipeline_refused :
    ¬∀ (env : HttpEnv Unit (List Bytes × Bytes))
      (sendWsUpgrade : HttpState Unit (List Bytes × Bytes) → HttpReq →
        Option (HttpState Unit (List Bytes × Bytes)))
      (st : HttpState Unit (List Bytes × Bytes)) (items : List WholeRequest) (whole : Receive),
      env.Lawful → whole.bytes = items.flatMap (·.bytes) →
      (∀ round ∈ (connectionAfter (httpService env sendWsUpgrade) st [whole]).rounds,
        round.Placed) →
      ∃ responses : List Bytes, responses.length = items.length ∧
        (∀ response ∈ responses, WellFormedResponse response) ∧
        ∀ count ≤ items.length,
          env.buf.bytes (serveAll (httpService env sendWsUpgrade) st (items.take count)).strm =
            env.buf.bytes st.strm ++ (responses.take count).flatten := by
  intro pipeline
  obtain ⟨responses, length, each, streams⟩ := pipeline emptyEnv (fun _ _ => none)
    ⟨(), ([], []), false⟩ [missingGet, refusedGet]
    ⟨missingGet.bytes ++ refusedGet.bytes, 4096, false⟩ emptyEnv_lawful (by simp)
    (by unfold HttpRound.Placed; decide +kernel)
  have one := streams 1 (by decide)
  have two := streams 2 (le_refl 2)
  have same : emptyEnv.buf.bytes (serveAll (httpService emptyEnv fun _ _ => none)
        ⟨(), ([], []), false⟩ ([missingGet, refusedGet].take 2)).strm =
      emptyEnv.buf.bytes (serveAll (httpService emptyEnv fun _ _ => none)
        ⟨(), ([], []), false⟩ ([missingGet, refusedGet].take 1)).strm := by
    decide +kernel
  rw [same, one] at two
  obtain ⟨first, second, rfl⟩ := List.length_eq_two.mp length
  have empty : second = [] := by simpa using List.append_cancel_left two
  exact (each second (by simp)).nonempty empty

end Raids.Http
