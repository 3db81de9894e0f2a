import Raids.Construction.Http.Response

namespace Raids.Http

/-- A header has a name of graphic characters and, behind a colon, a value on the same line. -/
def IsHeader (line : Bytes) : Prop :=
  ∃ name value, line = name ++ colon :: value ∧ name ≠ [] ∧
    (∀ c ∈ name, isGraphic c = true ∧ c ≠ colon) ∧ lf ∉ value

/-- The header of the length of the body. -/
def isLength (line : Bytes) : Bool := startsWithWord line (text "Content-Length:")

/-- The first line of a response. -/
def IsStatusLine (line : Bytes) : Prop :=
  ∃ version ∈ [text "HTTP/1.1 ", text "HTTP/1.0 "], ∃ code : HttpCode,
    line ++ crlf = version ++ code.line

/-- The lines of a head, with their headers of the length of the body. -/
def IsHead (head : Bytes) (lengths : List Bytes) : Prop :=
  ∃ (status : Bytes) (headers : List Bytes), head = status ++ crlf ++ headers.flatMap (· ++ crlf) ∧ IsStatusLine status ∧
    (∀ line ∈ headers, IsHeader line) ∧ headers.filter isLength = lengths

/-- A response is a head, a blank line and a body of the length that one header says. -/
def WellFormedResponse (response : Bytes) : Prop :=
  ∃ head body, response = head ++ crlf ++ body ∧
    IsHead head [clength ++ uint64ToString body.length]

theorem isHeader_of_name (name value : Bytes)
    (good : (!name.isEmpty && name.all fun c => isGraphic c && c != colon) = true)
    (one : lf ∉ value) : IsHeader (name ++ colon :: value) := by
  simp only [Bool.and_eq_true, Bool.not_eq_true', List.all_eq_true, bne_iff_ne] at good
  exact ⟨name, value, rfl, fun empty => by simp [empty] at good, good.2, one⟩

section Head

variable {head : Bytes} {lengths : List Bytes}

/-- A header that is not of the length goes behind a head. -/
theorem IsHead.push (isHead : IsHead head lengths) (line : Bytes) (header : IsHeader line)
    (other : isLength line = false) : IsHead (head ++ (line ++ crlf)) lengths := by
  obtain ⟨status, headers, rfl, isStatus, each, filtered⟩ := isHead
  refine ⟨status, headers ++ [line], ?_, isStatus, ?_, ?_⟩
  · simp [List.flatMap_append]
  · intro other member
    rcases List.mem_append.mp member with old | new
    · exact each other old
    · rw [List.mem_singleton.mp new]
      exact header
  · simp [List.filter_append, filtered, other]

theorem lf_notMem_uint64ToString (n : Nat) : lf ∉ uint64ToString n := by
  intro member
  have digit := Decimal.isDigit_of_mem_decimal n lf member
  revert digit
  decide

/-- The header of the length goes behind a head without one. -/
theorem IsHead.length (isHead : IsHead head []) (n : Nat) :
    IsHead (head ++ (clength ++ uint64ToString n ++ crlf)) [clength ++ uint64ToString n] := by
  obtain ⟨status, headers, rfl, isStatus, each, filtered⟩ := isHead
  refine ⟨status, headers ++ [clength ++ uint64ToString n], ?_, isStatus, ?_, ?_⟩
  · simp [List.flatMap_append]
  · intro other member
    rcases List.mem_append.mp member with old | new
    · exact each other old
    · rw [List.mem_singleton.mp new]
      have split : clength ++ uint64ToString n =
          text "Content-Length" ++ colon :: (space :: uint64ToString n) := by
        rw [show clength = text "Content-Length" ++ [colon, space] from by decide]
        simp
      rw [split]
      apply isHeader_of_name _ _ (by decide)
      intro feed
      rcases List.mem_cons.mp feed with blank | digit
      · exact absurd blank (by decide)
      · exact lf_notMem_uint64ToString n digit
  · have starts : isLength (clength ++ uint64ToString n) = true := by
      unfold isLength startsWithWord
      rw [List.take_append_of_le_length (by decide)]
      decide
    simp [List.filter_append, filtered, starts]

theorem IsHead.wellFormed {body : Bytes}
    (isHead : IsHead head [clength ++ uint64ToString body.length]) :
    WellFormedResponse (head ++ crlf ++ body) :=
  ⟨head, body, rfl, isHead⟩

end Head

/-- A status line alone is a head. -/
theorem isHead_status (version : Bytes) (known : version ∈ [text "HTTP/1.1 ", text "HTTP/1.0 "])
    (code : HttpCode) : IsHead (version ++ code.line) [] := by
  have split : ∃ status, status ++ crlf = version ++ code.line := by
    cases code with
    | ok => exact ⟨version ++ text "200 OK", by rw [List.append_assoc]; rfl⟩
    | created => exact ⟨version ++ text "201 Created", by rw [List.append_assoc]; rfl⟩
    | unauthorized => exact ⟨version ++ text "401 Unauthorized", by rw [List.append_assoc]; rfl⟩
    | notFound => exact ⟨version ++ text "404 Not Found", by rw [List.append_assoc]; rfl⟩
  obtain ⟨status, line⟩ := split
  refine ⟨status, [], ?_, ⟨version, known, code, line⟩, fun line member => ?_, rfl⟩
  · rw [line]
    simp
  · cases member

/-- A header of one constant line goes behind a head. -/
theorem IsHead.pushText {head : Bytes} {lengths : List Bytes} (isHead : IsHead head lengths)
    (name value : Bytes)
    (good : (!name.isEmpty && name.all fun c => isGraphic c && c != colon) = true)
    (one : lf ∉ value) (other : isLength (name ++ colon :: value) = false) :
    IsHead (head ++ (name ++ colon :: value ++ crlf)) lengths :=
  isHead.push _ (isHeader_of_name name value good one) other

/-- The start of every response is a head without a length. -/
theorem isHead_initHttpResponse (hreq : HttpReq) (close : Bool) (code : HttpCode) :
    IsHead (initHttpResponse hreq close code) [] := by
  have version : IsHead ((if hreq.opts.http11 then text "HTTP/1.1 " else text "HTTP/1.0 ") ++
      code.line) [] := by
    apply isHead_status
    split <;> simp
  have connection : IsHead ((if hreq.opts.http11 then text "HTTP/1.1 " else text "HTTP/1.0 ") ++
      code.line ++ (if hreq.closes close then text "Connection: close\r\n"
        else text "Connection: keep-alive\r\n")) [] := by
    by_cases closes : hreq.closes close = true
    · rw [if_pos closes]
      exact version.pushText (text "Connection") (text " close") (by decide) (by decide) (by decide)
    · rw [if_neg closes]
      exact version.pushText (text "Connection") (text " keep-alive") (by decide) (by decide)
        (by decide)
  unfold initHttpResponse
  by_cases created : code = .created
  · rw [if_pos created, List.append_nil]
    exact connection
  · rw [if_neg created]
    exact connection.pushText (text "Cache-Control") (text " no-cache") (by decide) (by decide)
      (by decide)

theorem pushCtypeHtml {head : Bytes} {lengths : List Bytes} (isHead : IsHead head lengths) :
    IsHead (head ++ ctypeHtml) lengths :=
  isHead.pushText (text "Content-Type") (text " text/html") (by decide) (by decide) (by decide)

theorem pushClength40 {head : Bytes} (isHead : IsHead head []) :
    IsHead (head ++ clength40) [clength ++ uint64ToString 40] := by
  have forty : clength40 = clength ++ uint64ToString 40 ++ crlf := by decide
  rw [forty]
  exact isHead.length 40

/-- A line with another first letter is not a header of the length. -/
theorem isLength_of_first {c : UInt8} (rest : Bytes) (other : lower c ≠ 99) :
    isLength (c :: rest) = false := by
  have word : (text "Content-Length:").map lower = 99 :: (text "ontent-length:") := by decide
  have length : (text "Content-Length:").length = 14 + 1 := by decide
  rw [isLength, startsWithWord, word, length, List.take_succ_cons, List.map_cons, beq_eq_false_iff_ne]
  intro same
  exact other (List.cons.inj same).1

/-- A missing key has one response. -/
theorem wellFormed_notFoundResponse (hreq : HttpReq) (close : Bool) :
    WellFormedResponse (notFoundResponse hreq close) :=
  (pushClength40 (pushCtypeHtml (isHead_initHttpResponse hreq close .notFound))).wellFormed

/-- A created key has one response, which names its path. -/
theorem wellFormed_createdResponse {hreq : HttpReq} (one : lf ∉ hreq.path) :
    WellFormedResponse (createdResponse hreq) := by
  have head := pushClength40 (pushCtypeHtml (isHead_initHttpResponse hreq false .created))
  have location : IsHead (initHttpResponse hreq false .created ++ ctypeHtml ++ clength40 ++
      (if hreq.path.isEmpty then [] else text "Location: " ++ hreq.path ++ crlf))
      [clength ++ uint64ToString 40] := by
    by_cases empty : hreq.path.isEmpty = true
    · rw [if_pos empty, List.append_nil]
      exact head
    · rw [if_neg empty]
      have other : isLength (text "Location" ++ colon :: (space :: hreq.path)) = false := by
        exact isLength_of_first _ (by decide)
      exact head.pushText (text "Location") (space :: hreq.path) (by decide)
        (fun feed => (List.mem_cons.mp feed).elim (by decide) one) other
  exact location.wellFormed

/-- The challenge of a server is one header, if its texts are on one line. -/
theorem wellFormed_unauthorizedResponse {σ β : Type} (env : HttpEnv σ β) (hreq : HttpReq)
    (code : HtAuthCode) (realm : ∀ db ∈ env.digestDb, lf ∉ db.realm)
    (nonce : lf ∉ env.svrNonce.nonce) (opaqueText : lf ∉ env.svrNonce.opaqueValue) :
    WellFormedResponse (unauthorizedResponse env hreq code) := by
  have start := isHead_initHttpResponse hreq false .unauthorized
  have challenge : IsHead (initHttpResponse hreq false .unauthorized ++
      genServer env (code = .stale)) [] := by
    unfold genServer
    cases known : env.digestDb with
    | none =>
        rw [List.append_nil]
        exact start
    | some db =>
        let stale : Bytes := if decide (code = .stale) then text "true" else text "false"
        let opaquePart : Bytes := if env.svrNonce.opaqueValue.isEmpty then []
          else text "\", opaque=\"" ++ env.svrNonce.opaqueValue
        let value := text " Digest realm=\"" ++ db.realm ++ text "\", qop=auth, stale=" ++ stale ++
          text ", nonce=\"" ++ env.svrNonce.nonce ++ opaquePart ++ text "\""
        have staleLine : lf ∉ stale := by
          show lf ∉ (if decide (code = .stale) then text "true" else text "false")
          split <;> decide
        have opaqueLine : lf ∉ opaquePart := by
          show lf ∉ (if env.svrNonce.opaqueValue.isEmpty then []
            else text "\", opaque=\"" ++ env.svrNonce.opaqueValue)
          split
          · exact List.not_mem_nil
          · rw [List.mem_append, not_or]
            exact ⟨by decide, opaqueText⟩
        have line : lf ∉ value := by
          simp only [value, List.mem_append, not_or]
          exact ⟨⟨⟨⟨⟨⟨⟨by decide, realm db known⟩, by decide⟩, staleLine⟩, by decide⟩, nonce⟩,
            opaqueLine⟩, by decide⟩
        have header := start.pushText (text "WWW-Authenticate") value (by decide) line
          (isLength_of_first _ (by decide))
        have front : text "WWW-Authenticate: Digest realm=\"" =
            text "WWW-Authenticate" ++ colon :: text " Digest realm=\"" := by decide
        have back : text "\"\r\n" = text "\"" ++ crlf := by decide
        simp only [value, List.append_assoc, List.cons_append] at header
        simp only [front, back, List.append_assoc, List.cons_append]
        exact header
  exact (pushClength40 (pushCtypeHtml challenge)).wellFormed

end Raids.Http
