import Raids.Construction.Http.Process
import Raids.Construction.Msg.Pack

namespace Raids.Http

/-- The output stream of the event library: the buffers that are to be sent, and the pending bytes
of the tail buffer. `assign` writes at the place of `alloc` and sets the count of pending bytes. -/
structure StreamBuf (β : Type) where
  iov : β → List Bytes
  out : β → Bytes
  flush : β → β
  assign : β → Bytes → β
  append : β → Bytes → β
  appendIov : β → Bytes → β
  truncate : β → Nat → β
  prependFlush : β → Nat → β

namespace StreamBuf

variable {β : Type} (buf : StreamBuf β)

/-- The bytes that are not sent yet. -/
def bytes (strm : β) : Bytes := (buf.iov strm).flatten ++ buf.out strm

def pending (strm : β) : Nat := (buf.bytes strm).length

/-- What the service relies on: `alloc` returns the free space behind the pending bytes of the tail
buffer, and the other operations keep the order of the bytes. -/
structure Lawful : Prop where
  iov_flush : ∀ strm, buf.iov (buf.flush strm) = buf.iov strm ++ [buf.out strm]
  out_flush : ∀ strm, buf.out (buf.flush strm) = []
  iov_assign : ∀ strm s, buf.iov (buf.assign strm s) = buf.iov strm
  out_assign : ∀ strm s, buf.out (buf.assign strm s) = (buf.out strm ++ s).take s.length
  bytes_append : ∀ strm s, buf.bytes (buf.append strm s) = buf.bytes strm ++ s
  iov_append : ∀ strm s, buf.iov strm <+: buf.iov (buf.append strm s)
  bytes_appendIov : ∀ strm s, buf.bytes (buf.appendIov strm s) = buf.bytes strm ++ s
  bytes_truncate : ∀ strm off, buf.bytes (buf.truncate strm off) = (buf.bytes strm).take off
  out_truncate : ∀ strm off, off ≤ (buf.iov strm).flatten.length →
    buf.out (buf.truncate strm off) = []
  iov_prependFlush : ∀ strm i, i ≤ (buf.iov strm).length →
    buf.iov (buf.prependFlush strm i) =
      (buf.iov strm).take i ++ buf.out strm :: (buf.iov strm).drop i
  out_prependFlush : ∀ strm i, buf.out (buf.prependFlush strm i) = []

end StreamBuf

/-- The value of a hexadecimal digit, as the source has it. -/
def hexval (c : UInt8) : UInt8 :=
  if 48 ≤ c ∧ c ≤ 57 then c - 48 else if 65 ≤ c then c - 65 + 10 else c - 97 + 10

def isXdigit (c : UInt8) : Bool :=
  (48 ≤ c && c ≤ 57) || (65 ≤ c && c ≤ 70) || (97 ≤ c && c ≤ 102)

/-- The names behind an ampersand and their characters. -/
def ampChars : List (Bytes × UInt8) :=
  [(text "apos;", 38), (text "quot;", 34), (text "amp;", 38), (text "lt;", 60), (text "gt;", 62)]

/-- The decoded characters, as far as the buffer has room. -/
def decodeUri : Nat → Bytes → Bytes
  | 0, _ => []
  | _, [] => []
  | room + 1, c :: rest =>
      if c = 37 then
        match rest with
        | a :: b :: tail =>
            if isXdigit a && isXdigit b then (hexval a <<< 4 ||| hexval b) :: decodeUri room tail
            else c :: decodeUri room (a :: b :: tail)
        | rest => c :: decodeUri room rest
      else if c = 43 then space :: decodeUri room rest
      else if c = 38 then
        match ampChars.find? fun amp => startsWithWord rest amp.1 with
        | some (name, char) => char :: decodeUri room (rest.drop name.length)
        | none => c :: decodeUri room rest
      else c :: decodeUri room rest

/-- The suffixes of the known types. -/
def mimeTypes : List (Bytes × Bytes) :=
  [(text ".js", text "text/javascript"), (text ".md", text "text/markdown"),
    (text ".css", text "text/css"), (text ".scss", text "text/x-scss"),
    (text ".adoc", text "text/asciidoc"), (text ".asciidoc", text "text/asciidoc"),
    (text ".htm", text "text/html"), (text ".ico", text "image/png"),
    (text ".jpg", text "image/jpeg"), (text ".png", text "image/png"),
    (text ".json", text "application/json"), (text ".svg", text "image/svg+xml"),
    (text ".html", text "text/html"), (text ".txt", text "text/plain"),
    (text ".xml", text "text/xml")]

def octetStream : Bytes := text "application/octet-stream"

/-- The type of a path, and whether it has the suffix of a compressed file in front of which the
type is looked up. -/
def getMimeType (path : Bytes) : Bytes × Bool :=
  let gz := text ".gz"
  let isGzip := gz.isSuffixOf path
  let plain := if isGzip then path.take (path.length - gz.length) else path
  if plain.length < 3 then (octetStream, isGzip)
  else
    match mimeTypes.find? fun mime => mime.1.isSuffixOf plain with
    | some (_, mtype) => (mtype, isGzip)
    | none => (octetStream, isGzip)

/-- The codes of the responses. -/
inductive HttpCode where
  | ok | created | unauthorized | notFound
  deriving DecidableEq, Repr

def HttpCode.line : HttpCode → Bytes
  | .ok => text "200 OK\r\n"
  | .created => text "201 Created\r\n"
  | .unauthorized => text "401 Unauthorized\r\n"
  | .notFound => text "404 Not Found\r\n"

/-- The connection is closed behind the response. -/
def HttpReq.closes (hreq : HttpReq) (close : Bool) : Bool :=
  hreq.opts.close || close || (!hreq.opts.http11 && !hreq.opts.keepAlive)

def initHttpResponse (hreq : HttpReq) (close : Bool) (code : HttpCode) : Bytes :=
  (if hreq.opts.http11 then text "HTTP/1.1 " else text "HTTP/1.0 ") ++ code.line ++
    (if hreq.closes close then text "Connection: close\r\n"
      else text "Connection: keep-alive\r\n") ++
    (if code = .created then [] else text "Cache-Control: no-cache\r\n")

def ctypeHtml : Bytes := text "Content-Type: text/html\r\n"

def clength40 : Bytes := text "Content-Length: 40\r\n"

def clength : Bytes := text "Content-Length: "

def notFoundHtml : Bytes := text "<html><body> Not  Found </body></html>\r\n"

def unauthorizedHtml : Bytes := text "<html><body>Unauthorized</body></html>\r\n"

def createdHtml : Bytes := text "<html><body>  Created   </body></html>\r\n"

/-- A request is executed as one of three commands. -/
inductive HttpCommand where
  | get (key : Bytes)
  | set (key data : Bytes)
  | message (msg : RedisMsg)

/-- The statuses of an execution that the service tells apart. -/
inductive HttpExecStatus where
  | setupOk | quit | debug | other
  deriving DecidableEq, Repr

/-- The outcome of an execution: its output, and the output of its status. -/
structure HttpAnswer (σ : Type) where
  app : σ
  status : HttpExecStatus
  reply : Bytes
  statusReply : Bytes

/-- The nonce and the opaque string of a server. -/
structure HttpServerNonce where
  nonce : Bytes
  opaqueValue : Bytes

/-- What the service is built on: the stream, the digits of a number in a given width, the
execution of commands, the digest and the upgrade to a websocket. -/
structure HttpEnv (σ β : Type) where
  buf : StreamBuf β
  digits : Nat → Nat → Bytes
  wrk : ScratchMem
  exec : σ → HttpCommand → HttpAnswer σ
  md5 : Bytes → Bytes
  digestDb : Option HtDigestDB
  svrNonce : HttpServerNonce

/-- The service and the stream of a connection. -/
structure HttpState (σ β : Type) where
  app : σ
  strm : β
  shutdown : Bool := false

section Service

variable {σ β : Type} (env : HttpEnv σ β)

/-- The challenge of the server. -/
def genServer (stale : Bool) : Bytes :=
  match env.digestDb with
  | none => []
  | some db =>
      text "WWW-Authenticate: Digest realm=\"" ++ db.realm ++ text "\", qop=auth, stale=" ++
        (if stale then text "true" else text "false") ++ text ", nonce=\"" ++ env.svrNonce.nonce ++
        (if env.svrNonce.opaqueValue.isEmpty then []
          else text "\", opaque=\"" ++ env.svrNonce.opaqueValue) ++
        text "\"\r\n"

/-- A response is written at the place of `alloc`, and the count is set to its length. -/
def sendResponse (st : HttpState σ β) (hreq : HttpReq) (close : Bool) (response : Bytes) :
    HttpState σ β :=
  { st with
    strm := env.buf.assign st.strm response
    shutdown := st.shutdown || hreq.closes close }

def notFoundResponse (hreq : HttpReq) (close : Bool) : Bytes :=
  initHttpResponse hreq close .notFound ++ ctypeHtml ++ clength40 ++ crlf ++ notFoundHtml

def send404NotFound (st : HttpState σ β) (hreq : HttpReq) (close : Bool) : HttpState σ β :=
  sendResponse env st hreq close (notFoundResponse hreq close)

def unauthorizedResponse (hreq : HttpReq) (code : HtAuthCode) : Bytes :=
  initHttpResponse hreq false .unauthorized ++ genServer env (code = .stale) ++ ctypeHtml ++
    clength40 ++ crlf ++ unauthorizedHtml

def send401Unauthorized (st : HttpState σ β) (hreq : HttpReq) (code : HtAuthCode) :
    HttpState σ β :=
  sendResponse env st hreq false (unauthorizedResponse env hreq code)

def createdResponse (hreq : HttpReq) : Bytes :=
  initHttpResponse hreq false .created ++ ctypeHtml ++ clength40 ++
    (if hreq.path.isEmpty then [] else text "Location: " ++ hreq.path ++ crlf) ++ crlf ++
    createdHtml

def send201Created (st : HttpState σ β) (hreq : HttpReq) : HttpState σ β :=
  sendResponse env st hreq false (createdResponse hreq)

/-- The formats of a reply. -/
inductive HttpFormat where
  | file | resp | json
  deriving DecidableEq, Repr

/-- A query starts behind a question mark. -/
def httpFormat (path : Bytes) : HttpFormat × Nat :=
  if path[1]? = some 63 then (.resp, 2)
  else if path[1]? = some 106 ∧ path[2]? = some 115 ∧ path[3]? = some 63 then (.json, 4)
  else (.file, 1)

/-- The size of the buffer of a path. -/
def pathBuf : Nat := 1024

/-- An empty path is the index. -/
def decodePath (s : Bytes) : Bytes :=
  let buf := decodeUri (pathBuf - 1) s
  if buf.isEmpty then text "index.html" else buf

/-- The command of a path, if it is not too long and a query is a message. -/
def getCommand (path : Bytes) : Option HttpCommand :=
  if pathBuf - 11 < path.length - 1 then none
  else
    let buf := decodePath (path.drop (httpFormat path).2)
    match (httpFormat path).1 with
    | .file => some (.get buf)
    | _ =>
        match unpack env.wrk (buf ++ crlf) with
        | .ok (msg, _) => some (.message msg)
        | .error _ => none

/-- The tail is flushed when it has bytes. -/
def flushTail (strm : β) : β :=
  if (env.buf.out strm).isEmpty then strm else env.buf.flush strm

/-- The difference of two sizes wraps. -/
def sizeSub (n off : Nat) : Nat := if off ≤ n then n - off else 2 ^ 64 + n - off

/-- A JSON reply; its length is counted from the start of the stream. -/
def getJson (st : HttpState σ β) (hreq : HttpReq) (off : Nat) : HttpState σ β × Bool :=
  let s := (env.buf.bytes st.strm).drop off
  let st := { st with strm := env.buf.truncate st.strm off }
  match unpack env.wrk s with
  | .error _ => (st, false)
  | .ok (m, _) =>
      let n := m.toAlmostJsonSize false + 2
      let length := env.digits (sizeSub n off) (uint64Digits n)
      ({ st with
          strm :=
            env.buf.assign st.strm
              (initHttpResponse hreq false .ok ++ text "Content-Type: application/json\r\n" ++
                clength ++ length ++ crlf ++ crlf ++ m.toAlmostJson false ++ crlf) },
        true)

/-- A reply as it is; its header is put in front of it. -/
def getResp (st : HttpState σ β) (hreq : HttpReq) (off i : Nat) : HttpState σ β × Bool :=
  let strm := env.buf.flush st.strm
  let n := env.buf.pending strm - off
  ({ st with
      strm :=
        env.buf.prependFlush
          (env.buf.assign strm
            (initHttpResponse hreq false .ok ++ text "Content-Type: application/x-resp\r\n" ++
              clength ++ env.digits n (uint64Digits n) ++ crlf ++ crlf)) i },
    true)

/-- The value of a key; another reply is no file. -/
def getFile (st : HttpState σ β) (hreq : HttpReq) (path : Bytes) (off : Nat) :
    HttpState σ β × Bool :=
  let s := (env.buf.bytes st.strm).drop off
  let st := { st with strm := env.buf.truncate st.strm off }
  match unpack env.wrk s with
  | .ok (.string .bulkString len strval, _) =>
      if 0 ≤ len then
        let mime := getMimeType path
        let n := len.toNat
        ({ st with
            strm :=
              env.buf.appendIov
                (env.buf.assign st.strm
                  (initHttpResponse hreq false .ok ++ text "Content-Type: " ++
                    (if mime.2 then text "Content-Encoding: gzip\r\n" else []) ++ mime.1 ++ crlf ++
                    clength ++ env.digits n (uint64Digits n) ++ crlf ++ crlf))
                (strval.take n) },
          true)
      else (st, false)
  | _ => (st, false)

/-- The reply of an execution becomes a response. -/
def respond (st : HttpState σ β) (hreq : HttpReq) (off i : Nat) : HttpState σ β × Bool :=
  if env.buf.pending st.strm = off then (st, false)
  else
    let st := { st with shutdown := st.shutdown || hreq.closes false }
    match (httpFormat hreq.path).1 with
    | .json => getJson env st hreq off
    | .resp => getResp env st hreq off i
    | .file => getFile env st hreq (decodePath (hreq.path.drop 1)) off

/-- A path is a key or a query. -/
def processGet (st : HttpState σ β) (hreq : HttpReq) : HttpState σ β × Bool :=
  match getCommand env hreq.path with
  | none => (st, false)
  | some command =>
      let strm := flushTail env st.strm
      let off := env.buf.pending strm
      let i := (env.buf.iov strm).length
      let answer := env.exec st.app command
      let replied := env.buf.append strm answer.reply
      let stated := env.buf.append replied answer.statusReply
      match answer.status with
      | .debug => ({ st with app := answer.app, strm := replied }, false)
      | .setupOk => respond env { st with app := answer.app, strm := replied } hreq off i
      | status =>
          let st := { st with app := answer.app, shutdown := st.shutdown || status == HttpExecStatus.quit }
          if (httpFormat hreq.path).1 = .file then
            ({ st with strm := env.buf.truncate stated off }, false)
          else respond env { st with strm := stated } hreq off i

/-- The body of a request is the value of its path; the reply of the execution is dropped. -/
def processPost (st : HttpState σ β) (hreq : HttpReq) : HttpState σ β × Bool :=
  let strm := flushTail env st.strm
  let off := env.buf.pending strm
  let answer := env.exec st.app (.set (decodePath (hreq.path.drop 1)) hreq.data)
  let replied := env.buf.append strm answer.reply
  ({ st with app := answer.app, strm := env.buf.truncate replied off },
    answer.status = .setupOk && env.buf.pending replied != off)

/-- The service of a connection, with its upgrade to a websocket. -/
def httpService (sendWsUpgrade : HttpState σ β → HttpReq → Option (HttpState σ β)) :
    HttpService (HttpState σ β) where
  checkAuth := fun hreq =>
    match env.digestDb with
    | none => none
    | some db => authorizeRequest env.md5 db env.svrNonce.nonce hreq
  send401 := send401Unauthorized env
  send404 := send404NotFound env
  send201 := send201Created env
  sendWsUpgrade := sendWsUpgrade
  processGet := processGet env
  processPost := processPost env

end Service

/-- A byte of the text, or one at its end or behind it. -/
def peek (beyond : Nat → UInt8) (s : Bytes) (i : Nat) : UInt8 :=
  (s[i]?).getD (beyond (i - s.length))

/-- The comparison without regard to case reads up to the first difference. -/
def strncasecmp (beyond : Nat → UInt8) (s : Bytes) : Nat → Bytes → Bool × List Nat
  | _, [] => (true, [])
  | i, c :: str =>
      if lower (peek beyond s i) = lower c then
        let (same, reads) := strncasecmp beyond s (i + 1) str
        (same, i :: reads)
      else (false, [i])

/-- The names are compared one behind the other. -/
def findAmp (beyond : Nat → UInt8) (s : Bytes) :
    List (Bytes × UInt8) → Option (Bytes × UInt8) × List Nat
  | [] => (none, [])
  | amp :: amps =>
      let (same, reads) := strncasecmp beyond s 1 amp.1
      if same then (some amp, reads)
      else
        let (found, more) := findAmp beyond s amps
        (found, reads ++ more)

/-- One turn of the loop: the character that it writes, the bytes that it leaves behind, and the
places that it reads. -/
structure DecodeTurn where
  char : UInt8
  len : Nat
  reads : List Nat
  deriving DecidableEq, Repr

def decodeTurn (beyond : Nat → UInt8) (s : Bytes) : DecodeTurn :=
  let c := peek beyond s 0
  if c = 37 then
    let a := peek beyond s 1
    let b := peek beyond s 2
    if isXdigit a then
      if isXdigit b then ⟨hexval a <<< 4 ||| hexval b, 3, [0, 1, 2]⟩ else ⟨c, 1, [0, 1, 2]⟩
    else ⟨c, 1, [0, 1]⟩
  else if c = 43 then ⟨space, 1, [0]⟩
  else if c = 38 then
    match findAmp beyond s ampChars with
    | (some (name, char), reads) => ⟨char, name.length + 1, 0 :: reads⟩
    | (none, reads) => ⟨c, 1, 0 :: reads⟩
  else ⟨c, 1, [0]⟩

/-- The characters that are written while the buffer has room, and whether a byte at the end of the
text or behind it is read. -/
def decodeLoop (beyond : Nat → UInt8) : Nat → Bytes → Bytes × Bool
  | 0, _ => ([], false)
  | room + 1, s =>
      if s = [] then ([], false)
      else
        let turn := decodeTurn beyond s
        let (q, past) := decodeLoop beyond room (s.drop turn.len)
        (turn.char :: q, turn.reads.any (s.length ≤ ·) || past)

/-- The buffer with its final zero, its length without it, and whether the text is left. -/
def HttpReq.decodeUri (beyond : Nat → UInt8) (s : Bytes) (qlen : Nat) : Bytes × Nat × Bool :=
  let (q, past) := decodeLoop beyond (qlen - 1) s
  (q ++ [0], q.length, past)

end Raids.Http
