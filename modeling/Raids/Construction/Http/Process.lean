import Raids.Construction.Http.Auth
import Raids.Library.Machine

namespace Raids.Http

/-- The longest line that is waited for. -/
def maxHttpRequestLen : Nat := 65 * 1024

/-- The line at the front of the data and the data behind it. A line feed at the very front does
not end the line. -/
def nextLine : Bytes → Option (Bytes × Bytes)
  | [] => none
  | c :: rest =>
      match rest.dropWhile (· != lf) with
      | [] => none
      | eol :: after => some (c :: rest.takeWhile (· != lf) ++ [eol], after)

/-- The ways out of the loop over the lines. -/
inductive HeaderEnd where
  | wait
  | long
  | close
  | cut (req : HttpReq)
  | blank (req : HttpReq) (used : Nat)
  deriving DecidableEq, Repr

/-- The loop reads the request line and the headers up to a line of at most two bytes, or to the
end of the data. -/
def decodeHeaders : Nat → Option HttpReq → Nat → Bytes → HeaderEnd
  | 0, _, _, _ => .wait
  | fuel + 1, req, used, data =>
      if data.isEmpty then req.elim .wait .cut
      else
        match nextLine data with
        | none => if maxHttpRequestLen < data.length then .long else .wait
        | some (line, rest) =>
            if line.length ≤ 2 then req.elim .close fun req => .blank req (used + line.length)
            else
              match req with
              | none =>
                  match parseVersion line with
                  | none => .close
                  | some req => decodeHeaders fuel (some req) (used + line.length) rest
              | some req =>
                  decodeHeaders fuel (some (req.parseHeader line)) (used + line.length) rest

/-- The headers at the front of the data. -/
def headersOf (data : Bytes) : HeaderEnd := decodeHeaders (data.length + 1) none 0 data

/-- What the loop does with the data. -/
inductive Framing where
  | wait
  | close
  | request (req : HttpReq) (size : Nat)
  deriving DecidableEq, Repr

/-- The end of the body is compared as an address of 64 bits. -/
def frameBody (addr : Nat) (data : Bytes) (req : HttpReq) (used : Nat) : Framing :=
  let size := (used + req.contentLength) % 2 ^ 64
  if addr + data.length < (addr + size) % 2 ^ 64 then .wait
  else .request { req with data := (data.drop used).take req.contentLength } size

/-- Data that ends with a line has used nothing of its headers. -/
def frameRequest (addr : Nat) (data : Bytes) : Framing :=
  match headersOf data with
  | .wait => .wait
  | .long => .close
  | .close => .close
  | .cut req => frameBody addr data req 0
  | .blank req used => frameBody addr data req used

/-- What a request asks of the service. -/
structure HttpService (σ : Type) where
  checkAuth : HttpReq → Option HtAuthCode
  send401 : σ → HttpReq → HtAuthCode → σ
  send404 : σ → HttpReq → (close : Bool) → σ
  send201 : σ → HttpReq → σ
  sendWsUpgrade : σ → HttpReq → Option σ
  processGet : σ → HttpReq → σ × Bool
  processPost : σ → HttpReq → σ × Bool

/-- The loop goes on behind a request, or is left, or the frames of a websocket follow. -/
inductive Next where
  | again
  | leave
  | websocket
  deriving DecidableEq, Repr

/-- A request line starts with the letter of its method. -/
def startsWith (httpRequest : Bytes) (letter : UInt8) : Bool :=
  (httpRequest.take 1).map lower == [letter]

/-- The headers ask for a websocket. -/
def HttpReq.wantsWebsocket (hreq : HttpReq) : Bool :=
  hreq.opts.upgrade && hreq.opts.websocket && !hreq.wsver.isEmpty && !hreq.wskey.isEmpty

section Loop

variable {σ : Type} (svc : HttpService σ)

/-- A request is refused, or executed and answered. -/
def serve (app : σ) (httpRequest : Bytes) (hreq : HttpReq) : σ × Next :=
  match svc.checkAuth hreq with
  | some code => (svc.send401 app hreq code, .leave)
  | none =>
      if startsWith httpRequest 103 then
        if hreq.wantsWebsocket then
          match svc.sendWsUpgrade app hreq with
          | some app => (app, .websocket)
          | none => (svc.send404 app hreq false, .again)
        else
          match svc.processGet app hreq with
          | (app, true) => (app, .again)
          | (app, false) => (svc.send404 app hreq false, .again)
      else if startsWith httpRequest 112 then
        match svc.processPost app hreq with
        | (app, true) => (svc.send201 app hreq, .again)
        | (app, false) => (svc.send404 app hreq false, .again)
      else (svc.send404 app hreq true, .leave)

/-- A connection reads requests until it is closed or a websocket. A loop may still go on, and it
may look behind the received data. -/
inductive HttpMode where
  | http
  | websocket
  | closed
  | running
  | outside
  deriving DecidableEq, Repr

/-- One round of the loop: the data that it looks at and its offsets before and behind it. -/
structure HttpRound (σ : Type) where
  app : σ
  addr : Nat
  data : Bytes
  off : Nat
  len : Nat
  framing : Framing
  next : Nat

/-- A connection with its receive buffer. -/
structure HttpConnection (σ : Type) where
  app : σ
  mode : HttpMode := .http
  recv : Bytes := []
  off : Nat := 0
  rounds : List (HttpRound σ) := []

/-- The request of a round. -/
def HttpRound.request? (round : HttpRound σ) : Option HttpReq :=
  match round.framing with
  | .request req _ => some req
  | _ => none

/-- The requests that the connection has handled. -/
def HttpConnection.requests (conn : HttpConnection σ) : List HttpReq :=
  conn.rounds.filterMap HttpRound.request?

/-- The round of a connection whose buffer has an address. -/
def HttpConnection.round (conn : HttpConnection σ) (addr next : Nat) : HttpRound σ :=
  { app := conn.app
    addr := addr + conn.off
    data := conn.recv.drop conn.off
    off := conn.off
    len := conn.recv.length
    framing := frameRequest (addr + conn.off) (conn.recv.drop conn.off)
    next := next }

def HttpConnection.log (conn : HttpConnection σ) (addr next : Nat) : HttpConnection σ :=
  { conn with rounds := conn.rounds ++ [conn.round addr next] }

/-- A connection goes on behind a request. -/
def HttpConnection.advance (conn : HttpConnection σ) (addr next : Nat) (app : σ) :
    HttpConnection σ :=
  { conn.log addr next with app := app, off := next }

/-- The loop over the requests in a buffer at an address; the offset has 32 bits. -/
def processHttp (addr : Nat) : Nat → HttpConnection σ → HttpConnection σ
  | 0, conn => { conn with mode := .running }
  | fuel + 1, conn =>
      if conn.recv.length < conn.off then { conn with mode := .outside }
      else if conn.recv.length = conn.off then conn
      else
        match frameRequest (addr + conn.off) (conn.recv.drop conn.off) with
        | .wait => conn.log addr conn.off
        | .close => { conn.log addr conn.off with mode := .closed }
        | .request hreq size =>
            let next := (conn.off + size) % 2 ^ 32
            let served := serve svc conn.app (conn.recv.drop conn.off) hreq
            let conn := conn.advance addr next served.1
            match served.2 with
            | .again => processHttp addr fuel conn
            | .leave => conn
            | .websocket => { conn with mode := .websocket }

/-- Bytes arrive behind the received data, which may be moved to the front of a buffer. -/
structure Receive where
  bytes : Bytes
  addr : Nat
  compact : Bool

/-- The buffer of the connection when bytes arrive. -/
def HttpConnection.buffer (conn : HttpConnection σ) (receive : Receive) : HttpConnection σ :=
  if receive.compact then
    { conn with recv := conn.recv.drop conn.off ++ receive.bytes, off := 0 }
  else { conn with recv := conn.recv ++ receive.bytes }

/-- The loop runs when bytes arrive. A loop that has more rounds than bytes is still running. -/
def receiveHttp (conn : HttpConnection σ) (receive : Receive) : HttpConnection σ :=
  let conn := conn.buffer receive
  if conn.mode = .http then processHttp svc receive.addr (conn.recv.length + 1) conn else conn

/-- A connection that has received some bytes. -/
def connectionAfter (app : σ) (receives : List Receive) : HttpConnection σ :=
  receives.foldl (receiveHttp svc) { app := app }

end Loop

/-- A request that was executed, with the nonce of the server at that time. -/
structure Execution where
  nonce : Bytes
  req : HttpReq
  deriving DecidableEq

/-- The service behind the connections and the requests that it has executed. -/
structure Executed (σ : Type) where
  app : σ
  executed : List Execution := []

section Service

variable {σ : Type} (md5 : Bytes → Bytes) (db : HtDigestDB) (svc : HttpService σ)

/-- The digest of a request is checked before the service executes it. -/
def digestService (nonce : Bytes) : HttpService (Executed σ) where
  checkAuth := authorizeRequest md5 db nonce
  send401 := fun s req code => { s with app := svc.send401 s.app req code }
  send404 := fun s req close => { s with app := svc.send404 s.app req close }
  send201 := fun s req => { s with app := svc.send201 s.app req }
  sendWsUpgrade := fun s req =>
    (svc.sendWsUpgrade s.app req).map fun app => ⟨app, s.executed ++ [⟨nonce, req⟩]⟩
  processGet := fun s req =>
    (⟨(svc.processGet s.app req).1, s.executed ++ [⟨nonce, req⟩]⟩, (svc.processGet s.app req).2)
  processPost := fun s req =>
    (⟨(svc.processPost s.app req).1, s.executed ++ [⟨nonce, req⟩]⟩, (svc.processPost s.app req).2)

/-- A server has a nonce, and a connection for each client. -/
structure DigestServer (σ : Type) where
  nonce : Bytes
  served : Executed σ
  conns : Nat → HttpConnection (Executed σ)

/-- A server without requests. -/
def digestServer (nonce : Bytes) (app : σ) : DigestServer σ :=
  ⟨nonce, { app := app }, fun _ => { app := { app := app } }⟩

/-- Bytes of a client arrive, or the nonce is generated anew. -/
inductive DigestAct where
  | receive (client : Nat) (receive : Receive)
  | regenerate (nonce : Bytes)

/-- The connections of all clients use the same service. -/
def digestStep (server : DigestServer σ) : DigestAct → DigestServer σ
  | .receive client receive =>
      let conn :=
        receiveHttp (digestService md5 db svc server.nonce)
          { server.conns client with app := server.served } receive
      { server with served := conn.app, conns := Function.update server.conns client conn }
  | .regenerate nonce => { server with nonce := nonce }

/-- A server that has seen some acts. -/
def digestRun (server : DigestServer σ) (acts : List DigestAct) : DigestServer σ :=
  acts.foldl (digestStep md5 db svc) server

end Service

end Raids.Http
