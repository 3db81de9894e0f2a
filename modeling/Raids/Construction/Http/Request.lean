import Raids.Construction.Cmd.KeyGeometry
import Raids.Construction.Msg.Json

namespace Raids.Http
open Decimal

def space : UInt8 := 32

def slash : UInt8 := 47

def semicolon : UInt8 := 59

/-- The headers that are useful, as flags. -/
structure HttpOpts where
  http11 : Bool := false
  upgrade : Bool := false
  keepAlive : Bool := false
  close : Bool := false
  websocket : Bool := false
  deriving DecidableEq, Repr

/-- The request line, the headers and the body of a request. -/
structure HttpReq where
  wsver : Bytes := []
  wskey : Bytes := []
  wspro : Bytes := []
  contentType : Bytes := []
  wskeylen : Nat := 0
  contentLength : Nat := 0
  method : Bytes := []
  path : Bytes := []
  data : Bytes := []
  authorize : Bytes := []
  opts : HttpOpts := {}
  deriving DecidableEq, Repr

/-- The buffer of a header value, with its final zero. -/
def strSz : Nat := 128

/-- A line loses its line feed and a carriage return in front of it. -/
def stripEol (line : Bytes) : Bytes :=
  if line.getLast? = some lf then
    if line.dropLast.getLast? = some cr then line.dropLast.dropLast else line.dropLast
  else line

/-- A line starts with a word, without regard to case. -/
def startsWithWord (line word : Bytes) : Bool :=
  (line.take word.length).map lower == word.map lower

/-- The version is behind the last space, the path starts at the first slash behind the method. -/
def parseVersion (line : Bytes) : Option HttpReq :=
  let body := stripEol line
  if body.length ≤ 9 then none
  else
    let before := (body.reverse.dropWhile (· != space)).reverse
    let version := line.drop before.length
    let body := if before.isEmpty then body else before.dropLast
    let fromMethod := body.dropWhile (· == space)
    let method := fromMethod.takeWhile (· != space)
    let behind := fromMethod.dropWhile (· != space)
    let path := behind.dropWhile (· != slash)
    if method.isEmpty || behind.isEmpty || path.isEmpty then none
    else
      some
        { method := method
          path := path
          opts :=
            { http11 := startsWithWord version (text "HTTP/1.1") ||
                startsWithWord version (text "HTTP/2") } }

/-- The tokens of a connection header are separated by commas. -/
def connectionOpts : Nat → Bytes → HttpOpts → HttpOpts
  | 0, _, opts => opts
  | fuel + 1, value, opts =>
      let value := value.dropWhile (· == space)
      if value.isEmpty then opts
      else
        let opts :=
          if startsWithWord value (text "upgrade") then { opts with upgrade := true }
          else if startsWithWord value (text "keep-alive") then { opts with keepAlive := true }
          else if startsWithWord value (text "close") then { opts with close := true }
          else opts
        match value.dropWhile (· != comma) with
        | [] => opts
        | _ :: rest => connectionOpts fuel rest opts

/-- A signed character is above the space. -/
def isGraphic (c : UInt8) : Bool := 32 < c && c < 128

/-- A value goes up to its first blank, as far as its buffer has room. -/
def headerValue (value : Bytes) : Bytes := (value.takeWhile isGraphic).take (strSz - 1)

def wsguid : Bytes := text "258EAFA5-E914-47DA-95CA-C5AB0DC85B11"

/-- The key of a websocket gets the guid behind it, if there is room. -/
def HttpReq.setWskey (req : HttpReq) (key : Bytes) : HttpReq :=
  if key.length + (wsguid.length + 1) < strSz then
    { req with wskey := key ++ wsguid, wskeylen := key.length + wsguid.length }
  else { req with wskey := key }

/-- A number that is too long leaves the content length as it was. -/
def HttpReq.setContentLength (req : HttpReq) (value : Bytes) : HttpReq :=
  match stringToUint (value.takeWhile fun c => 48 ≤ c && c ≤ 57) with
  | .ok n => { req with contentLength := n }
  | .error _ => req

/-- The headers that are useful change the request. -/
def HttpReq.parseHeader (req : HttpReq) (line : Bytes) : HttpReq :=
  let body := stripEol line
  let conn := text "Connection: "
  let clen := text "Content-Length: "
  let ctyp := text "Content-Type: "
  let vers := text "Sec-WebSocket-Version: "
  let key := text "Sec-WebSocket-Key: "
  let prot := text "Sec-WebSocket-Protocol: "
  if startsWithWord line (text "Authorization: ") then { req with authorize := body }
  else if startsWithWord line conn then
    { req with opts := connectionOpts (body.length + 1) (body.drop conn.length) req.opts }
  else if startsWithWord line clen then req.setContentLength (line.drop clen.length)
  else if startsWithWord line ctyp then
    { req with
      contentType :=
        ((body.drop ctyp.length).takeWhile fun c => isGraphic c && c != semicolon).take
          (strSz - 1) }
  else if startsWithWord line (text "Upgrade: websocket") then
    { req with opts := { req.opts with websocket := true } }
  else if startsWithWord line vers then { req with wsver := headerValue (body.drop vers.length) }
  else if startsWithWord line key then req.setWskey (headerValue (body.drop key.length))
  else if startsWithWord line prot then { req with wspro := headerValue (body.drop prot.length) }
  else req

end Raids.Http
