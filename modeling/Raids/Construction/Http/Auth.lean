import Raids.Construction.Http.Request

namespace Raids.Http

def equals : UInt8 := 61

def colon : UInt8 := 58

/-- The outcome of a check of the authorization. -/
inductive HtAuthCode where
  | noauth | ok | username | realm | uri | response | count | cnonce | stale | nouser | norealm
  | passfail
  deriving DecidableEq, Repr

/-- The fields of the header, as far as they are found. -/
structure HttpDigestAuth where
  cnonce : Option Bytes := none
  opaqueValue : Option Bytes := none
  username : Option Bytes := none
  realm : Option Bytes := none
  nonce : Option Bytes := none
  uri : Option Bytes := none
  response : Option Bytes := none
  qop : Option Bytes := none
  nc : Option Bytes := none
  algorithm : Option Bytes := none
  deriving DecidableEq, Repr

/-- A string of the library ends at its first zero. -/
def cstr (bytes : Bytes) : Bytes := bytes.takeWhile (· != 0)

/-- The place of a value behind its name, and the character that ends it; zero stands for no
value. -/
def findValue : Bytes → Nat → Bool → Nat × UInt8
  | [], i, _ => (i, 0)
  | c :: rest, i, sawEquals =>
      if c = space ∨ c = lf ∨ c = cr then findValue rest (i + 1) sawEquals
      else if c = equals then findValue rest (i + 1) true
      else if c = doubleQuote then (i + 1, if sawEquals then doubleQuote else 0)
      else (i, if sawEquals then comma else 0)

/-- A quoted value needs its closing quote, another one goes up to a comma or to the end. -/
def matchValue (buf : Bytes) (i : Nat) (val : Bytes) : Nat × Option Bytes :=
  if buf.length ≤ i + val.length then (i, none)
  else if !startsWithWord (buf.drop i) val then (i, none)
  else
    match findValue (buf.drop (i + val.length)) (i + val.length) false with
    | (start, matchChar) =>
        let value := (buf.drop start).takeWhile (· != matchChar)
        if matchChar = 0 then (start, none)
        else if start + value.length < buf.length ∨ matchChar = comma then
          (start + value.length, some value)
        else (start, none)

/-- A word without a value. -/
def matchDigest (buf : Bytes) (i : Nat) : Nat :=
  let val := text "digest"
  if buf.length ≤ i + val.length then i
  else if startsWithWord (buf.drop i) val then i + val.length
  else i

/-- The first letter selects the fields that are tried, and a field is tried again with the next
name of its letter when the first one does not match. -/
def parseField (buf : Bytes) (i : Nat) (c : UInt8) (auth : HttpDigestAuth) :
    Nat × HttpDigestAuth :=
  let first := lower c
  if first = 97 then
    let m := matchValue buf i (text "algorithm")
    (m.1, { auth with algorithm := m.2.or auth.algorithm })
  else if first = 99 then
    let m := matchValue buf i (text "cnonce")
    (m.1, { auth with cnonce := m.2.or auth.cnonce })
  else if first = 100 then (matchDigest buf i, auth)
  else if first = 110 then
    let m := matchValue buf i (text "nonce")
    let auth := { auth with nonce := m.2.or auth.nonce }
    if m.1 = i then
      let m := matchValue buf i (text "nc")
      (m.1, { auth with nc := m.2.or auth.nc })
    else (m.1, auth)
  else if first = 111 then
    let m := matchValue buf i (text "opaque")
    (m.1, { auth with opaqueValue := m.2.or auth.opaqueValue })
  else if first = 113 then
    let m := matchValue buf i (text "qop")
    (m.1, { auth with qop := m.2.or auth.qop })
  else if first = 114 then
    let m := if auth.realm.isNone then matchValue buf i (text "realm") else (i, none)
    let auth := { auth with realm := m.2.or auth.realm }
    if m.1 = i then
      let m := matchValue buf i (text "response")
      (m.1, { auth with response := m.2.or auth.response })
    else (m.1, auth)
  else if first = 117 then
    let m := if auth.username.isNone then matchValue buf i (text "username") else (i, none)
    let auth := { auth with username := m.2.or auth.username }
    if m.1 = i then
      let m := matchValue buf i (text "uri")
      (m.1, { auth with uri := m.2.or auth.uri })
    else (m.1, auth)
  else (i, auth)

/-- The loop goes on behind the end of each match. -/
def parseFields (buf : Bytes) : Nat → Nat → HttpDigestAuth → HttpDigestAuth
  | 0, _, auth => auth
  | fuel + 1, i, auth =>
      match buf[i]? with
      | none => auth
      | some c => parseFields buf fuel ((parseField buf i c auth).1 + 1) (parseField buf i c auth).2

/-- A header that has the fields of the check. -/
structure AuthHeader where
  username : Bytes
  realm : Bytes
  uri : Bytes
  response : Bytes
  nc : Bytes
  cnonce : Bytes
  deriving DecidableEq, Repr

/-- A nonce in the header has to be the current one. -/
def checkFields (mynonce : Bytes) (auth : HttpDigestAuth) : Except HtAuthCode AuthHeader :=
  match auth.username with
  | none => .error .username
  | some username =>
    match auth.realm with
    | none => .error .realm
    | some realm =>
      match auth.uri with
      | none => .error .uri
      | some uri =>
        match auth.response with
        | none => .error .response
        | some response =>
          match auth.nc with
          | none => .error .count
          | some nc =>
            match auth.cnonce with
            | none => .error .cnonce
            | some cnonce =>
              if auth.nonce.any (cstr · != mynonce) then .error .stale
              else .ok ⟨username, realm, uri, response, nc, cnonce⟩

def parseAuth (mynonce : Bytes) (buf : Bytes) : Except HtAuthCode AuthHeader :=
  checkFields mynonce (parseFields buf buf.length 0 {})

/-- The database knows the hash of each user of its realm. -/
structure HtDigestDB where
  realm : Bytes
  find : Bytes → Option Bytes

def hexchar (n : Nat) : UInt8 := if n < 10 then (48 + n).toUInt8 else (87 + n).toUInt8

/-- The hexadecimal digits of a digest. -/
def hex (bits : Bytes) : Bytes :=
  bits.flatMap fun b => [hexchar (b.toNat / 16), hexchar (b.toNat % 16)]

/-- The hash of the request. -/
def ha2 (md5 : Bytes → Bytes) (method uri : Bytes) : Bytes :=
  hex (md5 (method ++ colon :: uri))

/-- The response of a client that knows the hash of the user. -/
def digestResponse (md5 : Bytes → Bytes) (ha1 nonce nc cnonce method uri : Bytes) : Bytes :=
  hex (md5 (ha1 ++ colon :: nonce ++ colon :: nc ++ colon :: cnonce ++ colon :: text "auth:" ++
    ha2 md5 method uri))

/-- The hash of a session. -/
def sessionHA1 (md5 : Bytes → Bytes) (ha1 nonce cnonce : Bytes) : Bytes :=
  hex (md5 (ha1 ++ colon :: nonce ++ colon :: cnonce))

/-- The response is compared with the one of the user, and with the one of a session. -/
def checkAuth (md5 : Bytes → Bytes) (db : HtDigestDB) (mynonce : Bytes) (auth : AuthHeader)
    (method : Bytes) : Option HtAuthCode :=
  match db.find (cstr auth.username) with
  | none => some .nouser
  | some ha1 =>
      let response := digestResponse md5 ha1 mynonce auth.nc auth.cnonce method auth.uri
      let session :=
        digestResponse md5 (sessionHA1 md5 ha1 mynonce auth.cnonce) mynonce auth.nc auth.cnonce
          method auth.uri
      if cstr auth.response = response then none
      else if cstr auth.response = session then none
      else some .passfail

/-- A request without an authorization, or with one that fails, is not executed. -/
def authorizeRequest (md5 : Bytes → Bytes) (db : HtDigestDB) (nonce : Bytes) (hreq : HttpReq) :
    Option HtAuthCode :=
  if hreq.authorize.isEmpty then some .noauth
  else
    match parseAuth nonce hreq.authorize with
    | .error code => some code
    | .ok auth => checkAuth md5 db nonce auth hreq.method

/-- A character that is no hexadecimal digit counts as zero. -/
def countDigit (c : UInt8) : UInt8 :=
  if 48 ≤ c ∧ c ≤ 57 then c - 48
  else if 97 ≤ c ∧ c ≤ 102 then c - 97 + 10
  else if 65 ≤ c ∧ c ≤ 70 then c - 65 + 10
  else 0

/-- The increment of the client is shifted by each digit of the count. -/
def clientIncr (nc : Bytes) : UInt32 :=
  (cstr nc).foldl (fun incr c => (incr <<< 4) ||| (countDigit c).toUInt32) 0

/-- The server has one number for each slot of its clients. -/
structure HttpServerReplay where
  replay : Nat → UInt32

namespace HttpServerReplay

def slots : Nat := 64 * 1024

/-- A new nonce starts without clients. -/
def regenerate : HttpServerReplay := ⟨fun _ => 0⟩

variable (crc : Bytes → UInt32)

/-- The slot of a user and a nonce of the client. -/
def slot (auth : AuthHeader) : Nat :=
  (crc (cstr auth.username) ^^^ crc (cstr auth.cnonce)).toNat % slots

/-- The number of the slot is compared with the increment, and goes up by one. -/
def checkReplay (s : HttpServerReplay) (auth : AuthHeader) : Bool × HttpServerReplay :=
  let h := slot crc auth
  (decide (clientIncr auth.nc < s.replay h),
    ⟨Function.update s.replay h (s.replay h + 1)⟩)

end HttpServerReplay

/-- The nonce is generated anew, or an authorization is checked. -/
inductive NonceAct where
  | regenerate
  | checkReplay (auth : AuthHeader)
  deriving DecidableEq, Repr

def nonceStep (crc : Bytes → UInt32) (s : HttpServerReplay) : NonceAct → HttpServerReplay
  | .regenerate => .regenerate
  | .checkReplay auth => (s.checkReplay crc auth).2

/-- A server that has seen some acts. -/
def nonceRun (crc : Bytes → UInt32) (acts : List NonceAct) : HttpServerReplay :=
  acts.foldl (nonceStep crc) .regenerate

end Raids.Http
