import Raids.Construction.Http.Process
import Raids.Proof.Http.Chunks

namespace Raids.Http

section Loop

variable {σ : Type} {svc : HttpService σ} {Inv : σ → Prop}

/-- An invariant of the service that each request keeps is kept by the loop. -/
theorem app_processHttp
    (keep : ∀ app httpRequest req, Inv app → Inv (serve svc app httpRequest req).1)
    (addr fuel : Nat) {conn : HttpConnection σ} (start : Inv conn.app) :
    Inv (processHttp svc addr fuel conn).app := by
  induction fuel generalizing conn with
  | zero => exact start
  | succ fuel ih =>
      rw [processHttp]
      split
      · exact start
      · split
        · exact start
        · split
          · exact start
          · exact start
          · rename_i req size _
            have served := keep conn.app (conn.recv.drop conn.off) req start
            simp only
            split
            · exact ih served
            · exact served
            · exact served

theorem app_receiveHttp
    (keep : ∀ app httpRequest req, Inv app → Inv (serve svc app httpRequest req).1)
    {conn : HttpConnection σ} (start : Inv conn.app) (receive : Receive) :
    Inv (receiveHttp svc conn receive).app := by
  have buffered : Inv (conn.buffer receive).app := by
    unfold HttpConnection.buffer
    split <;> exact start
  unfold receiveHttp
  simp only
  split
  · exact app_processHttp keep _ _ buffered
  · exact buffered

end Loop

section Digest

variable {σ : Type} {md5 : Bytes → Bytes} {db : HtDigestDB} {svc : HttpService σ}

/-- Each executed request was authorized. -/
def Authorized (md5 : Bytes → Bytes) (db : HtDigestDB) (s : Executed σ) : Prop :=
  ∀ execution ∈ s.executed, authorizeRequest md5 db execution.nonce execution.req = none

theorem authorized_append {s : Executed σ} (authorized : Authorized md5 db s) {nonce : Bytes}
    {req : HttpReq} (allowed : authorizeRequest md5 db nonce req = none) (app : σ) :
    Authorized md5 db (⟨app, s.executed ++ [⟨nonce, req⟩]⟩ : Executed σ) := by
  intro execution member
  rcases List.mem_append.mp member with old | new
  · exact authorized execution old
  · rw [List.mem_singleton.mp new]
    exact allowed

/-- A request is executed only when it is authorized. -/
theorem authorized_serve (nonce : Bytes) (s : Executed σ) (httpRequest : Bytes) (req : HttpReq)
    (authorized : Authorized md5 db s) :
    Authorized md5 db (serve (digestService md5 db svc nonce) s httpRequest req).1 := by
  unfold serve
  cases allowed : (digestService md5 db svc nonce).checkAuth req with
  | some code => exact authorized
  | none =>
      have executed := fun app => authorized_append authorized allowed app
      simp only
      split
      · split
        · cases upgraded : svc.sendWsUpgrade s.app req with
          | none =>
              simp only [digestService, upgraded, Option.map_none]
              exact authorized
          | some app =>
              simp only [digestService, upgraded, Option.map_some]
              exact executed app
        · simp only [digestService]
          cases (svc.processGet s.app req).2 <;> exact executed _
      · split
        · simp only [digestService]
          cases (svc.processPost s.app req).2 <;> exact executed _
        · exact authorized

/-- Each request that the server has executed was authorized. -/
theorem authorized_run {server : DigestServer σ} (start : Authorized md5 db server.served)
    (acts : List DigestAct) : Authorized md5 db (digestRun md5 db svc server acts).served := by
  induction acts generalizing server with
  | nil => exact start
  | cons act acts ih =>
      apply ih
      cases act with
      | regenerate nonce => exact start
      | receive client receive =>
          exact app_receiveHttp (authorized_serve server.nonce) start receive

/-- Two requests of one user do not have the same count and nonce of the client. -/
def Fresh (earlier : List Execution) (auth : AuthHeader) : Prop :=
  ∀ old ∈ earlier, ∀ oldAuth, parseAuth old.nonce old.req.authorize = .ok oldAuth →
    cstr oldAuth.username = cstr auth.username →
      ¬(oldAuth.nc = auth.nc ∧ oldAuth.cnonce = auth.cnonce)

/-- The authorization of a request is for its method and path, for a user and the realm of the
database, and for the nonce of the server, and it was not used before. -/
def Bound (md5 : Bytes → Bytes) (db : HtDigestDB) (earlier : List Execution)
    (execution : Execution) : Prop :=
  ∃ auth ha1, parseAuth execution.nonce execution.req.authorize = .ok auth ∧
    db.find (cstr auth.username) = some ha1 ∧ cstr auth.realm = db.realm ∧
    cstr auth.response =
      digestResponse md5 ha1 execution.nonce auth.nc auth.cnonce execution.req.method
        execution.req.path ∧
    Fresh earlier auth

/-- A header that names the realm and the path of its request, that does not use the hash of a
session, and whose count and nonce of the client are new. -/
def Honest (md5 : Bytes → Bytes) (db : HtDigestDB) (earlier : List Execution)
    (execution : Execution) : Prop :=
  ∀ auth ha1, parseAuth execution.nonce execution.req.authorize = .ok auth →
    db.find (cstr auth.username) = some ha1 →
      cstr auth.realm = db.realm ∧ auth.uri = execution.req.path ∧
      cstr auth.response ≠
        digestResponse md5 (sessionHA1 md5 ha1 execution.nonce auth.cnonce) execution.nonce auth.nc
          auth.cnonce execution.req.method auth.uri ∧
      Fresh earlier auth

/-- Each execution has a property with those in front of it. -/
def Each (property : List Execution → Execution → Prop) (executed : List Execution) : Prop :=
  ∀ earlier execution later, executed = earlier ++ execution :: later →
    property earlier execution

/-- An authorized request has the response of its fields. -/
theorem response_of_authorized {nonce : Bytes} {req : HttpReq}
    (authorized : authorizeRequest md5 db nonce req = none) :
    ∃ auth ha1, parseAuth nonce req.authorize = .ok auth ∧
      db.find (cstr auth.username) = some ha1 ∧
      (cstr auth.response = digestResponse md5 ha1 nonce auth.nc auth.cnonce req.method auth.uri ∨
        cstr auth.response =
          digestResponse md5 (sessionHA1 md5 ha1 nonce auth.cnonce) nonce auth.nc auth.cnonce
            req.method auth.uri) := by
  unfold authorizeRequest at authorized
  split at authorized
  · cases authorized
  · cases parsed : parseAuth nonce req.authorize with
    | error code =>
        rw [parsed] at authorized
        cases authorized
    | ok auth =>
        rw [parsed] at authorized
        simp only [checkAuth] at authorized
        cases found : db.find (cstr auth.username) with
        | none =>
            rw [found] at authorized
            cases authorized
        | some ha1 =>
            rw [found] at authorized
            simp only at authorized
            refine ⟨auth, ha1, rfl, found, ?_⟩
            split at authorized
            · rename_i plain
              exact Or.inl plain
            · split at authorized
              · rename_i session
                exact Or.inr session
              · cases authorized

/-- An authorized request with an honest header is bound to its authorization. -/
theorem bound_of_honest {earlier : List Execution} {execution : Execution}
    (authorized : authorizeRequest md5 db execution.nonce execution.req = none)
    (honest : Honest md5 db earlier execution) : Bound md5 db earlier execution := by
  obtain ⟨auth, ha1, parsed, found, response⟩ := response_of_authorized authorized
  obtain ⟨realm, uri, plain, fresh⟩ := honest auth ha1 parsed found
  rw [uri] at response plain
  exact ⟨auth, ha1, parsed, found, realm, response.resolve_right plain, fresh⟩

end Digest

/-- A database of one user. -/
def sampleDB : HtDigestDB :=
  ⟨text "r", fun user => if user = text "u" then some (text "h") else none⟩

/-- The response of the user for a path, with the count and the nonce of a client. -/
def sampleResponse : Bytes :=
  digestResponse id (text "h") (text "n") (text "1") (text "c") (text "GET") (text "/a")

def sampleRequest : Bytes :=
  text "GET /a HTTP/1.1\r\nAuthorization: Digest username=\"u\", realm=\"r\", uri=\"/a\", nc=1," ++
    text " cnonce=\"c\", response=\"" ++ sampleResponse ++ text "\"\r\n\r\n"

/-- A client sends the request. -/
def sampleAct (client : Nat) : DigestAct := .receive client ⟨sampleRequest, 4096, false⟩

/-- The requests that a server executes, when clients send the request. -/
def sampleRun (clients : List Nat) : List Execution :=
  (digestRun id sampleDB countingService (digestServer (text "n") 0)
    (clients.map sampleAct)).served.executed

def sampleAuth : AuthHeader :=
  ⟨text "u", text "r", text "/a", sampleResponse, text "1", text "c"⟩

/-- Each executed request has the header that was sent. -/
def SampleExecuted (count : Nat) (executed : List Execution) : Prop :=
  executed.length = count ∧ ∀ execution ∈ executed, execution.req.path = text "/a" ∧
    execution.nonce = text "n" ∧ execution.req.method = text "GET" ∧
    (parseAuth execution.nonce execution.req.authorize).toOption = some sampleAuth

instance (count : Nat) (executed : List Execution) : Decidable (SampleExecuted count executed) :=
  inferInstanceAs (Decidable (_ ∧ _))

theorem sampleRun_executed : SampleExecuted 1 (sampleRun [0]) ∧
    SampleExecuted 2 (sampleRun [0, 1]) ∧
    sampleDB.find (cstr sampleAuth.username) = some (text "h") ∧
    cstr sampleAuth.realm = sampleDB.realm ∧
    cstr sampleAuth.response ≠
      digestResponse id (sessionHA1 id (text "h") (text "n") sampleAuth.cnonce) (text "n")
        sampleAuth.nc sampleAuth.cnonce (text "GET") sampleAuth.uri := by
  decide +kernel

end Raids.Http
