import Raids.Proof.Http.Framing

namespace Raids.Http

/-- What becomes of some data: the service behind it, the data that is left and the requests. -/
structure Handled (σ : Type) where
  app : σ
  mode : HttpMode
  rest : Bytes
  requests : List HttpReq

/-- Regular data is handled request by request. The strict way has no line that is too long and no
request that leaves the loop. -/
inductive Handles {σ : Type} (svc : HttpService σ) (strict : Bool) : σ → Bytes → Handled σ → Prop
    where
  | empty {app : σ} : Handles svc strict app [] ⟨app, .http, [], []⟩
  | wait {app : σ} {data : Bytes} (nonempty : data ≠ []) (regular : Regular data)
      (framed : frameWhole data = .wait) : Handles svc strict app data ⟨app, .http, data, []⟩
  | close {app : σ} {data : Bytes} (nonempty : data ≠ []) (regular : Regular data)
      (framed : frameWhole data = .close) (short : strict = true → headersOf data ≠ .long) :
      Handles svc strict app data ⟨app, .closed, data, []⟩
  | again {app : σ} {data : Bytes} {req : HttpReq} {size : Nat} {handled : Handled σ}
      (regular : Regular data) (framed : frameWhole data = .request req size)
      (served : (serve svc app data req).2 = .again)
      (further : Handles svc strict (serve svc app data req).1 (data.drop size) handled) :
      Handles svc strict app data { handled with requests := req :: handled.requests }
  | leave {app : σ} {data : Bytes} {req : HttpReq} {size : Nat} (regular : Regular data)
      (framed : frameWhole data = .request req size)
      (served : (serve svc app data req).2 = .leave) (loose : strict = false) :
      Handles svc strict app data ⟨(serve svc app data req).1, .http, data.drop size, [req]⟩
  | websocket {app : σ} {data : Bytes} {req : HttpReq} {size : Nat} (regular : Regular data)
      (framed : frameWhole data = .request req size)
      (served : (serve svc app data req).2 = .websocket) :
      Handles svc strict app data ⟨(serve svc app data req).1, .websocket, data.drop size, [req]⟩

section Handles

variable {σ : Type} {svc : HttpService σ} {strict : Bool} {app : σ} {data : Bytes}

theorem nonempty_of_request {req : HttpReq} {size : Nat}
    (framed : frameWhole data = .request req size) : data ≠ [] := by
  rintro rfl
  obtain ⟨positive, bound, -⟩ := frameWhole_whole framed
  rw [List.length_nil] at bound
  omega

/-- The service looks at the first byte of the data only. -/
theorem serve_append (svc : HttpService σ) (app : σ) (nonempty : data ≠ []) (more : Bytes)
    (req : HttpReq) :
    serve svc app (data ++ more) req = serve svc app data req := by
  have first : (data ++ more).take 1 = data.take 1 := by
    cases data with
    | nil => exact absurd rfl nonempty
    | cons c data => rfl
  have letters : ∀ letter, startsWith (data ++ more) letter = startsWith data letter := by
    intro letter
    rw [startsWith, first, startsWith]
  unfold serve
  rw [letters, letters]

/-- Data that arrives later is handled with the data that is left. -/
theorem handles_append (strict : Bool) {first : Handled σ} (handles : Handles svc true app data first)
    (more : Bytes) :
    (∀ second, first.mode = .http → Handles svc strict first.app (first.rest ++ more) second →
      Handles svc strict app (data ++ more)
        { second with requests := first.requests ++ second.requests }) ∧
    (first.mode ≠ .http → Handles svc strict app (data ++ more)
      { first with rest := first.rest ++ more }) := by
  induction handles with
  | empty => exact ⟨fun second _ later => later, fun other => absurd rfl other⟩
  | wait nonempty regular framed => exact ⟨fun second _ later => later, fun other => absurd rfl other⟩
  | close nonempty regular framed short =>
      refine ⟨fun second closed => (nomatch closed), fun _ => ?_⟩
      have refused : headersOf _ = .close := (frameWhole_close framed).resolve_left (short rfl)
      have longer := headersOf_close_append refused more
      refine Handles.close (by simp [nonempty]) ?_ ?_ ?_
      · rw [Regular, longer]
        rfl
      · rw [frameWhole, longer]
      · intro _ long
        rw [longer] at long
        cases long
  | again regular framed served further ih =>
      rename_i app data req size handled
      have nonempty := nonempty_of_request framed
      have bound := (frameWhole_whole framed).2.1
      have longer := frameWhole_append framed more
      have same := serve_append svc app nonempty more req
      have rest : (data ++ more).drop size = data.drop size ++ more :=
        List.drop_append_of_le_length bound
      have still := regular_append regular framed more
      constructor
      · intro second ready later
        exact Handles.again still longer (by rw [same, served])
          (by rw [same, rest]; exact ih.1 second ready later)
      · intro other
        exact Handles.again still longer (by rw [same, served])
          (by rw [same, rest]; exact ih.2 other)
  | leave regular framed served loose => cases loose
  | websocket regular framed served =>
      rename_i app data req size
      have nonempty := nonempty_of_request framed
      have bound := (frameWhole_whole framed).2.1
      have longer := frameWhole_append framed more
      have same := serve_append svc app nonempty more req
      have rest : (data ++ more).drop size = data.drop size ++ more :=
        List.drop_append_of_le_length bound
      have still := regular_append regular framed more
      refine ⟨fun second closed => (nomatch closed), fun _ => ?_⟩
      have whole : Handles svc strict app (data ++ more) _ :=
        Handles.websocket still longer (by rw [same, served])
      rw [same, rest] at whole
      exact whole

end Handles

/-- A buffer lies in the address space, and its length has 32 bits. -/
def HttpRound.Placed {σ : Type} (round : HttpRound σ) : Prop :=
  round.addr + round.data.length ≤ addressSpace ∧ round.len < 2 ^ 32

/-- A round that handles a request has its headers, its blank line and its whole body, and goes
forward inside the received data. -/
def HttpRound.Safe {σ : Type} (round : HttpRound σ) : Prop :=
  ∀ req size, round.framing = .request req size →
    round.off < round.next ∧ round.next ≤ round.len ∧ ∃ head, EndsWithBlankLine head ∧
      round.data.take (round.next - round.off) = head ++ req.data ∧
      req.data.length = req.contentLength

/-- The line of a round is not too long, and its request does not leave the loop. -/
def HttpRound.Continues {σ : Type} (svc : HttpService σ) (round : HttpRound σ) : Prop :=
  headersOf round.data ≠ .long ∧
    ∀ req ∈ round.request?, (serve svc round.app round.data req).2 ≠ .leave

section Connection

variable {σ : Type} {svc : HttpService σ} {strict : Bool} {addr fuel : Nat}
  {conn : HttpConnection σ}

/-- The data behind the offset. -/
def HttpConnection.pending (conn : HttpConnection σ) : Bytes := conn.recv.drop conn.off

theorem HttpConnection.requests_log (conn : HttpConnection σ) (addr next : Nat) :
    (conn.log addr next).requests =
      conn.requests ++ (conn.round addr next).request?.toList := by
  simp only [HttpConnection.requests, HttpConnection.log, List.filterMap_append]
  cases requested : (conn.round addr next).request? <;> simp [requested]

/-- The loop keeps the rounds that it has. -/
theorem rounds_processHttp {round : HttpRound σ} (member : round ∈ conn.rounds) :
    round ∈ (processHttp svc addr fuel conn).rounds := by
  induction fuel generalizing conn with
  | zero => exact member
  | succ fuel ih =>
      rw [processHttp]
      have logged : ∀ next, round ∈ (conn.log addr next).rounds :=
        fun next => List.mem_append_left _ member
      split
      · exact member
      · split
        · exact member
        · split
          · exact logged _
          · exact logged _
          · simp only
            split
            · exact ih (logged _)
            · exact logged _
            · exact logged _

/-- A connection has done with its data what the relation says. -/
structure Follows (conn : HttpConnection σ) (handled : Handled σ) (result : HttpConnection σ) :
    Prop where
  app : result.app = handled.app
  mode : result.mode = handled.mode
  inside : result.off ≤ result.recv.length
  rest : result.pending = handled.rest
  requests : result.requests = conn.requests ++ handled.requests
  safe : ∀ round ∈ result.rounds, round ∈ conn.rounds ∨ round.Safe

theorem nonempty_pending (inside : conn.off < conn.recv.length) : conn.pending ≠ [] := by
  rw [HttpConnection.pending, Ne, List.drop_eq_nil_iff]
  omega

/-- The round of a connection with data is in the rounds behind its loop. -/
theorem round_mem_processHttp (svc : HttpService σ) (addr : Nat) (inside : conn.off < conn.recv.length) (positive : 0 < fuel) :
    ∃ next, conn.round addr next ∈ (processHttp svc addr fuel conn).rounds := by
  obtain ⟨fuel, rfl⟩ := Nat.exists_eq_succ_of_ne_zero (Nat.ne_zero_of_lt positive)
  rw [processHttp, if_neg (by omega), if_neg (by omega)]
  have logged : ∀ next, conn.round addr next ∈ (conn.log addr next).rounds :=
    fun next => List.mem_append_right _ (List.mem_singleton_self _)
  split
  · exact ⟨_, logged _⟩
  · exact ⟨_, logged _⟩
  · simp only
    split
    · exact ⟨_, rounds_processHttp (logged _)⟩
    · exact ⟨_, logged _⟩
    · exact ⟨_, logged _⟩

/-- The first round of a loop in a buffer frames regular data as a whole, and its buffer is small. -/
theorem framing_eq (inside : conn.off < conn.recv.length) (positive : 0 < fuel)
    (placed : ∀ round ∈ (processHttp svc addr fuel conn).rounds, round.Placed)
    (regular : Regular conn.pending) :
    frameRequest (addr + conn.off) (conn.recv.drop conn.off) = frameWhole conn.pending ∧
      conn.recv.length < 2 ^ 32 := by
  obtain ⟨next, member⟩ := round_mem_processHttp svc addr inside positive
  obtain ⟨small, length⟩ := placed _ member
  exact ⟨frameRequest_eq small regular, length⟩

/-- A round that handles no request is safe. -/
theorem safe_of_request?_eq_none {round : HttpRound σ} (none : round.request? = none) :
    round.Safe := by
  intro req size framed
  rw [HttpRound.request?, framed] at none
  cases none

/-- A round that goes on behind a whole request is safe. -/
theorem safe_round {req : HttpReq} {size : Nat} (inside : conn.off ≤ conn.recv.length)
    (framing : frameRequest (addr + conn.off) (conn.recv.drop conn.off) = .request req size)
    (framed : frameWhole conn.pending = .request req size) :
    (conn.round addr (conn.off + size)).Safe := by
  obtain ⟨positive, bound, head, ends, taken, body⟩ := frameWhole_whole framed
  rw [HttpConnection.pending, List.length_drop] at bound
  intro req' size' framed'
  have same : Framing.request req size = .request req' size' := framing.symm.trans framed'
  simp only [Framing.request.injEq] at same
  obtain ⟨rfl, rfl⟩ := same
  refine ⟨?_, ?_, head, ends, ?_, body⟩
  · show conn.off < conn.off + size
    omega
  · show conn.off + size ≤ conn.recv.length
    omega
  · show (conn.recv.drop conn.off).take (conn.off + size - conn.off) = _
    rw [Nat.add_sub_cancel_left]
    exact taken

/-- A round without a request leaves the connection at its data. -/
theorem follows_log (mode : HttpMode)
    (none : (conn.round addr conn.off).request? = none) (inside : conn.off ≤ conn.recv.length) :
    Follows conn ⟨conn.app, mode, conn.pending, []⟩
      { conn.log addr conn.off with mode := mode } where
  app := rfl
  mode := rfl
  inside := inside
  rest := rfl
  requests := by
    show (conn.log addr conn.off).requests = _
    rw [HttpConnection.requests_log, none]
    rfl
  safe := by
    intro round member
    rcases List.mem_append.mp member with old | new
    · exact Or.inl old
    · rw [List.mem_singleton.mp new]
      exact Or.inr (safe_of_request?_eq_none none)

theorem pending_advance (addr size : Nat) (app : σ) :
    (conn.advance addr (conn.off + size) app).pending = conn.pending.drop size := by
  show conn.recv.drop (conn.off + size) = (conn.recv.drop conn.off).drop size
  rw [List.drop_drop]

/-- A round with a whole request takes it from the data of the connection. -/
theorem follows_advance {req : HttpReq} {size : Nat} (mode : HttpMode) (app : σ)
    (inside : conn.off ≤ conn.recv.length)
    (framing : frameRequest (addr + conn.off) (conn.recv.drop conn.off) = .request req size)
    (framed : frameWhole conn.pending = .request req size) :
    Follows conn ⟨app, mode, conn.pending.drop size, [req]⟩
      { conn.advance addr (conn.off + size) app with mode := mode } where
  app := rfl
  mode := rfl
  inside := by
    have bound := (frameWhole_whole framed).2.1
    rw [HttpConnection.pending, List.length_drop] at bound
    show conn.off + size ≤ conn.recv.length
    omega
  rest := pending_advance addr size app
  requests := by
    show (conn.log addr (conn.off + size)).requests = _
    have requested : (conn.round addr (conn.off + size)).request? = some req := by
      simp only [HttpRound.request?, HttpConnection.round, framing]
    rw [HttpConnection.requests_log, requested]
    rfl
  safe := by
    intro round member
    rcases List.mem_append.mp member with old | new
    · exact Or.inl old
    · rw [List.mem_singleton.mp new]
      exact Or.inr (safe_round inside framing framed)

/-- A loop over a whole request goes on with what the service says. -/
theorem processHttp_request {req : HttpReq} {size : Nat} (positive : 0 < fuel)
    (placed : ∀ round ∈ (processHttp svc addr fuel conn).rounds, round.Placed)
    (regular : Regular conn.pending) (framed : frameWhole conn.pending = .request req size) :
    frameRequest (addr + conn.off) (conn.recv.drop conn.off) = .request req size ∧
      processHttp svc addr fuel conn =
        match (serve svc conn.app conn.pending req).2 with
        | .again =>
            processHttp svc addr (fuel - 1)
              (conn.advance addr (conn.off + size) (serve svc conn.app conn.pending req).1)
        | .leave => conn.advance addr (conn.off + size) (serve svc conn.app conn.pending req).1
        | .websocket =>
            { conn.advance addr (conn.off + size) (serve svc conn.app conn.pending req).1 with
              mode := .websocket } := by
  have nonempty := nonempty_of_request framed
  have more : conn.off < conn.recv.length := by
    rw [HttpConnection.pending, Ne, List.drop_eq_nil_iff] at nonempty
    omega
  have bound := (frameWhole_whole framed).2.1
  rw [HttpConnection.pending, List.length_drop] at bound
  obtain ⟨framing, small⟩ := framing_eq more positive placed regular
  rw [framed] at framing
  obtain ⟨fuel, rfl⟩ := Nat.exists_eq_succ_of_ne_zero (Nat.ne_zero_of_lt positive)
  refine ⟨framing, ?_⟩
  have next : (conn.off + size) % 2 ^ 32 = conn.off + size := Nat.mod_eq_of_lt (by omega)
  rw [processHttp, if_neg (by omega), if_neg (by omega), framing]
  simp only [next]
  rfl

/-- What follows a request follows the connection in front of it. -/
theorem Follows.trans {middle result : HttpConnection σ} {first second : Handled σ}
    (before : Follows conn first middle) (behind : Follows middle second result) :
    Follows conn { second with requests := first.requests ++ second.requests } result where
  app := behind.app
  mode := behind.mode
  inside := behind.inside
  rest := behind.rest
  requests := by rw [behind.requests, before.requests, List.append_assoc]
  safe := fun round member => (behind.safe round member).elim (before.safe round) Or.inr

/-- A loop over regular data in a buffer does what the relation says. -/
theorem processHttp_follows {app : σ} {data : Bytes} {handled : Handled σ}
    (handles : Handles svc strict app data handled) (same : conn.app = app)
    (pending : conn.pending = data) (ready : conn.mode = .http)
    (inside : conn.off ≤ conn.recv.length) (enough : data.length < fuel)
    (placed : ∀ round ∈ (processHttp svc addr fuel conn).rounds, round.Placed) :
    Follows conn handled (processHttp svc addr fuel conn) := by
  induction handles generalizing conn fuel with
  | empty =>
      obtain ⟨fuel, rfl⟩ := Nat.exists_eq_succ_of_ne_zero (Nat.ne_zero_of_lt enough)
      have empty : conn.recv.length = conn.off := by
        rw [HttpConnection.pending, List.drop_eq_nil_iff] at pending
        omega
      rw [processHttp, if_neg (by omega), if_pos empty]
      exact ⟨same, ready, inside, pending, (List.append_nil _).symm, fun round member => Or.inl member⟩
  | wait nonempty regular framed =>
      subst pending same
      have more : conn.off < conn.recv.length := by
        rw [HttpConnection.pending, Ne, List.drop_eq_nil_iff] at nonempty
        omega
      obtain ⟨framing, -⟩ := framing_eq more (by omega) placed regular
      obtain ⟨fuel, rfl⟩ := Nat.exists_eq_succ_of_ne_zero (Nat.ne_zero_of_lt enough)
      rw [framed] at framing
      have none : (conn.round addr conn.off).request? = none := by
        simp only [HttpRound.request?, HttpConnection.round, framing]
      rw [processHttp, if_neg (by omega), if_neg (by omega), framing]
      rw [show conn.log addr conn.off = { conn.log addr conn.off with mode := .http } by
        rw [← ready]; rfl]
      exact follows_log .http none inside
  | close nonempty regular framed short =>
      subst pending same
      have more : conn.off < conn.recv.length := by
        rw [HttpConnection.pending, Ne, List.drop_eq_nil_iff] at nonempty
        omega
      obtain ⟨framing, -⟩ := framing_eq more (by omega) placed regular
      obtain ⟨fuel, rfl⟩ := Nat.exists_eq_succ_of_ne_zero (Nat.ne_zero_of_lt enough)
      rw [framed] at framing
      have none : (conn.round addr conn.off).request? = none := by
        simp only [HttpRound.request?, HttpConnection.round, framing]
      rw [processHttp, if_neg (by omega), if_neg (by omega), framing]
      exact follows_log .closed none inside
  | again regular framed served further ih =>
      rename_i app data req size handled
      subst pending same
      obtain ⟨framing, step⟩ := processHttp_request (by omega) placed regular framed
      rw [served] at step
      simp only at step
      rw [step] at placed ⊢
      have first := follows_advance .http (serve svc conn.app conn.pending req).1 inside framing
        framed
      rw [← ready] at first
      obtain ⟨positive, bound, -⟩ := frameWhole_whole framed
      have later := ih rfl first.rest ready first.inside
        (by rw [List.length_drop]; omega) placed
      exact first.trans later
  | leave regular framed served loose =>
      rename_i app data req size
      subst pending same
      obtain ⟨framing, step⟩ := processHttp_request (by omega) placed regular framed
      rw [served] at step
      simp only at step
      rw [step]
      rw [← ready]
      exact follows_advance conn.mode (serve svc conn.app conn.pending req).1 inside framing framed
  | websocket regular framed served =>
      rename_i app data req size
      subst pending same
      obtain ⟨framing, step⟩ := processHttp_request (by omega) placed regular framed
      rw [served] at step
      simp only at step
      rw [step]
      exact follows_advance .websocket (serve svc conn.app conn.pending req).1 inside framing framed

/-- A loop whose rounds are regular handles its data. -/
theorem handles_processHttp (strict : Bool) (ready : conn.mode = .http) (inside : conn.off ≤ conn.recv.length)
    (enough : conn.pending.length < fuel)
    (placed : ∀ round ∈ (processHttp svc addr fuel conn).rounds, round.Placed)
    (regular : ∀ round ∈ (processHttp svc addr fuel conn).rounds, Regular round.data)
    (continues : strict = true →
      ∀ round ∈ (processHttp svc addr fuel conn).rounds, round.Continues svc) :
    ∃ handled, Handles svc strict conn.app conn.pending handled := by
  induction fuel generalizing conn with
  | zero => omega
  | succ fuel ih =>
      by_cases empty : conn.pending = []
      · exact ⟨_, empty ▸ Handles.empty⟩
      · have more : conn.off < conn.recv.length := by
          rw [HttpConnection.pending, List.drop_eq_nil_iff] at empty
          omega
        obtain ⟨next, member⟩ :=
          round_mem_processHttp svc addr more (Nat.succ_pos fuel)
        have good : Regular conn.pending := regular _ member
        obtain ⟨framing, -⟩ := framing_eq more (Nat.succ_pos fuel) placed good
        have goes : strict = true → (conn.round addr next).Continues svc :=
          fun strictly => continues strictly _ member
        cases framed : frameWhole conn.pending with
        | wait => exact ⟨_, Handles.wait empty good framed⟩
        | close => exact ⟨_, Handles.close empty good framed fun strictly => (goes strictly).1⟩
        | request req size =>
            rw [framed] at framing
            obtain ⟨-, step⟩ := processHttp_request (Nat.succ_pos fuel) placed good framed
            cases served : (serve svc conn.app conn.pending req).2 with
            | again =>
                rw [served] at step
                simp only [Nat.succ_sub_one] at step
                rw [step] at placed regular continues
                have first := follows_advance conn.mode (serve svc conn.app conn.pending req).1
                  inside framing framed
                obtain ⟨positive, bound, -⟩ := frameWhole_whole framed
                have fewer : (conn.advance addr (conn.off + size)
                    (serve svc conn.app conn.pending req).1).pending.length < fuel := by
                  rw [pending_advance, List.length_drop]
                  omega
                obtain ⟨handled, further⟩ := ih
                  (show (conn.advance addr (conn.off + size)
                    (serve svc conn.app conn.pending req).1).mode = .http from ready)
                  first.inside fewer placed regular
                  continues
                rw [pending_advance] at further
                exact ⟨_, Handles.again good framed served further⟩
            | leave =>
                refine ⟨_, Handles.leave good framed served ?_⟩
                cases strict with
                | false => rfl
                | true =>
                    have requested : req ∈ (conn.round addr next).request? := by
                      simp only [HttpRound.request?, HttpConnection.round, framing]
                      rfl
                    exact absurd served ((goes rfl).2 req requested)
            | websocket => exact ⟨_, Handles.websocket good framed served⟩

end Connection

section Receives

variable {σ : Type} {svc : HttpService σ} {strict : Bool} {app : σ} {stream : Bytes}
  {conn : HttpConnection σ} {receive : Receive}

/-- A connection has handled the stream that it has received, in safe rounds. -/
structure Tracks (svc : HttpService σ) (strict : Bool) (app : σ) (stream : Bytes)
    (conn : HttpConnection σ) : Prop where
  handles : Handles svc strict app stream ⟨conn.app, conn.mode, conn.pending, conn.requests⟩
  inside : conn.off ≤ conn.recv.length
  safe : ∀ round ∈ conn.rounds, round.Safe

theorem tracks_start (svc : HttpService σ) (strict : Bool) (app : σ) :
    Tracks svc strict app [] { app := app } where
  handles := Handles.empty
  inside := Nat.zero_le _
  safe := fun round member => by cases member

/-- The bytes that arrive are behind the data that is left. -/
theorem pending_buffer (inside : conn.off ≤ conn.recv.length) (receive : Receive) :
    (conn.buffer receive).pending = conn.pending ++ receive.bytes := by
  unfold HttpConnection.buffer
  by_cases compact : receive.compact = true
  · rw [if_pos compact]
    rfl
  · rw [if_neg compact]
    exact List.drop_append_of_le_length inside

theorem inside_buffer (inside : conn.off ≤ conn.recv.length) (receive : Receive) :
    (conn.buffer receive).off ≤ (conn.buffer receive).recv.length := by
  unfold HttpConnection.buffer
  split
  · exact Nat.zero_le _
  · show conn.off ≤ (conn.recv ++ receive.bytes).length
    rw [List.length_append]
    omega

theorem buffer_fields (conn : HttpConnection σ) (receive : Receive) :
    (conn.buffer receive).app = conn.app ∧ (conn.buffer receive).mode = conn.mode ∧
      (conn.buffer receive).rounds = conn.rounds := by
  unfold HttpConnection.buffer
  split <;> exact ⟨rfl, rfl, rfl⟩

/-- The loop of an open connection runs over its buffer, which bounds its rounds. -/
theorem receiveHttp_ready (svc : HttpService σ) (ready : conn.mode = .http) (receive : Receive) :
    receiveHttp svc conn receive =
        processHttp svc receive.addr ((conn.buffer receive).recv.length + 1)
          (conn.buffer receive) ∧
      (conn.buffer receive).pending.length < (conn.buffer receive).recv.length + 1 := by
  constructor
  · simp only [receiveHttp, (buffer_fields conn receive).2.1, ready, if_true]
  · rw [HttpConnection.pending, List.length_drop]
    omega

/-- Another connection only keeps its bytes. -/
theorem receiveHttp_other (other : conn.mode ≠ .http) (receive : Receive) :
    receiveHttp svc conn receive = conn.buffer receive := by
  simp only [receiveHttp, (buffer_fields conn receive).2.1, other, if_false]

/-- The rounds stay when bytes arrive. -/
theorem rounds_receiveHttp {round : HttpRound σ} (member : round ∈ conn.rounds) :
    round ∈ (receiveHttp svc conn receive).rounds := by
  have same := (buffer_fields conn receive).2.2
  rw [← same] at member
  unfold receiveHttp
  simp only
  split
  · exact rounds_processHttp member
  · exact member

/-- Bytes that arrive are handled with the data that is left. -/
theorem tracks_receiveHttp (strict : Bool) (tracks : Tracks svc true app stream conn)
    (placed : ∀ round ∈ (receiveHttp svc conn receive).rounds, round.Placed)
    (regular : ∀ round ∈ (receiveHttp svc conn receive).rounds, Regular round.data)
    (continues : strict = true →
      ∀ round ∈ (receiveHttp svc conn receive).rounds, round.Continues svc) :
    Tracks svc strict app (stream ++ receive.bytes) (receiveHttp svc conn receive) := by
  have pending := pending_buffer tracks.inside receive
  have inside := inside_buffer tracks.inside receive
  obtain ⟨sameApp, sameMode, sameRounds⟩ := buffer_fields conn receive
  have sameRequests : (conn.buffer receive).requests = conn.requests := by
    rw [HttpConnection.requests, sameRounds]
    rfl
  have compose := handles_append strict tracks.handles receive.bytes
  by_cases ready : conn.mode = .http
  · obtain ⟨loop, enough⟩ := receiveHttp_ready svc ready receive
    rw [loop] at placed regular continues ⊢
    obtain ⟨handled, later⟩ := handles_processHttp strict (sameMode.trans ready) inside enough placed
      regular continues
    have follows := processHttp_follows later rfl rfl (sameMode.trans ready) inside enough placed
    rw [sameApp, pending] at later
    have whole := compose.1 handled ready later
    refine ⟨?_, follows.inside, ?_⟩
    · rw [follows.app, follows.mode, follows.rest, follows.requests, sameRequests]
      exact whole
    · intro round member
      rcases follows.safe round member with old | safe
      · exact tracks.safe round (sameRounds ▸ old)
      · exact safe
  · rw [receiveHttp_other ready]
    refine ⟨?_, inside, fun round member => tracks.safe round (sameRounds ▸ member)⟩
    rw [sameApp, sameMode, pending, sameRequests]
    exact compose.2 ready

theorem connectionAfter_append (receives : List Receive) (last : Receive) :
    connectionAfter svc app (receives ++ [last]) =
      receiveHttp svc (connectionAfter svc app receives) last := by
  rw [connectionAfter, List.foldl_append]
  rfl

/-- The chunks of a stream are handled one by one. -/
theorem tracks_connectionAfter (receives : List Receive)
    (placed : ∀ round ∈ (connectionAfter svc app receives).rounds, round.Placed)
    (regular : ∀ round ∈ (connectionAfter svc app receives).rounds, Regular round.data)
    (continues : ∀ round ∈ (connectionAfter svc app receives).rounds, round.Continues svc) :
    Tracks svc true app (receives.flatMap (·.bytes)) (connectionAfter svc app receives) := by
  induction receives using List.reverseRecOn with
  | nil => exact tracks_start svc true app
  | append_singleton receives last ih =>
      rw [connectionAfter_append] at placed regular continues ⊢
      have before := ih (fun round member => placed round (rounds_receiveHttp member))
        (fun round member => regular round (rounds_receiveHttp member))
        (fun round member => continues round (rounds_receiveHttp member))
      rw [List.flatMap_append, List.flatMap_singleton]
      exact tracks_receiveHttp true before placed regular fun _ => continues

/-- A stream that arrives at once is handled as the relation says. -/
theorem follows_whole {handled : Handled σ} (handles : Handles svc strict app stream handled)
    (whole : Receive) (same : whole.bytes = stream)
    (placed : ∀ round ∈ (connectionAfter svc app [whole]).rounds, round.Placed) :
    Follows { app := app } handled (connectionAfter svc app [whole]) := by
  have start : (({ app := app } : HttpConnection σ).buffer whole) =
      { app := app, recv := whole.bytes } := by
    unfold HttpConnection.buffer
    split <;> rfl
  have loop : connectionAfter svc app [whole] =
      processHttp svc whole.addr (whole.bytes.length + 1) { app := app, recv := whole.bytes } := by
    show receiveHttp svc _ _ = _
    simp only [receiveHttp, start, if_true]
  rw [loop] at placed ⊢
  have follows := processHttp_follows handles rfl (by rw [← same]; rfl) rfl (Nat.zero_le _)
    (by rw [same]; omega) placed
  exact ⟨follows.app, follows.mode, follows.inside, follows.rest, follows.requests, follows.safe⟩

/-- The loop has returned, inside the received data. -/
def HttpConnection.Returned (conn : HttpConnection σ) : Prop :=
  conn.mode ≠ .running ∧ conn.mode ≠ .outside

/-- Two connections have handled the same requests, and are left with the same data. -/
structure SameHandled (first second : HttpConnection σ) : Prop where
  requests : first.requests = second.requests
  app : first.app = second.app
  mode : first.mode = second.mode
  pending : first.pending = second.pending

theorem returned_of_handles {data : Bytes} {handled : Handled σ}
    (handles : Handles svc strict app data handled) :
    handled.mode ≠ .running ∧ handled.mode ≠ .outside := by
  induction handles with
  | empty => exact ⟨nofun, nofun⟩
  | wait nonempty regular framed => exact ⟨nofun, nofun⟩
  | close nonempty regular framed short => exact ⟨nofun, nofun⟩
  | again regular framed served further ih => exact ih
  | leave regular framed served loose => exact ⟨nofun, nofun⟩
  | websocket regular framed served => exact ⟨nofun, nofun⟩

/-- Regular rounds are safe and the loop returns, also behind a request that leaves it. -/
theorem safe_connectionAfter (receives : List Receive)
    (placed : ∀ round ∈ (connectionAfter svc app receives).rounds, round.Placed)
    (regular : ∀ round ∈ (connectionAfter svc app receives).rounds, Regular round.data) :
    (connectionAfter svc app receives).off ≤ (connectionAfter svc app receives).recv.length ∧
      (connectionAfter svc app receives).Returned ∧
      ∀ round ∈ (connectionAfter svc app receives).rounds, round.Safe := by
  induction receives using List.reverseRecOn with
  | nil => exact ⟨Nat.zero_le _, ⟨nofun, nofun⟩, fun round member => by cases member⟩
  | append_singleton receives last ih =>
      rw [connectionAfter_append] at placed regular ⊢
      obtain ⟨inside, returned, safe⟩ := ih
        (fun round member => placed round (rounds_receiveHttp member))
        (fun round member => regular round (rounds_receiveHttp member))
      have buffered := inside_buffer inside last
      obtain ⟨sameApp, sameMode, sameRounds⟩ :=
        buffer_fields (connectionAfter svc app receives) last
      by_cases ready : (connectionAfter svc app receives).mode = .http
      · obtain ⟨loop, enough⟩ := receiveHttp_ready svc ready last
        rw [loop] at placed regular ⊢
        obtain ⟨handled, later⟩ := handles_processHttp false (sameMode.trans ready)
          buffered enough placed regular nofun
        have follows := processHttp_follows later rfl rfl (sameMode.trans ready) buffered enough
          placed
        refine ⟨follows.inside, ?_, fun round member => ?_⟩
        · rw [HttpConnection.Returned, follows.mode]
          exact returned_of_handles later
        · exact (follows.safe round member).elim (fun old => safe round (sameRounds ▸ old)) id
      · rw [receiveHttp_other ready]
        refine ⟨buffered, ?_, fun round member => safe round (sameRounds ▸ member)⟩
        rw [HttpConnection.Returned, sameMode]
        exact returned

/-- Where the rounds of a connection are regular, each is safe and the loop returns. Where no
chunk but the last has a line that is too long or a request that leaves the loop, the requests are
those of the stream that arrives at once. -/
theorem processHttp_chunks (svc : HttpService σ) (app : σ) (receives : List Receive)
    (last whole : Receive) (same : whole.bytes = (receives ++ [last]).flatMap (·.bytes))
    (placed : ∀ round ∈ (connectionAfter svc app (receives ++ [last])).rounds, round.Placed)
    (placedWhole : ∀ round ∈ (connectionAfter svc app [whole]).rounds, round.Placed)
    (regular : ∀ round ∈ (connectionAfter svc app (receives ++ [last])).rounds,
      Regular round.data) :
    ((connectionAfter svc app (receives ++ [last])).Returned ∧
      ∀ round ∈ (connectionAfter svc app (receives ++ [last])).rounds, round.Safe) ∧
    ((∀ round ∈ (connectionAfter svc app receives).rounds, round.Continues svc) →
      SameHandled (connectionAfter svc app (receives ++ [last]))
        (connectionAfter svc app [whole])) := by
  refine ⟨(safe_connectionAfter _ placed regular).2, fun continues => ?_⟩
  rw [connectionAfter_append] at placed regular ⊢
  have before := tracks_connectionAfter receives
    (fun round member => placed round (rounds_receiveHttp member))
    (fun round member => regular round (rounds_receiveHttp member)) continues
  have tracks := tracks_receiveHttp false before placed regular nofun
  rw [List.flatMap_append, List.flatMap_singleton] at same
  have follows := follows_whole tracks.handles whole same placedWhole
  exact
    { requests := by rw [follows.requests]; rfl
      app := by rw [follows.app]
      mode := by rw [follows.mode]
      pending := by rw [follows.rest] }

end Receives

/-- A service that answers every request and counts them. -/
def countingService : HttpService Nat where
  checkAuth := fun _ => none
  send401 := fun count _ _ => count
  send404 := fun count _ _ => count
  send201 := fun count _ => count
  sendWsUpgrade := fun _ _ => none
  processGet := fun count _ => (count + 1, true)
  processPost := fun count _ => (count + 1, true)

/-- Some bytes in a buffer at an address. -/
def receiveText (word : String) : Receive := ⟨text word, 4096, false⟩

/-- The start of a request, and the rest of it with another one. -/
def cutFront : Receive := receiveText "GET /a HTTP/1.1\r\nHo"

def cutBehind : Receive :=
  receiveText "st: b\r\n\r\nPUT /c HTTP/1.1\r\nContent-Length: 1\r\n\r\nd"

/-- Both requests at once. -/
def cutWhole : Receive :=
  receiveText "GET /a HTTP/1.1\r\nHost: b\r\n\r\nPUT /c HTTP/1.1\r\nContent-Length: 1\r\n\r\nd"

theorem cut_regular :
    cutWhole.bytes = ([cutFront] ++ [cutBehind]).flatMap (·.bytes) ∧
      (∀ round ∈ (connectionAfter countingService 0 ([cutFront] ++ [cutBehind])).rounds,
        round.Placed ∧ Regular round.data) ∧
      (∀ round ∈ (connectionAfter countingService 0 [cutWhole]).rounds, round.Placed) ∧
      ∀ round ∈ (connectionAfter countingService 0 [cutFront]).rounds,
        round.Continues countingService := by
  unfold HttpRound.Placed HttpRound.Continues
  decide

/-- A request that is cut inside its header, and one behind it with a body. -/
theorem processHttp_chunks_cutHeader :
    SameHandled
      (connectionAfter countingService 0
        ([receiveText "GET /a HTTP/1.1\r\nHo"] ++
          [receiveText "st: b\r\n\r\nPUT /c HTTP/1.1\r\nContent-Length: 1\r\n\r\nd"]))
      (connectionAfter countingService 0
        [receiveText
          "GET /a HTTP/1.1\r\nHost: b\r\n\r\nPUT /c HTTP/1.1\r\nContent-Length: 1\r\n\r\nd"]) := by
  obtain ⟨same, cut, placedWhole, continues⟩ := cut_regular
  exact (processHttp_chunks countingService 0 [cutFront] cutBehind cutWhole same
    (fun round member => (cut round member).1) placedWhole
    (fun round member => (cut round member).2)).2 continues

/-- A chunk that ends with the request line is handled without its blank line, and the loop does
not return. -/
theorem not_processHttp_chunks_requestLine :
    ¬∀ (svc : HttpService Nat) (app : Nat) (receives : List Receive) (last whole : Receive),
      whole.bytes = (receives ++ [last]).flatMap (·.bytes) →
      (∀ round ∈ (connectionAfter svc app (receives ++ [last])).rounds, round.Placed) →
      (∀ round ∈ (connectionAfter svc app [whole]).rounds, round.Placed) →
        ((connectionAfter svc app (receives ++ [last])).Returned ∧
          ∀ round ∈ (connectionAfter svc app (receives ++ [last])).rounds, round.Safe) ∧
        SameHandled (connectionAfter svc app (receives ++ [last]))
          (connectionAfter svc app [whole]) := by
  intro chunks
  have line :
      (receiveText "GET / HTTP/1.1\r\n\r\n").bytes =
        ([receiveText "GET / HTTP/1.1\r\n"] ++ [receiveText "\r\n"]).flatMap (·.bytes) ∧
      (∀ round ∈ (connectionAfter countingService 0
        ([receiveText "GET / HTTP/1.1\r\n"] ++ [receiveText "\r\n"])).rounds, round.Placed) ∧
      (∀ round ∈ (connectionAfter countingService 0
        [receiveText "GET / HTTP/1.1\r\n\r\n"]).rounds, round.Placed) ∧
      (connectionAfter countingService 0
        ([receiveText "GET / HTTP/1.1\r\n"] ++ [receiveText "\r\n"])).mode = .running := by
    unfold HttpRound.Placed
    decide
  obtain ⟨same, placed, placedWhole, running⟩ := line
  have returned := (chunks countingService 0 _ _ _ same placed placedWhole).1.1.1
  exact returned running

end Raids.Http
