import Raids.Construction.Memcached.Unpack
import Raids.Proof.Memcached.Continue

namespace Raids.Memcached
open BigEndian

/-- A response whose header describes its body: extras, then key, then value. -/
structure SelfConsistent (m : MemcachedMsg) (table : McTable) (reply : Bytes) : Prop where
  whole : MemcachedBinHdr.size ≤ reply.length
  within : (readBinHdr reply).keylen + (readBinHdr reply).extralen ≤ (readBinHdr reply).datalen
  length : (reply.drop MemcachedBinHdr.size).length = (readBinHdr reply).datalen
  opcode : (readBinHdr reply).opcode = m.opcode
  opaqueBytes : (readBinHdr reply).opaqueBytes = m.opaqueBytes
  body : ∃ extras key value, reply.drop MemcachedBinHdr.size = extras ++ key ++ value ∧
    extras.length = (readBinHdr reply).extralen ∧ key.length = (readBinHdr reply).keylen ∧
    (extras = [] ∨ ∃ arg ∈ m.keys, ∃ e, table arg.str = some e ∧ extras = digits 4 e.val) ∧
    (key = [] ∨ ∃ arg ∈ m.keys, key = arg.str)

section Header

variable {m : MemcachedMsg}

/-- The bytes between a front of known length and the rest. -/
theorem slice_middle {front middle rest : Bytes} {start length : Nat}
    (before : front.length = start) (size : middle.length = length) :
    ((front ++ (middle ++ rest)).drop start).take length = middle := by
  rw [← before, List.drop_left, ← size, List.take_left]

/-- The header of a response is read back. -/
theorem readBinHdr_binHdr (opaqueLength : m.opaqueBytes.length = 4)
    (keylen extralen status datalen cas : Nat) (body : Bytes) :
    readBinHdr (binHdr m keylen extralen status datalen cas ++ body) =
      { opcode := m.opcode, keylen := keylen % 2 ^ 16, extralen := extralen % 2 ^ 8,
        datalen := datalen % 2 ^ 32, opaqueBytes := m.opaqueBytes, cas := cas % 2 ^ 64 } := by
  have key : ((binHdr m keylen extralen status datalen cas ++ body).drop 2).take 2 =
      digits 2 keylen := by
    simp only [binHdr, List.append_assoc]
    exact slice_middle rfl (length_digits 2 keylen)
  have front : ([binResponseMagic, m.opcode] ++ digits 2 keylen ++ [UInt8.ofNat extralen, 0] ++
      digits 2 status).length = 8 := by simp
  have data : ((binHdr m keylen extralen status datalen cas ++ body).drop 8).take 4 =
      digits 4 datalen := by
    have slice := @slice_middle _ _ (m.opaqueBytes ++ (digits 8 cas ++ body)) _ _ front
      (length_digits 4 datalen)
    simpa only [binHdr, List.append_assoc] using slice
  have echo : ((binHdr m keylen extralen status datalen cas ++ body).drop 12).take 4 =
      m.opaqueBytes := by
    have further : ([binResponseMagic, m.opcode] ++ digits 2 keylen ++ [UInt8.ofNat extralen, 0] ++
        digits 2 status ++ digits 4 datalen).length = 12 := by simp
    have slice := @slice_middle _ _ (digits 8 cas ++ body) _ _ further opaqueLength
    simpa only [binHdr, List.append_assoc] using slice
  have serial : ((binHdr m keylen extralen status datalen cas ++ body).drop 16).take 8 =
      digits 8 cas := by
    have further : ([binResponseMagic, m.opcode] ++ digits 2 keylen ++ [UInt8.ofNat extralen, 0] ++
        digits 2 status ++ digits 4 datalen ++ m.opaqueBytes).length = 16 := by
      simp [opaqueLength]
    have slice := @slice_middle _ _ body _ _ further (length_digits 8 cas)
    simpa only [binHdr, List.append_assoc] using slice
  have extra : ((binHdr m keylen extralen status datalen cas ++ body).getD 4 0).toNat =
      extralen % 2 ^ 8 := by
    simp [binHdr, digits]
  rw [readBinHdr, key, data, echo, serial, extra, value_digits, value_digits, value_digits]
  rfl

theorem length_binHdr (opaqueLength : m.opaqueBytes.length = 4)
    (keylen extralen status datalen cas : Nat) :
    (binHdr m keylen extralen status datalen cas).length = MemcachedBinHdr.size := by
  simp [binHdr, opaqueLength, MemcachedBinHdr.size]

/-- A response with a header is self-consistent exactly when its length is the one of the body. -/
theorem selfConsistent_iff {table : McTable} (opaqueLength : m.opaqueBytes.length = 4)
    {extras key value : Bytes} {status datalen cas : Nat} (short : key.length < 2 ^ 16)
    (few : extras.length < 2 ^ 8)
    (flags : extras = [] ∨ ∃ arg ∈ m.keys, ∃ e, table arg.str = some e ∧ extras = digits 4 e.val)
    (own : key = [] ∨ ∃ arg ∈ m.keys, key = arg.str) :
    SelfConsistent m table
        (binHdr m key.length extras.length status datalen cas ++ (extras ++ key ++ value)) ↔
      extras.length + key.length + value.length = datalen % 2 ^ 32 := by
  have header := readBinHdr_binHdr opaqueLength key.length extras.length status datalen cas
    (extras ++ key ++ value)
  have length := length_binHdr opaqueLength key.length extras.length status datalen cas
  have behind : (binHdr m key.length extras.length status datalen cas ++
      (extras ++ key ++ value)).drop MemcachedBinHdr.size = extras ++ key ++ value := by
    rw [← length, List.drop_left]
  constructor
  · intro consistent
    have size := consistent.length
    rw [behind, header] at size
    simpa only [List.length_append] using size
  · intro size
    apply SelfConsistent.mk
    · rw [List.length_append, length]
      exact Nat.le_add_right _ _
    · rw [header]
      dsimp only
      rw [Nat.mod_eq_of_lt short, Nat.mod_eq_of_lt few]
      omega
    · rw [behind, header, ← size, List.length_append, List.length_append]
    · rw [header]
    · rw [header]
    · refine ⟨extras, key, value, behind, ?_, ?_, flags, own⟩
      · rw [header, Nat.mod_eq_of_lt few]
      · rw [header, Nat.mod_eq_of_lt short]

end Header

section Responses

variable {m : MemcachedMsg} {table : McTable}

/-- The texts of the statuses are short. -/
theorem length_statusText (status : MemcachedBinStatus) : status.text.length < 2 ^ 32 := by
  cases status <;> decide

/-- A status response has its text as its value. -/
theorem selfConsistent_status (opaqueLength : m.opaqueBytes.length = 4)
    (status : MemcachedBinStatus) {s : Bytes} (short : s.length < 2 ^ 32) :
    SelfConsistent m table (sendBinStatus m status s) := by
  have response := @selfConsistent_iff m table opaqueLength [] [] s status.code s.length 0
    (by decide) (by decide) (.inl rfl) (.inl rfl)
  refine response.mpr ?_
  rw [Nat.mod_eq_of_lt short]
  simp

/-- A status response with a key has nothing else. -/
theorem selfConsistent_statusKey (opaqueLength : m.opaqueBytes.length = 4)
    (status : MemcachedBinStatus) {key : Bytes} (short : key.length < 2 ^ 16)
    (own : ∃ arg ∈ m.keys, key = arg.str) :
    SelfConsistent m table (sendBinStatusKey m status key) := by
  have response := @selfConsistent_iff m table opaqueLength [] key [] status.code key.length 0
    short (by decide) (.inl rfl) (.inr own)
  rw [List.nil_append, List.append_nil] at response
  refine response.mpr ?_
  rw [Nat.mod_eq_of_lt (by omega)]
  simp

/-- A response of a header and a value. -/
theorem selfConsistent_plain (opaqueLength : m.opaqueBytes.length = 4) (cas : Nat) {value : Bytes}
    (short : value.length < 2 ^ 32) :
    SelfConsistent m table (binHdr m 0 0 0 value.length cas ++ value) := by
  have response := @selfConsistent_iff m table opaqueLength [] [] value 0 value.length cas
    (by decide) (by decide) (.inl rfl) (.inl rfl)
  refine response.mpr ?_
  rw [Nat.mod_eq_of_lt short]
  simp

/-- The response of a retrieval is self-consistent exactly when it has no key and the length of its
value has a place in the header. -/
theorem selfConsistent_value_iff (opaqueLength : m.opaqueBytes.length = 4) {arg : MemcachedArgs}
    (member : arg ∈ m.keys) (short : arg.str.length < 2 ^ 16) {e : McEntry}
    (present : table arg.str = some e) (data : Bytes) :
    SelfConsistent m table (sendBinValue m arg.str e.val e.cas data) ↔
      (m.wantsKey = true → arg.str = []) ∧ data.length + 4 < 2 ^ 32 := by
  obtain ⟨key, named⟩ : ∃ key, key = if m.wantsKey then arg.str else [] := ⟨_, rfl⟩
  have own : key = [] ∨ ∃ arg ∈ m.keys, key = arg.str := by
    rw [named]
    split
    · exact .inr ⟨arg, member, rfl⟩
    · exact .inl rfl
  have fits : key.length < 2 ^ 16 := by
    rw [named]
    split
    · exact short
    · decide
  have response := @selfConsistent_iff m table opaqueLength (digits 4 e.val) key data 0
    (data.length + 4) e.cas fits (by rw [length_digits]; decide)
    (.inr ⟨arg, member, e, present, rfl⟩) own
  have shape : sendBinValue m arg.str e.val e.cas data =
      binHdr m key.length 4 0 (data.length + 4) e.cas ++ (digits 4 e.val ++ key ++ data) := by
    rw [sendBinValue, named]
    simp only [List.append_assoc]
  have keyless : (m.wantsKey = true → arg.str = []) ↔ key.length = 0 := by
    rw [named, List.length_eq_zero_iff]
    cases m.wantsKey <;> simp
  rw [length_digits] at response
  rw [shape, response, keyless]
  omega

end Responses

section Requests

/-- A request that the binary parser makes. -/
structure BinRequest (m : MemcachedMsg) : Prop where
  binary : m.binary = true
  opaqueLength : m.opaqueBytes.length = 4
  wants : m.wantsKey = true → m.command = .get
  noOp : m.command = .noOp → m.opcode = 10 ∧ m.keycnt = 0
  notStats : m.command ≠ .stats
  failed : m.command = .none → m.res = .badBinArgs ∨ m.res = .badBinCmd
  keyed : m.keycnt = 0 ∨ ∃ arg, m.keys = [arg] ∧ arg.str ≠ [] ∧ arg.str.length < 2 ^ 16

/-- A message that keeps what its opcode says and has one key or none. -/
structure KeepsOpcode (m msg : MemcachedMsg) : Prop where
  binary : msg.binary = m.binary
  opaqueBytes : msg.opaqueBytes = m.opaqueBytes
  command : msg.command = m.command
  wantsKey : msg.wantsKey = m.wantsKey
  opcode : msg.opcode = m.opcode
  keyed : msg.keycnt = 0 ∨ ∃ arg, msg.keys = [arg] ∧ arg.str ≠ [] ∧ arg.str.length < 2 ^ 16

/-- A parser of a body reports one of two failures, or keeps what the opcode says. -/
def BodyOutcome (m : MemcachedMsg) (parsed : Option BinBody) : Prop :=
  ∀ n result, parsed = some ⟨n, result⟩ →
    match result with
    | .error status => status = .badBinArgs ∨ status = .badBinCmd
    | .ok msg => KeepsOpcode m msg

variable {m : MemcachedMsg} {b : MemcachedBinHdr} {body : Bytes}

/-- A guarded body has the outcome of its guards. -/
theorem bodyOutcome_guarded {n : Nat} {complete bad : Prop} [Decidable complete] [Decidable bad]
    {msg : MemcachedMsg} (keeps : ¬complete → ¬bad → KeepsOpcode m msg) :
    BodyOutcome m (if complete then none else some ⟨n, if bad then .error .badBinArgs
      else .ok msg⟩) := by
  intro n' result parsed
  rcases Decidable.em complete with short | whole
  · rw [if_pos short] at parsed
    cases parsed
  · rw [if_neg whole] at parsed
    obtain ⟨rfl, rfl⟩ := BinBody.mk.inj (Option.some.inj parsed)
    rcases Decidable.em bad with refused | taken
    · rw [if_pos refused]
      exact .inl rfl
    · rw [if_neg taken]
      exact keeps whole taken

/-- A key inside the body is a key of the request. -/
theorem keyed_of_inside {msg : MemcachedMsg} {offset ptr : Nat}
    (keys : msg.keys = [⟨ptr, (body.drop offset).take b.keylen⟩]) (small : b.keylen < 2 ^ 16)
    (inside : offset + b.keylen ≤ body.length) (keyed : b.keylen ≠ 0) :
    ∃ arg, msg.keys = [arg] ∧ arg.str ≠ [] ∧ arg.str.length < 2 ^ 16 := by
  have length : ((body.drop offset).take b.keylen).length = b.keylen := by
    rw [List.length_take, List.length_drop]
    omega
  refine ⟨⟨ptr, (body.drop offset).take b.keylen⟩, keys, ?_, ?_⟩
  · intro empty
    dsimp only at empty
    rw [empty] at length
    exact keyed length.symm
  · rw [length]
    exact small

/-- An operation without a key. -/
theorem parseBinOp_outcome (extraSz : Nat) : BodyOutcome m (m.parseBinOp b body extraSz) :=
  bodyOutcome_guarded fun _ _ => ⟨rfl, rfl, rfl, rfl, rfl, .inl rfl⟩

theorem parseBinOp_keyless {extraSz n : Nat} {msg : MemcachedMsg}
    (parsed : m.parseBinOp b body extraSz = some ⟨n, .ok msg⟩) : msg.keycnt = 0 := by
  rw [MemcachedMsg.parseBinOp] at parsed
  split at parsed
  · cases parsed
  · obtain ⟨_, result⟩ := BinBody.mk.inj (Option.some.inj parsed)
    split at result
    · cases result
    · obtain rfl := Except.ok.inj result
      rfl

/-- An unknown command fails. -/
theorem parseBinUnknown_outcome {n : Nat} {result : Except MemcachedStatus MemcachedMsg}
    (parsed : parseBinUnknown m b body = some ⟨n, result⟩) :
    ∃ status, result = .error status ∧ (status = .badBinArgs ∨ status = .badBinCmd) := by
  rw [parseBinUnknown, Option.map_eq_some_iff] at parsed
  obtain ⟨⟨n', result'⟩, op, whole⟩ := parsed
  have outcome := parseBinOp_outcome 0 n' result' op
  cases result' with
  | ok msg =>
      obtain ⟨_, rfl⟩ := BinBody.mk.inj whole
      exact ⟨_, rfl, .inr rfl⟩
  | error status =>
      obtain ⟨_, rfl⟩ := BinBody.mk.inj whole
      exact ⟨_, rfl, outcome⟩

/-- The parsers of the bodies. -/
theorem parseBin_outcome (small : b.keylen < 2 ^ 16) (ptr : Nat) :
    BodyOutcome m (parseBin m b ptr body) := by
  have store : BodyOutcome m (m.parseBinStore b ptr body) :=
    bodyOutcome_guarded fun whole good =>
      ⟨rfl, rfl, rfl, rfl, rfl, .inr (keyed_of_inside rfl small (by omega) (by omega))⟩
  have pend : BodyOutcome m (m.parseBinPend b ptr body) :=
    bodyOutcome_guarded fun whole good =>
      ⟨rfl, rfl, rfl, rfl, rfl,
        .inr (@keyed_of_inside b body _ 0 ptr rfl small (by omega) (by omega))⟩
  have retr : BodyOutcome m (m.parseBinRetr b ptr body) :=
    bodyOutcome_guarded fun whole good =>
      ⟨rfl, rfl, rfl, rfl, rfl,
        .inr (@keyed_of_inside b body _ 0 ptr rfl small (by omega) (by omega))⟩
  have touch : BodyOutcome m (m.parseBinTouch b ptr body) :=
    bodyOutcome_guarded fun whole good =>
      ⟨rfl, rfl, rfl, rfl, rfl, .inr (keyed_of_inside rfl small (by omega) (by omega))⟩
  have incr : BodyOutcome m (m.parseBinIncr b ptr body) :=
    bodyOutcome_guarded fun whole good =>
      ⟨rfl, rfl, rfl, rfl, rfl, .inr (keyed_of_inside rfl small (by omega) (by omega))⟩
  have unknown : BodyOutcome m (parseBinUnknown m b body) := by
    intro n result parsed
    obtain ⟨status, rfl, failed⟩ := parseBinUnknown_outcome parsed
    exact failed
  rw [parseBin]
  cases m.command <;> first
    | exact store
    | exact pend
    | exact retr
    | exact touch
    | exact incr
    | exact parseBinOp_outcome _
    | exact unknown

/-- Only the opcodes of a `GET` ask for the key, and one opcode does nothing. -/
theorem opCmd_getD (n : Nat) :
    ((opCmd.getD n (.none, false, false)).2.2 = true →
        (opCmd.getD n (.none, false, false)).1 = .get) ∧
      ((opCmd.getD n (.none, false, false)).1 = .noOp → n = 10) := by
  rcases Nat.lt_or_ge n opCmd.length with inside | behind
  · have all : ∀ n < 31, ((opCmd.getD n (.none, false, false)).2.2 = true →
        (opCmd.getD n (.none, false, false)).1 = .get) ∧
      ((opCmd.getD n (.none, false, false)).1 = .noOp → n = 10) := by decide
    exact all n inside
  · rw [List.getD_eq_getElem?_getD, List.getElem?_eq_none behind]
    simp

/-- What the parser accepts is a binary request. -/
theorem binRequest_of_unpackBin {buflen j length : Nat} {req : Bytes} {m : MemcachedMsg}
    (parsed : unpackBin buflen j req = ⟨.ok, length, m⟩) : BinRequest m := by
  rw [unpackBin] at parsed
  rcases Nat.lt_or_ge req.length MemcachedBinHdr.size with short | whole
  · rw [if_pos short] at parsed
    cases parsed
  · rw [if_neg (Nat.not_lt.mpr whole)] at parsed
    dsimp only at parsed
    have small : (readBinHdr req).keylen < 2 ^ 16 := by
      have bound := value_lt ((req.drop 2).take 2)
      have size : ((req.drop 2).take 2).length = 2 := by
        have := whole
        rw [MemcachedBinHdr.size] at this
        rw [List.length_take, List.length_drop]
        omega
      rw [size] at bound
      exact bound
    have echo : (readBinHdr req).opaqueBytes.length = 4 := by
      have := whole
      rw [MemcachedBinHdr.size] at this
      rw [readBinHdr, List.length_take, List.length_drop]
      omega
    obtain ⟨wants, noOp⟩ := opCmd_getD (readBinHdr req).opcode.toNat
    have outcome := @parseBin_outcome (binMsg (readBinHdr req)) (readBinHdr req)
      (req.drop MemcachedBinHdr.size) small (j + MemcachedBinHdr.size)
    cases body : parseBin (binMsg (readBinHdr req)) (readBinHdr req) (j + MemcachedBinHdr.size)
        (req.drop MemcachedBinHdr.size) with
    | none =>
        rw [body] at parsed
        cases parsed
    | some parsedBody =>
        obtain ⟨n, result⟩ := parsedBody
        have given := outcome n result body
        rw [body] at parsed
        cases result with
        | error status =>
            obtain ⟨_, _, rfl⟩ := Unpacked.mk.inj parsed
            exact ⟨rfl, echo, by simp, by simp, by simp, fun _ => given, .inl rfl⟩
        | ok msg =>
            obtain ⟨_, _, rfl⟩ := Unpacked.mk.inj parsed
            have known : msg.command ≠ .stats ∧ msg.command ≠ .none := by
              rw [given.command]
              constructor
              all_goals
                intro same
                rw [parseBin, same] at body
                obtain ⟨_, error, _⟩ := parseBinUnknown_outcome body
                cases error
            apply BinRequest.mk
            · rw [given.binary]
              rfl
            · rw [given.opaqueBytes]
              exact echo
            · rw [given.wantsKey, given.command]
              exact wants
            · rw [given.opcode, given.command]
              intro same
              apply And.intro (UInt8.toNat_inj.mp (noOp same))
              have op : (binMsg (readBinHdr req)).command = .noOp := same
              rw [parseBin, op] at body
              exact parseBinOp_keyless body
            · exact known.1
            · exact fun same => absurd same known.2
            · exact given.keyed

end Requests

section Handlers

/-- Nothing is sent, or a self-consistent response. -/
def Fits (m : MemcachedMsg) (table : McTable) (reply : Bytes) : Prop :=
  reply = [] ∨ SelfConsistent m table reply

/-- A handler succeeds with a response that fits, or fails without one. -/
def Reports (m : MemcachedMsg) (table : McTable) (result : KeyResult) : Prop :=
  result.status = .ok ∧ Fits m table result.out ∨
    (result.status = .errKv ∨ result.status = .notImpl) ∧ result.out = []

variable {run : KeyRun} {table : McTable} {entry : Option McEntry}

theorem Fits.send {m : MemcachedMsg} {reply : Bytes} (fits : Fits m table reply) (env : KvEnv) :
    Fits m table (env.send reply) := by
  rw [KvEnv.send]
  split
  · exact fits
  · exact .inl rfl

/-- A quiet request sends nothing. -/
theorem Fits.quiet {m : MemcachedMsg} {reply : Bytes} (fits : Fits m table reply) :
    Fits m table (if m.quiet then [] else reply) := by
  split
  · exact .inl rfl
  · exact fits

/-- The report of a failure fits. -/
theorem fits_sendErr {m : MemcachedMsg} (binary : m.binary = true)
    (opaqueLength : m.opaqueBytes.length = 4) {status : MemcachedStatus}
    (known : status = .errKv ∨ status = .notImpl ∨ status = .badBinArgs ∨ status = .badBinCmd)
    (failure : Bytes) : Fits m table (sendErr m status failure) := by
  have report : ∀ bin : MemcachedBinStatus, Fits m table (sendBinStatus m bin bin.text) :=
    fun bin => .inr (selfConsistent_status opaqueLength bin (length_statusText bin))
  rcases known with rfl | rfl | rfl | rfl
  · dsimp only [sendErr]
    rw [if_pos binary]
    exact report _
  · dsimp only [sendErr]
    rw [if_pos binary]
    exact report _
  · exact report _
  · exact report _

/-- The storage commands. -/
theorem reports_store {present : Refusal} {keepExtras : Bool} {refused : Refusal → Bytes}
    {stored : McEntry → Bytes} (refuses : ∀ reason, Fits run.msg table (refused reason))
    (stores : ∀ e, Fits run.msg table (stored e)) :
    Reports run.msg table (run.store present keepExtras refused stored entry) := by
  rw [KeyRun.store]
  split
  · exact .inr ⟨.inl rfl, rfl⟩
  · exact .inr ⟨.inl rfl, rfl⟩
  · split
    · exact .inl ⟨rfl, ((refuses _).send _).quiet⟩
    · rw [KeyRun.storeValue]
      dsimp only
      split
      · exact .inl ⟨rfl, ((stores _).send _).quiet⟩
      · exact .inr ⟨.inl rfl, rfl⟩

/-- A fetch that finds a value has it from the table. -/
theorem entry_of_keyOk {readOnly : Bool} {env : KvEnv} {e : McEntry}
    (found : checkType readOnly (execKeyFetch env readOnly entry) = ⟨some .keyOk, some e⟩) :
    entry = some e ∧ e.type = .string ∧ env.fetched = true := by
  cases fetched : env.fetched with
  | false => simp [execKeyFetch, fetched, checkType] at found
  | true =>
      cases entry with
      | none => cases readOnly <;> simp [execKeyFetch, fetched, checkType] at found
      | some e' =>
          cases type : e'.type <;> cases readOnly <;>
            simp [execKeyFetch, fetched, checkType, type] at found
          all_goals
            rw [found] at type
            exact ⟨congrArg _ found, type, rfl⟩

/-- The value of an entry is sent by a retrieval that finds it. -/
structure Sends (env : KvEnv) (m : MemcachedMsg) (entry : Option McEntry) (e : McEntry) : Prop where
  present : entry = some e
  type : e.type = .string
  fetched : env.fetched = true
  valued : env.valued = true
  room : env.room = true
  command : (m.command = .get ∨ m.command = .gets) ∧ env.validated = true ∨
    m.command = .gat ∨ m.command = .gats

section Request

variable (request : BinRequest run.msg) (own : ∃ arg ∈ run.msg.keys, run.key = arg.str)
  (short : run.key.length < 2 ^ 16)

include request in
/-- The text of a status. -/
theorem fits_status (status : MemcachedBinStatus) :
    Fits run.msg table (sendBinStatus run.msg status status.text) :=
  .inr (selfConsistent_status request.opaqueLength status (length_statusText status))

include request in
/-- A header alone. -/
theorem fits_hdr (cas : Nat) : Fits run.msg table (binHdr run.msg 0 0 0 0 cas) := by
  have plain := @selfConsistent_plain run.msg table request.opaqueLength cas [] (by decide)
  rw [List.append_nil] at plain
  exact .inr plain

include request own short in
/-- A miss is reported with the key or without. -/
theorem fits_binMiss : Fits run.msg table run.binMiss := by
  rw [KeyRun.binMiss]
  apply Fits.quiet
  apply Fits.send
  split
  · exact .inr (selfConsistent_statusKey request.opaqueLength _ short own)
  · exact fits_status request _

include request in
/-- A deletion. -/
theorem reports_del : Reports run.msg table (run.execBinDel entry) := by
  rw [KeyRun.execBinDel]
  refine .inl ⟨rfl, ?_⟩
  apply Fits.quiet
  apply Fits.send
  split
  · exact fits_hdr request 0
  · exact fits_status request _

include request in
/-- A number is sent as a word. -/
theorem reports_storeUint (e : McEntry) (ival : Nat) (failed : Option McEntry) :
    Reports run.msg table (run.storeUint e ival failed) := by
  rw [KeyRun.storeUint]
  split
  · refine .inl ⟨rfl, Fits.send ?_ _⟩
    have plain := @selfConsistent_plain run.msg table request.opaqueLength e.cas (digits 8 ival)
      (by rw [length_digits]; decide)
    rw [length_digits] at plain
    exact .inr plain
  · exact .inr ⟨.inl rfl, rfl⟩

include request in
/-- A counter. -/
theorem reports_incr : Reports run.msg table (run.execBinIncr entry) := by
  rw [KeyRun.execBinIncr]
  split
  · split
    · split
      · exact .inl ⟨rfl, (fits_status request _).send _⟩
      · exact reports_storeUint request _ _ _
    · exact .inr ⟨.inl rfl, rfl⟩
  · exact reports_storeUint request _ _ _
  · exact reports_storeUint request _ _ _
  · exact .inr ⟨.inl rfl, rfl⟩

include request own short in
/-- The answer to a touch is a value without bytes. -/
theorem reports_touch (fetch : run.fetch = execKeyFetch) (wants : run.msg.wantsKey = false) :
    Reports run.msg table (run.execBinTouch (table run.key)) := by
  rw [KeyRun.execBinTouch, fetch]
  dsimp only
  split
  · rename_i e found
    obtain ⟨present, _, _⟩ := entry_of_keyOk found
    obtain ⟨arg, member, named⟩ := own
    refine .inl ⟨rfl, Fits.quiet (Fits.send (.inr ?_) _)⟩
    rw [named] at present short ⊢
    refine (selfConsistent_value_iff request.opaqueLength member short present []).mpr ⟨?_, ?_⟩
    · intro wanted
      rw [wants] at wanted
      cases wanted
    · decide
  · exact .inl ⟨rfl, ((fits_status request _).send _).quiet⟩
  · exact .inl ⟨rfl, ((fits_status request _).send _).quiet⟩
  · exact .inr ⟨.inl rfl, rfl⟩

/-- Without room a value is not sent. -/
theorem fits_binEntry {e : McEntry} (full : run.env.room = true → False) :
    Fits run.msg table (run.binEntry e) := by
  have noRoom : run.env.room = false := Bool.eq_false_iff.mpr full
  refine .inl ?_
  rw [KeyRun.binEntry, KvEnv.send, noRoom]
  rfl

include request own short in
/-- A read that sends no value. -/
theorem reports_retr (fetch : run.fetch = execKeyFetch)
    (read : run.msg.command = .get ∨ run.msg.command = .gets)
    (silent : ∀ e, ¬Sends run.env run.msg (table run.key) e) :
    Reports run.msg table (run.execBinRetr (table run.key)) := by
  rw [KeyRun.execBinRetr, fetch]
  split
  · rename_i e found
    obtain ⟨present, type, fetched⟩ := entry_of_keyOk found
    split
    · rename_i works
      exact .inl ⟨rfl, fits_binEntry fun room =>
        silent e ⟨present, type, fetched, works.1, room, .inl ⟨read, works.2⟩⟩⟩
    · exact .inr ⟨.inl rfl, rfl⟩
  · exact .inl ⟨rfl, fits_binMiss request own short⟩
  · exact .inl ⟨rfl, fits_binMiss request own short⟩
  · exact .inr ⟨.inl rfl, rfl⟩

include request own short in
/-- A touching read that sends no value. -/
theorem reports_retrTouch (fetch : run.fetch = execKeyFetch)
    (touch : run.msg.command = .gat ∨ run.msg.command = .gats)
    (silent : ∀ e, ¬Sends run.env run.msg (table run.key) e) :
    Reports run.msg table (run.execBinRetrTouch (table run.key)) := by
  rw [KeyRun.execBinRetrTouch, fetch]
  split
  · rename_i e found
    obtain ⟨present, type, fetched⟩ := entry_of_keyOk found
    split
    · rename_i valued
      exact .inl ⟨rfl, fits_binEntry fun room =>
        silent e ⟨present, type, fetched, valued, room, .inr touch⟩⟩
    · exact .inr ⟨.inl rfl, rfl⟩
  · exact .inl ⟨rfl, fits_binMiss request own short⟩
  · exact .inl ⟨rfl, fits_binMiss request own short⟩
  · exact .inr ⟨.inl rfl, rfl⟩

include request own short in
/-- A command that sends no value of a retrieval. -/
theorem reports_command (fetch : run.fetch = execKeyFetch)
    (silent : ∀ e, ¬Sends run.env run.msg (table run.key) e) :
    Reports run.msg table (run.execCommand (table run.key)) := by
  have stores : Reports run.msg table (run.execBinStore (table run.key)) :=
    reports_store (fun _ => fits_status request _) fun e => fits_hdr request e.cas
  rw [KeyRun.execCommand]
  split
  · rw [if_pos request.binary]
    exact stores
  · rw [if_pos request.binary]
    exact stores
  · rw [if_pos request.binary]
    exact stores
  · rw [if_pos request.binary]
    exact stores
  · rw [if_pos request.binary]
    exact stores
  · rw [if_pos request.binary]
    exact stores
  · rename_i command
    rw [if_pos request.binary]
    exact reports_retr request own short fetch (.inl command) silent
  · rename_i command
    rw [if_pos request.binary]
    exact reports_retr request own short fetch (.inr command) silent
  · rename_i command
    rw [if_pos request.binary]
    exact reports_retrTouch request own short fetch (.inl command) silent
  · rename_i command
    rw [if_pos request.binary]
    exact reports_retrTouch request own short fetch (.inr command) silent
  · rw [if_pos request.binary]
    exact reports_del request
  · rename_i command
    have wants : run.msg.wantsKey = false := by
      rw [Bool.eq_false_iff]
      intro wanted
      rw [request.wants wanted] at command
      cases command
    rw [if_pos request.binary]
    exact reports_touch request own short fetch wants
  · rw [if_pos request.binary]
    exact reports_incr request
  · rw [if_pos request.binary]
    exact reports_incr request
  · exact .inr ⟨.inr rfl, rfl⟩

end Request

/-- A retrieval that finds a value sends it. -/
theorem command_sends (fetch : run.fetch = execKeyFetch) (binary : run.msg.binary = true)
    {e : McEntry} (sends : Sends run.env run.msg entry e) :
    (run.execCommand entry).status = .ok ∧
      (run.execCommand entry).out = sendBinValue run.msg run.key e.val e.cas e.data := by
  obtain ⟨rfl, type, fetched, valued, room, command⟩ := sends
  have found : ∀ readOnly, checkType readOnly (execKeyFetch run.env readOnly (some e)) =
      ⟨some .keyOk, some e⟩ := by
    intro readOnly
    simp [execKeyFetch, fetched, checkType, type]
  have sent : run.binEntry e = sendBinValue run.msg run.key e.val e.cas e.data := by
    rw [KeyRun.binEntry, KvEnv.send, room, if_pos rfl]
  rcases command with ⟨get | gets, validated⟩ | gat | gats
  · simp [KeyRun.execCommand, get, binary, KeyRun.execBinRetr, fetch, getKeyRead, found, valued,
      validated, sent]
  · simp [KeyRun.execCommand, gets, binary, KeyRun.execBinRetr, fetch, getKeyRead, found, valued,
      validated, sent]
  · simp [KeyRun.execCommand, gat, binary, KeyRun.execBinRetrTouch, fetch, getKeyWrite, found,
      valued, sent]
  · simp [KeyRun.execCommand, gats, binary, KeyRun.execBinRetrTouch, fetch, getKeyWrite, found,
      valued, sent]

end Handlers

section Exact

variable {server : ServerTexts} {envs : Nat → KvEnv} {pending : Bytes} {m : MemcachedMsg}
  {table : McTable}

/-- The answer to a no-operation echoes the opaque word zero. -/
theorem selfConsistent_noOp_iff (opcode : m.opcode = 10) :
    SelfConsistent m table noOpResponse ↔ m.opaqueBytes = [0, 0, 0, 0] := by
  have header : readBinHdr noOpResponse = ⟨10, 0, 0, 0, [0, 0, 0, 0], 0⟩ := by decide
  constructor
  · intro consistent
    rw [← consistent.opaqueBytes, header]
  · intro zero
    apply SelfConsistent.mk
    · decide
    · rw [header]
      exact Nat.le_refl 0
    · rw [header]
      decide
    · rw [header, opcode]
    · rw [header, zero]
    · refine ⟨[], [], [], ?_, ?_, ?_, .inl rfl, .inl rfl⟩
      · decide
      · rw [header]
        rfl
      · rw [header]
        rfl

/-- A request without keys is answered with a status. -/
theorem fits_noKeys (request : BinRequest m) (version : server.version.length < 2 ^ 32)
    (other : m.command ≠ .noOp) (failure : Bytes) :
    Fits m table ((execNoKeys server pending m).2 ++
      sendErr m (execNoKeys server pending m).1 failure) := by
  have empty : Fits m table (sendBinStatus m .ok []) :=
    .inr (selfConsistent_status request.opaqueLength .ok (by decide))
  have status : ∀ status, status = .errKv ∨ status = .notImpl ∨ status = .badBinArgs ∨
      status = .badBinCmd → Fits m table ([] ++ sendErr m status failure) :=
    fun status known => fits_sendErr request.binary request.opaqueLength known failure
  rw [execNoKeys]
  split
  · rename_i stats
    exact absurd stats request.notStats
  · simpa only [request.binary, if_true, sendErr, List.append_nil] using empty
  · simpa only [request.binary, if_true, sendErr, List.append_nil] using empty
  · simpa only [request.binary, if_true, sendErr, List.append_nil] using empty
  · simpa only [request.binary, if_true, sendErr, List.append_nil] using empty
  · simpa only [request.binary, if_true, sendErr, List.append_nil] using empty
  · simpa only [request.binary, if_true, sendErr, List.append_nil] using empty
  · rename_i noOp
    exact absurd noOp other
  · have text : Fits m table (sendBinStatus m .ok server.version) :=
      .inr (selfConsistent_status request.opaqueLength .ok version)
    simpa only [request.binary, if_true, sendErr, List.append_nil] using text
  · simpa only [request.binary, if_true, sendErr, List.append_nil] using empty
  · rename_i command
    dsimp only
    split
    · exact status _ ((request.failed command).elim (fun args => .inr (.inr (.inl args)))
        fun cmd => .inr (.inr (.inr cmd)))
    · exact status _ (.inr (.inl rfl))
  · exact status _ (.inr (.inl rfl))

/-- The response to a request is self-consistent. -/
def Consistent (server : ServerTexts) (envs : Nat → KvEnv) (pending : Bytes) (m : MemcachedMsg)
    (table : McTable) : Prop :=
  ∃ reply after, respond execKeyFetch server envs pending m table = some (reply, after) ∧
    Fits m table reply

/-- The response of a request without keys. -/
theorem respond_noKeys {fetch : KeyFetch} (keyless : m.keycnt = 0) :
    respond fetch server envs pending m table =
      some ((envs 0).send ((execNoKeys server pending m).2 ++
        sendErr m (execNoKeys server pending m).1 (envs 0).failure), table) := by
  rw [respond, if_neg (by omega)]

/-- The response of a request with one key. -/
theorem respond_key {fetch : KeyFetch} {arg : MemcachedArgs} (keys : m.keys = [arg])
    {result : KeyResult}
    (handled : KeyRun.execCommand { fetch, env := envs 0, msg := m, key := arg.str }
      (table arg.str) = result) :
    ∃ after, respond fetch server envs pending m table =
      some (result.out ++ (envs 0).send (sendErr m result.status (envs 0).failure), after) := by
  have keyed : 0 < m.keycnt := by
    rw [Nat.pos_iff_ne_zero]
    intro none
    rw [MemcachedMsg.keys, none, List.take_zero] at keys
    cases keys
  have kept : ∀ run : KeyRun, ∀ entry, (run.execKey entry).out = (run.execCommand entry).out ∧
      (run.execKey entry).status = (run.execCommand entry).status := by
    intro run entry
    rw [KeyRun.execKey]
    split <;> exact ⟨rfl, rfl⟩
  have run := @MemcachedExec.run_only fetch envs m arg keys table _ rfl
  rw [(kept _ _).1, (kept _ _).2, handled] at run
  rw [respond, if_pos keyed, run]
  exact ⟨_, rfl⟩

/-- A request without keys. -/
theorem consistent_noKeys (request : BinRequest m) (version : server.version.length < 2 ^ 32)
    (keyless : m.keycnt = 0) :
    Consistent server envs pending m table ↔
      (m.command = .noOp → (envs 0).room = true → m.opaqueBytes = [0, 0, 0, 0]) := by
  have answer := @respond_noKeys server envs pending m table execKeyFetch keyless
  rcases Decidable.em (m.command = .noOp) with noOp | other
  · have sent : (execNoKeys server pending m).2 ++
        sendErr m (execNoKeys server pending m).1 (envs 0).failure = noOpResponse := by
      rw [execNoKeys, noOp]
      rfl
    rw [sent] at answer
    have some : noOpResponse ≠ [] := by decide
    constructor
    · intro consistent _ room
      obtain ⟨reply, after, same, fits⟩ := consistent
      rw [answer] at same
      obtain ⟨rfl, _⟩ := Prod.mk.inj (Option.some.inj same)
      rw [KvEnv.send, room, if_pos rfl] at fits
      exact (selfConsistent_noOp_iff (request.noOp noOp).1).mp (fits.resolve_left some)
    · intro condition
      refine ⟨_, _, answer, ?_⟩
      rw [KvEnv.send]
      split
      · rename_i room
        exact .inr ((selfConsistent_noOp_iff (request.noOp noOp).1).mpr (condition noOp room))
      · exact .inl rfl
  · constructor
    · exact fun _ noOp => absurd noOp other
    · exact fun _ => ⟨_, _, answer, (fits_noKeys request version other _).send _⟩

/-- A request with a key. -/
theorem consistent_key (request : BinRequest m) {arg : MemcachedArgs} (keys : m.keys = [arg])
    (nonempty : arg.str ≠ []) (short : arg.str.length < 2 ^ 16) :
    Consistent server envs pending m table ↔
      ∀ e, Sends (envs 0) m (table arg.str) e →
        m.wantsKey = false ∧ e.data.length + 4 < 2 ^ 32 := by
  have member : arg ∈ m.keys := by
    rw [keys]
    exact List.mem_singleton_self arg
  obtain ⟨after, answer⟩ := @respond_key server envs pending m table execKeyFetch arg keys _ rfl
  rcases Classical.em (∃ e, Sends (envs 0) m (table arg.str) e) with ⟨e, sends⟩ | silent
  · obtain ⟨ok, sent⟩ := @command_sends
      { fetch := execKeyFetch, env := envs 0, msg := m, key := arg.str } (table arg.str) rfl
      request.binary e sends
    have quiet : (envs 0).send (sendErr m .ok (envs 0).failure) = [] := by
      rw [KvEnv.send]
      split <;> rfl
    rw [ok, sent, quiet, List.append_nil] at answer
    have value := @selfConsistent_value_iff m table request.opaqueLength arg member short e
      sends.present e.data
    have some : sendBinValue m arg.str e.val e.cas e.data ≠ [] := by
      simp [sendBinValue, binHdr]
    constructor
    · intro consistent e' sends'
      obtain rfl : e = e' := Option.some.inj (sends.present.symm.trans sends'.present)
      obtain ⟨reply, after', same, fits⟩ := consistent
      rw [answer] at same
      obtain ⟨rfl, _⟩ := Prod.mk.inj (Option.some.inj same)
      obtain ⟨keyless, size⟩ := value.mp (fits.resolve_left some)
      exact ⟨Bool.eq_false_iff.mpr fun wanted => nonempty (keyless wanted), size⟩
    · intro condition
      obtain ⟨wants, size⟩ := condition e sends
      refine ⟨_, _, answer, .inr (value.mpr ⟨fun wanted => ?_, size⟩)⟩
      rw [wants] at wanted
      cases wanted
  · constructor
    · exact fun _ e sends => absurd ⟨e, sends⟩ silent
    · intro _
      have reports := @reports_command
        { fetch := execKeyFetch, env := envs 0, msg := m, key := arg.str } table request
        ⟨arg, member, rfl⟩ short rfl fun e sends => silent ⟨e, sends⟩
      refine ⟨_, _, answer, ?_⟩
      rcases reports with ⟨ok, fits⟩ | ⟨failed, none⟩
      · have quiet : (envs 0).send (sendErr m .ok (envs 0).failure) = [] := by
          rw [KvEnv.send]
          split <;> rfl
        rw [ok, quiet, List.append_nil]
        exact fits
      · rw [none, List.nil_append]
        exact (fits_sendErr request.binary request.opaqueLength
          (failed.elim .inl fun notImpl => .inr (.inl notImpl)) _).send _

/-- The response to a binary request is self-consistent, unless it answers a no-operation whose
opaque word is not zero, or sends a value with its key or of a length that the header does not
hold. -/
theorem binResponse_exact {buflen j length : Nat} {req : Bytes}
    (parsed : unpackBin buflen j req = ⟨.ok, length, m⟩)
    (version : server.version.length < 2 ^ 32) :
    Consistent server envs pending m table ↔
      (m.command = .noOp → (envs 0).room = true → m.opaqueBytes = [0, 0, 0, 0]) ∧
        ∀ arg ∈ m.keys, ∀ e, Sends (envs 0) m (table arg.str) e →
          m.wantsKey = false ∧ e.data.length + 4 < 2 ^ 32 := by
  have request := binRequest_of_unpackBin parsed
  rcases request.keyed with keyless | ⟨arg, keys, nonempty, short⟩
  · rw [consistent_noKeys request version keyless]
    constructor
    · intro condition
      apply And.intro condition
      intro arg member
      rw [MemcachedMsg.keys, keyless, List.take_zero] at member
      cases member
    · exact And.left
  · rw [consistent_key request keys nonempty short]
    constructor
    · intro condition
      apply And.intro
      · intro noOp
        have none := (request.noOp noOp).2
        rw [MemcachedMsg.keys, none, List.take_zero] at keys
        cases keys
      · intro arg' member
        rw [keys, List.mem_singleton] at member
        rw [member]
        exact condition
    · intro condition
      apply condition.2
      rw [keys]
      exact List.mem_singleton_self arg

end Exact

/-- A binary request for the key `k`. -/
def binGet (opcode : UInt8) : Bytes :=
  [0x80, opcode, 0, 1, 0, 0, 0, 0, 0, 0, 0, 1, 1, 2, 3, 4, 0, 0, 0, 0, 0, 0, 0, 0, 107]

/-- The parsed request. -/
def binGetMsg (opcode : UInt8) : MemcachedMsg := (unpackBin 25 0 (binGet opcode)).msg

/-- All keys have the value `v`. -/
def binTable : McTable := fun _ => some { type := .string, data := [118] }

/-- The response to a `GET` is self-consistent. -/
theorem binResponse_exact_get :
    Consistent ⟨[], [], []⟩ (fun _ => { currentStamp := 10 }) [] (binGetMsg 0) binTable := by
  have parsed : unpackBin 25 0 (binGet 0) = ⟨.ok, 25, binGetMsg 0⟩ := by rfl
  refine (binResponse_exact parsed (by decide)).mpr ⟨?_, ?_⟩
  · exact fun noOp => absurd noOp (by decide)
  · intro arg _ e sends
    obtain rfl := Option.some.inj sends.present
    exact ⟨by rfl, by decide⟩

/-- The response to a `GETK` has a length without its key. -/
theorem not_binResponse_getk : ¬∀ buflen j length req server envs pending m table,
    unpackBin buflen j req = ⟨.ok, length, m⟩ → server.version.length < 2 ^ 32 →
      Consistent server envs pending m table := by
  intro consistent
  have parsed : unpackBin 25 0 (binGet 12) = ⟨.ok, 25, binGetMsg 12⟩ := by rfl
  have replied := consistent 25 0 25 (binGet 12) ⟨[], [], []⟩ (fun _ => { currentStamp := 10 }) []
    (binGetMsg 12) binTable parsed (by decide)
  have keys : (binGetMsg 12).keys = [⟨24, [107]⟩] := by rfl
  have condition := (consistent_key (binRequest_of_unpackBin parsed) keys (by decide)
    (by decide)).mp replied _ ⟨rfl, rfl, rfl, rfl, rfl, .inl ⟨.inl rfl, rfl⟩⟩
  exact absurd condition.1 (by decide)

end Raids.Memcached
