import Raids.Proof.Memcached.Continue

namespace Raids.Memcached

/-- The commands that retrieve values. -/
def MemcachedCmd.Retrieval (command : MemcachedCmd) : Prop :=
  command = .get ∨ command = .gets ∨ command = .gat ∨ command = .gats

/-- The retrievals that set the expiry. -/
def MemcachedCmd.Touching (command : MemcachedCmd) : Prop := command = .gat ∨ command = .gats

instance (command : MemcachedCmd) : Decidable command.Touching :=
  inferInstanceAs (Decidable (_ ∨ _))

/-- The same request with one key. -/
def MemcachedMsg.single (m : MemcachedMsg) (arg : MemcachedArgs) : MemcachedMsg :=
  { m with args := m.args.take m.first ++ [arg], keycnt := 1 }

section Handlers

variable {m : MemcachedMsg} {key : Bytes} {env : KvEnv} {entry : Option McEntry} {n : Nat}

/-- The block that a retrieval gives for a key. -/
def retrBlock (m : MemcachedMsg) (key : Bytes) : Option McEntry → Bytes
  | some e =>
      if e.type = .string then
        formatValue key e.val e.data
          (if m.command = .gets ∨ m.command = .gats then e.cas else 0) false
      else []
  | none => []

/-- The entry that a retrieval leaves. -/
def retrEntry (m : MemcachedMsg) (env : KvEnv) (entry : Option McEntry) : Option McEntry :=
  if m.command.Touching then
    entry.map fun e =>
      match e.type with
      | .string => { e with exp := expireStamp m.ttl env.currentStamp }
      | .noData => { e with type := .string }
      | .other => e
  else entry

/-- A key with a value. -/
def HasValue (entry : Option McEntry) : Prop := ∃ e, entry = some e ∧ e.type = .string

/-- A block with the end line behind it. -/
theorem formatValue_last (flags : Nat) (data : Bytes) (cas : Nat) :
    formatValue key flags data cas true = formatValue key flags data cas false ++ endLine := by
  simp [formatValue, endLine, sendString]

variable {run : KeyRun}

/-- The serial number that a block shows. -/
theorem saveEntry_eq {e : McEntry} (type : e.type = .string) :
    run.saveEntry e = retrBlock run.msg run.key (some e) := by
  rw [retrBlock, if_pos type]
  rfl

theorem sendEntry_eq {e : McEntry} (type : e.type = .string) :
    run.sendEntry e = retrBlock run.msg run.key (some e) ++ endLine := by
  rw [← saveEntry_eq type]
  exact formatValue_last _ _ _

/-- A key without a value has no block. -/
theorem retrBlock_miss (miss : ¬HasValue entry) : retrBlock m key entry = [] := by
  cases entry with
  | none => rfl
  | some e => exact if_neg fun type => miss ⟨e, rfl, type⟩

/-- A miss is answered at once, or has no saved value. -/
theorem retrMiss_eq (works : run.env.Works) :
    run.retrMiss entry = ⟨.ok, if run.keyCnt = 1 then endLine else [], none, entry⟩ := by
  rw [KeyRun.retrMiss, works.send]
  rfl

/-- A read of a key without a value is a miss. -/
theorem execRetr_miss (fetch : run.fetch = execKeyFetch) (works : run.env.Works)
    (miss : ¬HasValue entry) : run.execRetr entry = run.retrMiss entry := by
  rw [KeyRun.execRetr, fetch]
  cases entry with
  | none => rw [getKeyRead_none works]
  | some e =>
      cases type : e.type with
      | string => exact absurd ⟨e, rfl, type⟩ miss
      | other => rw [getKeyRead_other works type]
      | noData => rw [getKeyRead_noData works type]

/-- A read of a value sends or saves its block. -/
theorem execRetr_value (fetch : run.fetch = execKeyFetch) (works : run.env.Works) {e : McEntry}
    (type : e.type = .string) :
    run.execRetr (some e) =
      if run.keyCnt = 1 then
        ⟨.ok, retrBlock run.msg run.key (some e) ++ endLine, none, some e⟩
      else ⟨.ok, [], some (retrBlock run.msg run.key (some e)), some e⟩ := by
  rw [KeyRun.execRetr, fetch, getKeyRead_string works type]
  simp only [works.valued, works.saved, works.validated, works.send, if_true, sendEntry_eq type,
    saveEntry_eq type]

/-- A touch of a key without a value is a miss. -/
theorem execRetrTouch_miss (fetch : run.fetch = execKeyFetch) (works : run.env.Works)
    (miss : ¬HasValue entry) : run.execRetrTouch entry = run.retrMiss entry := by
  rw [KeyRun.execRetrTouch, fetch]
  cases entry with
  | none => rw [getKeyWrite_none works]
  | some e =>
      cases type : e.type with
      | string => exact absurd ⟨e, rfl, type⟩ miss
      | other => rw [getKeyWrite_other works type]
      | noData => rw [getKeyWrite_noData works type]

/-- A touch of a value sends its block, or saves it and fails. -/
theorem execRetrTouch_value (fetch : run.fetch = execKeyFetch) (works : run.env.Works)
    {e : McEntry} (type : e.type = .string) :
    run.execRetrTouch (some e) =
      if run.keyCnt = 1 then
        ⟨.ok, retrBlock run.msg run.key (some e) ++ endLine, none,
          some { e with exp := run.stamp }⟩
      else
        ⟨.errKv, [], some (retrBlock run.msg run.key (some e)),
          some { e with exp := run.stamp }⟩ := by
  rw [KeyRun.execRetrTouch, fetch, getKeyWrite_string works type]
  simp only [works.valued, works.saved, works.send, if_true, sendEntry_eq type,
    saveEntry_eq type]

/-- The handler of a read. -/
theorem execKey_read (text : run.msg.binary = false) (touching : ¬run.msg.command.Touching)
    (retrieval : run.msg.command.Retrieval) : run.execKey entry = run.execRetr entry := by
  have read : run.msg.command = .get ∨ run.msg.command = .gets := by
    rcases retrieval with get | gets | touch
    · exact .inl get
    · exact .inr gets
    · exact absurd touch touching
  rw [KeyRun.execKey, KeyRun.execCommand]
  rcases read with command | command <;> simp [command, text]

/-- The handler of a touch gives a key without a type its type. -/
theorem execKey_touch (text : run.msg.binary = false) (touching : run.msg.command.Touching) :
    run.execKey entry =
      if (run.execRetrTouch entry).status = .ok then
        { run.execRetrTouch entry with
          entry := (run.execRetrTouch entry).entry.map fun e =>
            if e.type = .noData then { e with type := .string } else e }
      else run.execRetrTouch entry := by
  rw [KeyRun.execKey, KeyRun.execCommand]
  rcases touching with command | command <;> simp [command, text]

/-- A read leaves the entry. -/
theorem retrEntry_read (touching : ¬m.command.Touching) : retrEntry m env entry = entry :=
  if_neg touching

/-- A touch sets the expiry of a value. -/
theorem retrEntry_value (touching : m.command.Touching) {e : McEntry} (type : e.type = .string) :
    retrEntry m env (some e) = some { e with exp := expireStamp m.ttl env.currentStamp } := by
  rw [retrEntry, if_pos touching, Option.map_some]
  simp only [type]

/-- A touch without a value gives a key without a type its type. -/
theorem retrEntry_miss (touching : m.command.Touching) (miss : ¬HasValue entry) :
    retrEntry m env entry =
      entry.map fun e => if e.type = .noData then { e with type := .string } else e := by
  rw [retrEntry, if_pos touching]
  cases entry with
  | none => rfl
  | some e =>
      rw [Option.map_some, Option.map_some]
      cases type : e.type with
      | string => exact absurd ⟨e, rfl, type⟩ miss
      | other => simp
      | noData => simp

/-- A miss of a touch. -/
theorem execKey_touchMiss (fetch : run.fetch = execKeyFetch) (works : run.env.Works)
    (text : run.msg.binary = false) (touching : run.msg.command.Touching)
    (miss : ¬HasValue entry) :
    run.execKey entry =
      ⟨.ok, if run.keyCnt = 1 then endLine else [], none, retrEntry run.msg run.env entry⟩ := by
  rw [execKey_touch text touching, execRetrTouch_miss fetch works miss, retrMiss_eq works,
    if_pos rfl, retrEntry_miss touching miss]

/-- A touch of a value keeps its type. -/
theorem execKey_touchValue (fetch : run.fetch = execKeyFetch) (works : run.env.Works)
    (text : run.msg.binary = false) (touching : run.msg.command.Touching) {e : McEntry}
    (type : e.type = .string) : run.execKey (some e) = run.execRetrTouch (some e) := by
  rw [execKey_touch text touching, execRetrTouch_value fetch works type]
  split
  · simp [type]
  · rfl

/-- A single key is answered at once. -/
theorem execKey_single (works : env.Works) (retrieval : m.command.Retrieval)
    (text : m.binary = false) :
    KeyRun.execKey { fetch := execKeyFetch, env, msg := m, key } entry =
      ⟨.ok, retrBlock m key entry ++ endLine, none, retrEntry m env entry⟩ := by
  rcases Decidable.em m.command.Touching with touching | read
  · rcases Classical.em (HasValue entry) with ⟨e, rfl, type⟩ | miss
    · rw [execKey_touchValue rfl works text touching type, execRetrTouch_value rfl works type,
        if_pos rfl, retrEntry_value touching type]
      rfl
    · rw [execKey_touchMiss rfl works text touching miss, if_pos rfl, retrBlock_miss miss]
      rfl
  · rw [execKey_read text read retrieval, retrEntry_read read]
    rcases Classical.em (HasValue entry) with ⟨e, rfl, type⟩ | miss
    · rw [execRetr_value rfl works type, if_pos rfl]
    · rw [execRetr_miss rfl works miss, retrMiss_eq works, if_pos rfl, retrBlock_miss miss]
      rfl

/-- One of several keys saves its block. -/
theorem execKey_several (works : env.Works) (retrieval : m.command.Retrieval)
    (text : m.binary = false) (several : n ≠ 1) (saves : m.command.Touching → ¬HasValue entry) :
    ∃ part, part.getD [] = retrBlock m key entry ∧
      KeyRun.execKey { fetch := execKeyFetch, env, msg := m, key, keyCnt := n } entry =
        ⟨.ok, [], part, retrEntry m env entry⟩ := by
  rcases Decidable.em m.command.Touching with touching | read
  · use none
    rw [execKey_touchMiss rfl works text touching (saves touching), if_neg several,
      retrBlock_miss (saves touching)]
    exact ⟨rfl, rfl⟩
  · rw [execKey_read text read retrieval, retrEntry_read read]
    rcases Classical.em (HasValue entry) with ⟨e, rfl, type⟩ | miss
    · use some (retrBlock m key (some e))
      rw [execRetr_value rfl works type, if_neg several]
      exact ⟨rfl, rfl⟩
    · use none
      rw [execRetr_miss rfl works miss, retrMiss_eq works, if_neg several, retrBlock_miss miss]
      exact ⟨rfl, rfl⟩

/-- A touch of one of several keys fails when the key has a value. -/
theorem execKey_touched (works : env.Works) (text : m.binary = false) (several : n ≠ 1)
    (touching : m.command.Touching) (value : HasValue entry) :
    ∃ part entry', KeyRun.execKey { fetch := execKeyFetch, env, msg := m, key, keyCnt := n } entry =
      ⟨.errKv, [], part, entry'⟩ := by
  obtain ⟨e, rfl, type⟩ := value
  rw [execKey_touchValue rfl works text touching type, execRetrTouch_value rfl works type,
    if_neg several]
  exact ⟨_, _, rfl⟩

end Handlers

section Singles

variable (server : ServerTexts) (envs : Nat → KvEnv) (pending : Bytes) (m : MemcachedMsg)

/-- The replies of the request for one key after the other, and the table behind them. -/
def singleReplies : Nat → List MemcachedArgs → McTable → Option (List Bytes × McTable)
  | _, [], table => some ([], table)
  | i, arg :: args, table =>
      match respond execKeyFetch server (fun _ => envs i) pending (m.single arg) table with
      | none => none
      | some (reply, table) =>
          (singleReplies (i + 1) args table).map fun rest => (reply :: rest.1, rest.2)

/-- The blocks of the keys and the table behind them. -/
def retrievals : Nat → List MemcachedArgs → McTable → List Bytes × McTable
  | _, [], table => ([], table)
  | i, arg :: args, table =>
      let entry := table arg.str
      let rest := retrievals (i + 1) args
        (Function.update table arg.str (retrEntry m (envs i) entry))
      (retrBlock m arg.str entry :: rest.1, rest.2)

/-- A reply to several keys has the blocks of the replies to the single keys in their order, and one
end line. The touched keys have their expiry. -/
def MultiRetrieves (table : McTable) : Prop :=
  ∃ (reply : Bytes) (after : McTable) (replies blocks : List Bytes),
    respond execKeyFetch server envs pending m table = some (reply, after) ∧
    singleReplies server envs pending m 0 m.keys table = some (replies, after) ∧
    replies = blocks.map (· ++ endLine) ∧
    reply = blocks.flatten ++ endLine ∧
    (∀ block ∈ blocks, block = [] ∨
      ∃ key flags data cas, block = formatValue key flags data cas false) ∧
    (m.command.Touching → ∀ arg ∈ m.keys, ∀ e, table arg.str = some e → e.type = .string →
      ∃ i < m.keys.length, after arg.str =
        some { e with exp := expireStamp m.ttl (envs i).currentStamp })

variable {server envs pending m}

/-- The argument is the key of its request. -/
theorem single_keys {arg : MemcachedArgs} (inside : m.first ≤ m.args.length) :
    (m.single arg).keys = [arg] := by
  simp [MemcachedMsg.single, MemcachedMsg.keys, inside]

/-- A request with keys counts them. -/
theorem keycnt_pos (keyed : m.keys ≠ []) : 0 < m.keycnt := by
  rw [Nat.pos_iff_ne_zero]
  intro none
  rw [MemcachedMsg.keys, none, List.take_zero] at keyed
  exact keyed rfl

theorem first_le (keyed : m.keys ≠ []) : m.first ≤ m.args.length := by
  by_contra behind
  rw [MemcachedMsg.keys, List.drop_of_length_le (by omega), List.take_nil] at keyed
  exact keyed rfl

/-- The reply to a request with one key. -/
theorem respond_one {arg : MemcachedArgs} {table : McTable} (works : (envs 0).Works)
    (retrieval : m.command.Retrieval) (text : m.binary = false) (keys : m.keys = [arg]) :
    respond execKeyFetch server envs pending m table =
      some (retrBlock m arg.str (table arg.str) ++ endLine,
        Function.update table arg.str (retrEntry m (envs 0) (table arg.str))) := by
  have handled := @execKey_single m arg.str (envs 0) (table arg.str) works retrieval text
  have run := @MemcachedExec.run_only execKeyFetch envs m arg keys table _ handled
  rw [respond, if_pos (keycnt_pos (by rw [keys]; simp)), run, works.send]
  simp only [sendErr, List.append_nil]

/-- The single replies are the blocks with the end line. -/
theorem singleReplies_eq (works : ∀ i, (envs i).Works) (retrieval : m.command.Retrieval)
    (text : m.binary = false) (inside : m.first ≤ m.args.length) (i : Nat)
    (args : List MemcachedArgs) (table : McTable) :
    singleReplies server envs pending m i args table =
      some ((retrievals envs m i args table).1.map (· ++ endLine),
        (retrievals envs m i args table).2) := by
  induction args generalizing i table with
  | nil => rfl
  | cons arg args ih =>
      have reply := @respond_one server (fun _ => envs i) pending (m.single arg) arg table (works i)
        retrieval text (single_keys inside)
      rw [singleReplies, reply]
      dsimp only
      have entry : retrEntry (m.single arg) (envs i) (table arg.str) =
          retrEntry m (envs i) (table arg.str) := rfl
      rw [entry, ih, retrievals]
      rfl

/-- The blocks are blocks of values. -/
theorem retrievals_blocks (i : Nat) (args : List MemcachedArgs) (table : McTable) :
    ∀ block ∈ (retrievals envs m i args table).1, block = [] ∨
      ∃ key flags data cas, block = formatValue key flags data cas false := by
  induction args generalizing i table with
  | nil => exact fun block member => absurd member List.not_mem_nil
  | cons arg args ih =>
      intro block member
      rw [retrievals] at member
      rcases List.mem_cons.mp member with rfl | later
      · cases table arg.str with
        | none => exact .inl rfl
        | some e =>
            rw [retrBlock]
            split
            · exact .inr ⟨_, _, _, _, rfl⟩
            · exact .inl rfl
      · exact ih _ _ block later

end Singles

section Several

variable {server : ServerTexts} {envs : Nat → KvEnv} {pending : Bytes} {m : MemcachedMsg}

/-- One of the keys has a value, or gets its type from a touch and is touched again. -/
def FindsValue (keys : List Bytes) (table : McTable) : Prop :=
  ∃ before key behind, keys = before ++ key :: behind ∧
    ∃ e, table key = some e ∧ (e.type = .string ∨ e.type = .noData ∧ key ∈ before)

/-- A touch leaves a value exactly where it found one or gave a type. -/
theorem hasValue_retrEntry {env : KvEnv} {entry : Option McEntry}
    (touching : m.command.Touching) :
    HasValue (retrEntry m env entry) ↔ ∃ e, entry = some e ∧ (e.type = .string ∨ e.type = .noData) := by
  rw [HasValue, retrEntry, if_pos touching]
  cases entry with
  | none => simp
  | some e => cases type : e.type <;> simp [type]

/-- A touch leaves no key without a type. -/
theorem retrEntry_typed {env : KvEnv} {entry : Option McEntry} (touching : m.command.Touching)
    {e : McEntry} (left : retrEntry m env entry = some e) : e.type ≠ .noData := by
  rw [retrEntry, if_pos touching, Option.map_eq_some_iff] at left
  obtain ⟨e', _, rfl⟩ := left
  cases type : e'.type <;> simp [type]

/-- A value is found at the first key, or behind it. -/
theorem found_cons {key : Bytes} {keys : List Bytes} {table : McTable} {env : KvEnv}
    (touching : m.command.Touching) (miss : ¬HasValue (table key)) :
    FindsValue (key :: keys) table ↔
      FindsValue keys (Function.update table key (retrEntry m env (table key))) := by
  constructor
  · intro found
    obtain ⟨before, key', behind, whole, e, present, type⟩ := found
    cases before with
    | nil =>
        obtain ⟨rfl, rfl⟩ := List.cons.inj whole
        rcases type with string | ⟨_, earlier⟩
        · exact absurd ⟨e, present, string⟩ miss
        · cases earlier
    | cons first before =>
        obtain ⟨rfl, rfl⟩ := List.cons.inj whole
        rcases Decidable.em (key' = key) with rfl | other
        · have value : HasValue (retrEntry m env (table key')) :=
            (hasValue_retrEntry touching).mpr ⟨e, present, type.imp_right And.left⟩
          obtain ⟨e', present', string⟩ := value
          exact ⟨before, key', behind, rfl, e', by rw [Function.update_self, present'], .inl string⟩
        · refine ⟨before, key', behind, rfl, e, ?_, ?_⟩
          · rw [Function.update_of_ne other, present]
          · exact type.imp_right fun untyped =>
              ⟨untyped.1, (List.mem_cons.mp untyped.2).resolve_left other⟩
  · intro found
    obtain ⟨before, key', behind, rfl, e, present, type⟩ := found
    rcases Decidable.em (key' = key) with rfl | other
    · rw [Function.update_self] at present
      have value : HasValue (retrEntry m env (table key')) := by
        rcases type with string | ⟨untyped, _⟩
        · exact ⟨e, present, string⟩
        · exact absurd untyped (retrEntry_typed touching present)
      obtain ⟨e', present', type'⟩ := (hasValue_retrEntry touching).mp value
      exact ⟨key' :: before, key', behind, rfl, e', present',
        type'.imp_right fun untyped => ⟨untyped, List.mem_cons_self⟩⟩
    · rw [Function.update_of_ne other] at present
      exact ⟨key :: before, key', behind, rfl, e, present,
        type.imp_right fun untyped => ⟨untyped.1, List.mem_cons_of_mem _ untyped.2⟩⟩

/-- The contexts of keys that wait. -/
def waiting (args : List MemcachedArgs) : List KeyCtx := args.map fun arg => { key := arg.str }

theorem found_head {key : Bytes} {keys : List Bytes} {table : McTable} (value : HasValue (table key)) :
    FindsValue (key :: keys) table := by
  obtain ⟨e, present, string⟩ := value
  exact ⟨[], key, keys, rfl, e, present, .inl string⟩

/-- The keys save their blocks one after the other, and the last one sends them. -/
theorem runKeys_retrievals (works : ∀ i, (envs i).Works) (retrieval : m.command.Retrieval)
    (text : m.binary = false) {args : List MemcachedArgs} {before : List KeyCtx} {table : McTable}
    {fuel : Nat} (keyed : args ≠ []) (several : 1 < before.length + args.length)
    (enough : args.length ≤ fuel)
    (saves : m.command.Touching → ¬FindsValue (args.map (·.str)) table) :
    (MemcachedExec.runKeys execKeyFetch envs fuel before.length 0
        { msg := m, keys := before ++ waiting args, keyDone := before.length, table }).map
          (fun s => (s.out, s.table)) =
      some (before.flatMap (fun ctx => ctx.part.getD []) ++
          (retrievals envs m before.length args table).1.flatten ++ endLine,
        (retrievals envs m before.length args table).2) := by
  induction args generalizing before table fuel with
  | nil => exact absurd rfl keyed
  | cons arg args ih =>
      obtain ⟨fuel, rfl⟩ : ∃ left, fuel = left + 1 :=
        ⟨fuel - 1, by rw [List.length_cons] at enough; omega⟩
      have count : (before ++ waiting (arg :: args)).length ≠ 1 := by
        rw [List.length_append, waiting, List.length_map]
        omega
      obtain ⟨part, block, handled⟩ := @execKey_several m arg.str (envs before.length)
        (table arg.str) _ (works _) retrieval text count
        fun touching value => saves touching (found_head value)
      have turn := @MemcachedExec.execKeyContinue_waits
        { msg := m, keys := before ++ waiting (arg :: args), keyDone := before.length, table }
        (envs before.length) execKeyFetch before (waiting args) { key := arg.str } rfl rfl
      simp only [MemcachedExec.keyCnt, handled] at turn
      cases args with
      | nil =>
          rw [MemcachedExec.skipKey_last (by simp [MemcachedExec.keyCnt, waiting])
            (by simpa [MemcachedExec.keyCnt, waiting] using several)] at turn
          rw [MemcachedExec.runKeys_success rfl rfl turn]
          have success : memcachedStatusSuccess .ok = true := rfl
          simp [MemcachedExec.multiGetSend, (works _).send, success, waiting, block, retrievals,
            endLine]
      | cons next args =>
          rw [MemcachedExec.skipKey_more (by simp [MemcachedExec.keyCnt, waiting]) rfl] at turn
          have rest := @ih
            (before ++ [{ key := arg.str, status := .ok, part := part.orElse fun _ => none }])
            (Function.update table arg.str
              (retrEntry m (envs before.length) (table arg.str))) fuel
            (by simp) (by simp; omega) (by simpa using enough) fun touching found =>
              saves touching ((found_cons touching fun value =>
                saves touching (found_head value)).mpr found)
          rw [List.length_append, List.append_assoc] at rest
          rw [MemcachedExec.runKeys_turn rfl rfl (List.cons_ne_nil _ _) turn, retrievals, ← block]
          refine rest.trans ?_
          simp

/-- A touch of several keys fails at the first value that it finds. -/
theorem runKeys_touched (works : ∀ i, (envs i).Works) (touching : m.command.Touching)
    (text : m.binary = false) {args : List MemcachedArgs} {before : List KeyCtx} {table : McTable}
    {fuel : Nat} (several : 1 < before.length + args.length)
    (enough : before.length + 2 * args.length ≤ fuel) (found : FindsValue (args.map (·.str)) table) :
    ∃ s, MemcachedExec.runKeys execKeyFetch envs fuel before.length 0
        { msg := m, keys := before ++ waiting args, keyDone := before.length, table } = some s ∧
      (s.out = [] ∨ ∃ failure, s.out = sendErrKv failure) := by
  induction args generalizing before table fuel with
  | nil =>
      obtain ⟨before', key, behind, whole, _⟩ := found
      simp at whole
  | cons arg args ih =>
      obtain ⟨fuel, rfl⟩ : ∃ left, fuel = left + 1 :=
        ⟨fuel - 1, by rw [List.length_cons] at enough; omega⟩
      have count : (before ++ waiting (arg :: args)).length ≠ 1 := by
        rw [List.length_append, waiting, List.length_map]
        omega
      have turn := @MemcachedExec.execKeyContinue_waits
        { msg := m, keys := before ++ waiting (arg :: args), keyDone := before.length, table }
        (envs before.length) execKeyFetch before (waiting args) { key := arg.str } rfl rfl
      rcases Classical.em (HasValue (table arg.str)) with value | miss
      · obtain ⟨part, entry, handled⟩ := @execKey_touched m arg.str (envs before.length)
          (table arg.str) _ (works _) text count touching value
        simp only [MemcachedExec.keyCnt, handled] at turn
        cases args with
        | nil =>
            rw [MemcachedExec.skipKey_last (by simp [MemcachedExec.keyCnt, waiting])
              (by simpa [MemcachedExec.keyCnt, waiting] using several)] at turn
            refine ⟨_, MemcachedExec.runKeys_success rfl rfl turn, .inl ?_⟩
            have fails : memcachedStatusSuccess .errKv = false := rfl
            simp [fails]
        | cons next args =>
            rw [MemcachedExec.skipKey_fails (by simp [MemcachedExec.keyCnt, waiting]) rfl] at turn
            rw [MemcachedExec.runKeys_turn rfl rfl (List.cons_ne_nil _ _) turn,
              MemcachedExec.runKeys_idle]
            · refine ⟨_, rfl, .inr ⟨(envs before.length).failure, ?_⟩⟩
              simp [(works _).send, sendErr, text]
            · intro ctx member
              obtain ⟨ctx', _, rfl⟩ := List.mem_map.mp member
              rfl
            · simp [MemcachedExec.keyCnt, waiting]
            · simp [MemcachedExec.keyCnt, waiting]
            · simp only [List.length_cons] at enough
              simp only [MemcachedExec.keyCnt, waiting, List.length_map, List.length_append,
                List.length_cons]
              omega
      · obtain ⟨part, block, handled⟩ := @execKey_several m arg.str (envs before.length)
          (table arg.str) _ (works _) (touching.elim (fun gat => .inr (.inr (.inl gat)))
            fun gats => .inr (.inr (.inr gats))) text count fun _ => miss
        simp only [MemcachedExec.keyCnt, handled] at turn
        have later := (@found_cons m _ _ _ (envs before.length) touching miss).mp found
        cases args with
        | nil =>
            obtain ⟨before', key, behind, whole, _⟩ := later
            simp at whole
        | cons next args =>
            have rest := @ih
              (before ++ [{ key := arg.str, status := .ok, part := part.orElse fun _ => none }])
              (Function.update table arg.str
                (retrEntry m (envs before.length) (table arg.str))) fuel
              (by simp; omega) (by simp at enough ⊢; omega) later
            rw [List.length_append, List.append_assoc] at rest
            rw [MemcachedExec.skipKey_more (by simp [MemcachedExec.keyCnt, waiting]) rfl] at turn
            rw [MemcachedExec.runKeys_turn rfl rfl (List.cons_ne_nil _ _) turn]
            exact rest

/-- A failure is no reply of values. -/
theorem head_sendErrKv (failure : Bytes) : (sendErrKv failure).head? = some 83 := by
  simp [sendErrKv, sendString, Raids.text]

/-- The reply of values starts with a block or with the end line. -/
theorem head_blocks {blocks : List Bytes}
    (values : ∀ block ∈ blocks, block = [] ∨
      ∃ key flags data cas, block = formatValue key flags data cas false) :
    (blocks.flatten ++ endLine).head? = some 86 ∨ (blocks.flatten ++ endLine).head? = some 69 := by
  induction blocks with
  | nil => exact .inr rfl
  | cons block blocks ih =>
      rcases values block List.mem_cons_self with rfl | ⟨key, flags, data, cas, rfl⟩
      · exact ih fun block member => values block (List.mem_cons_of_mem _ member)
      · exact .inl rfl

/-- Several keys have their turns one after the other. -/
theorem respond_several {fetch : KeyFetch} {table : McTable} (keyed : m.keys ≠ [])
    (several : m.keys.length ≠ 1) :
    respond fetch server envs pending m table =
      (MemcachedExec.runKeys fetch envs (2 * m.keys.length) 0 0
        { msg := m, keys := waiting m.keys, keyDone := 0, table }).map
          fun s => (s.out, s.table) := by
  have count : (MemcachedExec.setup m table).keyCnt = m.keys.length := by
    rw [MemcachedExec.keyCnt, MemcachedExec.setup, List.length_map]
  rw [respond, if_pos (keycnt_pos keyed), MemcachedExec.execRunToCompletion, count,
    if_neg several]
  rfl

/-- A key with a value is found. -/
theorem found_of_mem {keys : List Bytes} {table : McTable} {key : Bytes} (member : key ∈ keys)
    (value : HasValue (table key)) : FindsValue keys table := by
  obtain ⟨before, behind, rfl⟩ := List.append_of_mem member
  obtain ⟨e, present, string⟩ := value
  exact ⟨before, key, behind, rfl, e, present, .inl string⟩

end Several

section Exact

variable {server : ServerTexts} {envs : Nat → KvEnv} {pending : Bytes} {m : MemcachedMsg}
  {table : McTable}

/-- A touch of several keys of which one has a value does not reply the values. -/
theorem not_multiRetrieves (works : ∀ i, (envs i).Works) (touching : m.command.Touching)
    (text : m.binary = false) (keyed : m.keys ≠ []) (several : m.keys.length ≠ 1)
    (found : FindsValue (m.keys.map (·.str)) table) :
    ¬MultiRetrieves server envs pending m table := by
  have positive := List.length_pos_of_ne_nil keyed
  intro retrieves
  obtain ⟨reply, after, replies, blocks, answer, _, _, whole, values, _⟩ := retrieves
  obtain ⟨s, run, out⟩ := @runKeys_touched envs m works touching text m.keys [] table
    (2 * m.keys.length) (by rw [List.length_nil]; omega) (by rw [List.length_nil]; omega) found
  rw [respond_several keyed several] at answer
  simp only [List.length_nil, List.nil_append] at run
  rw [run] at answer
  obtain ⟨rfl, _⟩ := Prod.mk.inj (Option.some.inj answer)
  have starts := head_blocks values
  rw [← whole] at starts
  rcases out with none | ⟨failure, sent⟩
  · rw [none] at starts
    simp at starts
  · rw [sent, head_sendErrKv] at starts
    simp at starts

/-- A retrieval of several keys is the retrieval of each key, unless it touches a key that has a
value. -/
theorem multiRetrieves_exact (works : ∀ i, (envs i).Works) (retrieval : m.command.Retrieval)
    (text : m.binary = false) (keyed : m.keys ≠ []) :
    MultiRetrieves server envs pending m table ↔
      (m.command.Touching → m.keys.length = 1 ∨ ¬FindsValue (m.keys.map (·.str)) table) := by
  have positive := List.length_pos_of_ne_nil keyed
  have singles := @singleReplies_eq server envs pending m works retrieval text
    (first_le keyed) 0 m.keys table
  constructor
  · intro retrieves touching
    by_contra fails
    rw [not_or, not_not] at fails
    exact not_multiRetrieves works touching text keyed fails.1 fails.2 retrieves
  · intro condition
    rcases Decidable.em (m.keys.length = 1) with one | several
    · obtain ⟨arg, only⟩ := List.length_eq_one_iff.mp one
      have answer := @respond_one server envs pending m arg table (works 0) retrieval text only
      refine ⟨_, _, _, _, answer, ?_, rfl, ?_,
        @retrievals_blocks envs m 0 m.keys table, ?_⟩
      · rw [singles, only]
        rfl
      · rw [only]
        simp [retrievals]
      · intro touching arg' member e present type
        rw [only, List.mem_singleton] at member
        rw [member] at present ⊢
        refine ⟨0, positive, ?_⟩
        rw [Function.update_self, present, retrEntry_value touching type]
    · have absent : m.command.Touching → ¬FindsValue (m.keys.map (·.str)) table :=
        fun touching => (condition touching).resolve_left several
      have run := @runKeys_retrievals envs m works retrieval text m.keys [] table
        (2 * m.keys.length) keyed (by rw [List.length_nil]; omega) (by omega) absent
      refine ⟨_, _, _, _, (respond_several keyed several).trans run, singles, rfl, ?_,
        @retrievals_blocks envs m 0 m.keys table, ?_⟩
      · simp
      · intro touching arg member e present type
        exact absurd (found_of_mem (List.mem_map_of_mem member) ⟨e, present, type⟩)
          (absent touching)

end Exact

/-- A request for the keys `a` and `b`. -/
def twoKeys (command : MemcachedCmd) : MemcachedMsg :=
  { MemcachedMsg.fresh with
    command, args := [⟨4, text "a"⟩, ⟨6, text "b"⟩], keycnt := 2, ttl := 5 }

/-- All keys have the value `v`. -/
def valueTable : McTable := fun _ => some { type := .string, data := text "v" }

def workingEnv : KvEnv := { currentStamp := 10 }

theorem workingEnv_works : workingEnv.Works := ⟨rfl, rfl, rfl, rfl, rfl, rfl⟩

/-- A `GET` of two keys with values replies both. -/
theorem multiRetrieves_exact_get :
    MultiRetrieves ⟨[], [], []⟩ (fun _ => workingEnv) [] (twoKeys .get) valueTable :=
  (multiRetrieves_exact (fun _ => workingEnv_works) (.inl rfl) rfl (by decide)).mpr
    fun touching => touching.elim (fun gat => absurd gat (by decide)) fun gats =>
      absurd gats (by decide)

/-- A `GAT` of two keys with values replies a failure. -/
theorem not_multiRetrieves_gat : ¬∀ server envs pending m table, (∀ i, (envs i).Works) →
    m.command.Retrieval → m.binary = false → m.keys ≠ [] →
      MultiRetrieves server envs pending m table := by
  intro retrieves
  have replied := retrieves ⟨[], [], []⟩ (fun _ => workingEnv) [] (twoKeys .gat) valueTable
    (fun _ => workingEnv_works) (.inr (.inr (.inl rfl))) rfl (by decide)
  have several : (twoKeys .gat).keys.length ≠ 1 := by decide
  have value : HasValue (valueTable (text "a")) := ⟨_, rfl, rfl⟩
  have found : FindsValue ((twoKeys .gat).keys.map (·.str)) valueTable := by
    apply found_of_mem _ value
    decide
  exact not_multiRetrieves (fun _ => workingEnv_works) (.inl rfl) rfl (by decide) several found
    replied

end Raids.Memcached
