import Raids.Construction.Stream.Write

namespace Raids

/-- The table finds the key, its value and the memory for the entry. -/
def StreamEnv.Granted (env : StreamEnv) : Prop :=
  env.fetched = true ∧ env.opened = true ∧ ∀ granted ∈ env.grow, granted = true

section Growth

variable {entries : List StreamEntry} {entry : StreamEntry} {grow : List Bool}

theorem streamRpush_granted (granted : ∀ grant ∈ grow, grant = true) :
    streamRpush entries entry grow = some (entries ++ [entry]) := by
  induction grow with
  | nil => rfl
  | cons grant grow ih =>
      rw [granted grant List.mem_cons_self]
      exact ih fun other member => granted other (List.mem_cons_of_mem _ member)

theorem streamRpush_refused (refused : ¬∀ grant ∈ grow, grant = true) :
    streamRpush entries entry grow = none := by
  induction grow with
  | nil => exact absurd (fun _ member => absurd member List.not_mem_nil) refused
  | cons grant grow ih =>
      cases grant with
      | false => rfl
      | true =>
          apply ih
          intro all
          apply refused
          simpa using all

end Growth

section Add

variable {lib : StreamData} {env : StreamEnv} {msg : CommandMsg} {key : StreamKey} {args : XaddArgs}

/-- An opened stream gets the entry unless its id is refused. -/
theorem execXadd_opened (parsed : xaddArgs msg = some args) (fetched : env.fetched = true)
    (opened : env.opened = true) (isStream : key.value ≠ .other) :
    execXadd lib env msg key = xaddEntry lib env key args := by
  obtain ⟨value, upd⟩ := key
  cases value with
  | other => exact absurd rfl isStream
  | missing => simp only [execXadd, parsed, getKeyWrite, fetched, opened, if_true]
  | stream entries => simp only [execXadd, parsed, getKeyWrite, fetched, opened, if_true]

/-- The entries behind a successful `XADD`. -/
def XaddArgs.added (args : XaddArgs) (entries : List StreamEntry) (idval : Bytes) :
    List StreamEntry :=
  let entries := entries ++ [⟨idval, args.fields⟩]
  if 0 < args.maxlen then streamLtrim args.maxlen entries else entries

theorem xaddPush_granted (granted : env.Granted) (idval : Bytes) (upd : UInt64) :
    xaddPush env key args idval upd =
      (.string idval, ⟨.stream (args.added key.value.entries idval), upd⟩) := by
  rw [xaddPush, streamRpush_granted granted.2.2]
  rfl

theorem xaddPush_refused (refused : ¬∀ grant ∈ env.grow, grant = true) (idval : Bytes)
    (upd : UInt64) :
    xaddPush env key args idval upd = (.status .errKvStatus, { key with upd := upd }) := by
  rw [xaddPush, streamRpush_refused refused]

theorem getKeyWrite_unfetched (unfetched : env.fetched = false) (value : StreamValue) :
    getKeyWrite env value = none := by
  cases value <;> simp [getKeyWrite, unfetched]

/-- Without its arguments or its memory the command fails and keeps the value. -/
theorem execXadd_refused (lib : StreamData)
    (refused : ¬(env.Granted ∧ key.value ≠ .other ∧ ∃ args, xaddArgs msg = some args)) :
    ∃ status : ExecStatus, (execXadd lib env msg key).1 = .status status ∧
      (execXadd lib env msg key).2.value = key.value := by
  cases parsed : xaddArgs msg with
  | none => exact ⟨.errBadArgs, by rw [execXadd, parsed], by rw [execXadd, parsed]⟩
  | some args =>
      cases fetched : env.fetched with
      | false =>
          have lost := getKeyWrite_unfetched fetched key.value
          exact ⟨.errKvStatus, by simp only [execXadd, parsed, lost],
            by simp only [execXadd, parsed, lost]⟩
      | true =>
          by_cases other : key.value = .other
          · refine ⟨.errBadType, ?_, ?_⟩ <;>
            simp only [execXadd, parsed, other, getKeyWrite, fetched, if_true]
          · cases opened : env.opened with
            | false =>
                refine ⟨.errKvStatus, ?_, ?_⟩ <;>
                cases value : key.value <;>
                simp_all [execXadd, getKeyWrite]
            | true =>
                have grows : ¬∀ grant ∈ env.grow, grant = true := fun all =>
                  refused ⟨⟨fetched, opened, all⟩, other, args, parsed⟩
                rw [execXadd_opened parsed fetched opened other, xaddEntry]
                cases xaddId lib env.clock key.upd key.value.entries args.id with
                | error status => exact ⟨status, rfl, rfl⟩
                | ok result =>
                    simp only [xaddPush_refused grows]
                    exact ⟨.errKvStatus, rfl, trivial⟩

end Add

section Remove

variable {lib : StreamData} {entries : List StreamEntry}

theorem streamLtrim_sublist (maxlen : Nat) : (streamLtrim maxlen entries).Sublist entries := by
  unfold streamLtrim
  split
  · exact List.drop_sublist _ _
  · exact List.Sublist.refl _

theorem xaddArgs_added_sublist (args : XaddArgs) (idval : Bytes) :
    (args.added entries idval).Sublist (entries ++ [⟨idval, args.fields⟩]) := by
  unfold XaddArgs.added
  split
  · exact streamLtrim_sublist _
  · exact List.Sublist.refl _

/-- The removed entries leave a sublist. -/
theorem xdelLoop_sublist (args : List (Option Bytes)) (ival : Nat) :
    (xdelLoop lib entries ival args).2.Sublist entries := by
  induction args generalizing entries ival with
  | nil => exact List.Sublist.refl _
  | cons arg args ih =>
      cases arg with
      | none => exact List.Sublist.refl _
      | some arg =>
          rw [xdelLoop]
          cases lib.bsearchEq entries arg with
          | none => exact ih _
          | some off =>
              simp only
              split
              · exact (ih _).trans (List.eraseIdx_sublist _ _)
              · exact ih _

theorem xdelLoop_silent (args : List (Option Bytes)) (ival : Nat) (idval : Bytes) :
    (xdelLoop lib entries ival args).1 ≠ .string idval := by
  induction args generalizing entries ival with
  | nil => simp [xdelLoop]
  | cons arg args ih =>
      cases arg with
      | none => simp [xdelLoop]
      | some arg =>
          rw [xdelLoop]
          cases lib.bsearchEq entries arg with
          | none => exact ih _
          | some off =>
              simp only
              split
              · exact ih _
              · exact ih _

/-- A command that adds nothing keeps some of the entries. -/
def OnlyRemoves (key : StreamKey) (result : StreamReply × StreamKey) : Prop :=
  (∀ idval, result.1 ≠ .string idval) ∧ result.2.value.entries.Sublist key.value.entries

theorem OnlyRemoves.same (key : StreamKey) {reply : StreamReply} (key' : StreamKey)
    (silent : ∀ idval, reply ≠ .string idval) (same : key'.value = key.value) :
    OnlyRemoves key (reply, key') :=
  ⟨silent, by rw [same]⟩

theorem execXtrim_removes (env : StreamEnv) (msg : CommandMsg) (key : StreamKey) :
    OnlyRemoves key (execXtrim env msg key) := by
  unfold execXtrim
  split
  · exact .same _ _ (by simp) rfl
  · split
    · exact .same _ _ (by simp) rfl
    · split
      · exact .same _ _ (by simp) rfl
      · split
        · exact .same _ _ (by simp) rfl
        · exact .same _ _ (by simp) rfl
        · split
          · exact ⟨by simp, streamLtrim_sublist _⟩
          · exact .same _ _ (by simp) rfl
        · exact .same _ _ (by simp) rfl

theorem execXdel_removes (env : StreamEnv) (msg : CommandMsg) (key : StreamKey) :
    OnlyRemoves key (execXdel lib env msg key) := by
  unfold execXdel
  split
  · exact .same _ _ (by simp) rfl
  · exact .same _ _ (by simp) rfl
  · split
    · exact .same _ _ (by simp) rfl
    · exact .same _ _ (by simp) rfl
    · split
      · exact ⟨xdelLoop_silent _ _, xdelLoop_sublist _ _⟩
      · exact .same _ _ (by simp) rfl
    · exact .same _ _ (by simp) rfl

end Remove

end Raids
