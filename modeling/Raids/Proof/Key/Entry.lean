import Raids.Construction.Key.Entry

namespace Raids.Key

variable {D : Type} {env : KeyEnv}

/-- A table that works finds the live entries. -/
theorem execKeyFetch_works (works : env.Works) (readOnly : Bool) (entry : Option (Entry D)) :
    execKeyFetch env readOnly entry =
      match live env entry with
      | some e => ⟨some .keyOk, some e, false, e.type⟩
      | none =>
          if readOnly then ⟨some .keyNotFound, none, false, .noData⟩
          else ⟨some .keyIsNew, none, true, .noData⟩ := by
  cases found : live env entry <;> simp [execKeyFetch, works.fetched, found]

/-- The write of a key that is fetched meets a new entry, a value of the type, or another type. -/
theorem getKeyWrite_fetched (fetched : env.fetched) (type : MdType) (entry : Option (Entry D)) :
    getKeyWrite env type entry =
      match live env entry with
      | none => ⟨some .keyIsNew, none, true, .noData⟩
      | some e =>
          if e.type = type then ⟨some .keyOk, some e, false, e.type⟩
          else if e.type = .noData then ⟨some .keyIsNew, some e, true, .noData⟩
          else ⟨some .keyNoValue, some e, false, e.type⟩ := by
  rw [getKeyWrite, execKeyFetch, if_pos fetched]
  cases live env entry with
  | none => rfl
  | some e =>
      by_cases same : e.type = type
      · simp [same]
      · by_cases untyped : e.type = .noData
        · simp [untyped, untyped ▸ same]
        · simp [same, untyped]

theorem getKeyWrite_works (works : env.Works) (type : MdType) (entry : Option (Entry D)) :
    getKeyWrite env type entry =
      match live env entry with
      | none => ⟨some .keyIsNew, none, true, .noData⟩
      | some e =>
          if e.type = type then ⟨some .keyOk, some e, false, e.type⟩
          else if e.type = .noData then ⟨some .keyIsNew, some e, true, .noData⟩
          else ⟨some .keyNoValue, some e, false, e.type⟩ :=
  getKeyWrite_fetched works.fetched type entry

/-- The read of a key meets no entry, a value of the type, or another type. -/
theorem getKeyRead_works (works : env.Works) (type : MdType) (entry : Option (Entry D)) :
    getKeyRead env type entry =
      match live env entry with
      | none => ⟨some .keyNotFound, none, false, .noData⟩
      | some e =>
          if e.type = type then ⟨some .keyOk, some e, false, e.type⟩
          else if e.type = .noData then ⟨some .keyNotFound, some e, false, .noData⟩
          else ⟨some .keyNoValue, some e, false, e.type⟩ := by
  rw [getKeyRead, execKeyFetch_works works]
  cases live env entry with
  | none => rfl
  | some e =>
      by_cases same : e.type = type
      · simp [same]
      · by_cases untyped : e.type = .noData
        · simp [untyped, untyped ▸ same]
        · simp [same, untyped]

/-- Only a success sets the type of a new entry. -/
theorem KeyRun.settle_of_fails {run : KeyRun D} (fails : run.status.isSuccess = false)
    (catg : MdType) : run.settle catg = run.entry := by
  rw [KeyRun.settle, if_neg]
  rw [fails]
  exact fun settles => absurd settles.2.1 (by decide)

/-- An error never changes the type of its key. -/
theorem KeyRun.settle_of_isError {run : KeyRun D} (error : run.status.isError) (catg : MdType) :
    run.settle catg = run.entry := by
  have failed : ∀ status : ExecStatus, status.isError → status.isSuccess = false := by
    intro status
    cases status <;> decide
  exact KeyRun.settle_of_fails (failed _ error) catg

/-- A key that was there keeps its type. -/
theorem KeyRun.settle_of_not_isNew {run : KeyRun D} (old : run.isNew = false) (catg : MdType) :
    run.settle catg = run.entry := by
  rw [KeyRun.settle, if_neg]
  rw [old]
  exact fun settled => absurd settled.2.2.2 (by decide)

/-- A value that is written over an entry is live. -/
theorem live_written (forever : env.isExpired 0 = false) {entry : Option (Entry D)}
    (unexpired : ∀ e, entry = some e → env.isExpired e.exp = false) (data : D)
    (type : MdType) :
    ∃ e, live env (some { Entry.write entry data with type := type }) = some e ∧ e.type = type ∧
      e.data = data := by
  refine ⟨{ Entry.write entry data with type := type }, Option.filter_some_pos ?_, rfl, ?_⟩
  · cases found : entry with
    | none =>
        rw [Entry.write, forever]
        rfl
    | some e =>
        rw [Entry.write, unexpired e found]
        rfl
  · cases entry with
    | none => rfl
    | some e => rfl

/-- A live entry is not expired. -/
theorem unexpired_of_live {entry : Option (Entry D)} {e : Entry D}
    (isLive : live env entry = some e) : env.isExpired e.exp = false := by
  rw [live, Option.filter_eq_some_iff] at isLive
  simpa using isLive.2

end Raids.Key
