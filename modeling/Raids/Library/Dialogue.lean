import Mathlib.Tactic

namespace Dialogue

/-- A program asks its machine until it has a reply. -/
inductive Program (Q A R : Type) where
  | done (reply : R)
  | ask (query : Q) (next : A → Program Q A R)

variable {σ τ Q A R : Type} {f : σ → Q → A × σ} {g : τ → Q → A × τ}

/-- The transcript of the talk comes with the reply and with the state of the machine. -/
def talk (answer : σ → Q → A × σ) : σ → Program Q A R → (List (Q × A) × R) × σ
  | s, .done reply => (([], reply), s)
  | s, .ask query next =>
      let (a, s) := answer s query
      let ((transcript, reply), s) := talk answer s (next a)
      (((query, a) :: transcript, reply), s)

theorem talk_ask (s : σ) (query : Q) (next : A → Program Q A R) :
    talk f s (.ask query next) =
      let rest := talk f (f s query).2 (next (f s query).1)
      (((query, (f s query).1) :: rest.1.1, rest.1.2), rest.2) := rfl

/-- Every query of the talk meets the property in the state before it. -/
def Throughout (answer : σ → Q → A × σ) (P : σ → Q → Prop) : σ → Program Q A R → Prop
  | _, .done _ => True
  | s, .ask query next =>
      P s query ∧ Throughout answer P (answer s query).2 (next (answer s query).1)

instance decidableThroughout (answer : σ → Q → A × σ) (P : σ → Q → Prop)
    [∀ s q, Decidable (P s q)] : (s : σ) → (program : Program Q A R) →
      Decidable (Throughout answer P s program)
  | _, .done _ => .isTrue trivial
  | s, .ask query next =>
      have := decidableThroughout answer P (answer s query).2 (next (answer s query).1)
      inferInstanceAs (Decidable (_ ∧ _))

/-- What the answers keep holds after the talk. -/
theorem talk_inv {Inv : σ → Prop} (keep : ∀ s q, Inv s → Inv (f s q).2) {s : σ} (start : Inv s)
    (program : Program Q A R) : Inv (talk f s program).2 := by
  induction program generalizing s with
  | done reply => exact start
  | ask query next ih => exact ih _ (keep s query start)

variable {Rel : σ → τ → Prop} {P : σ → Q → Prop}

/-- Two machines that agree on the good queries stay related over a talk of good queries. -/
theorem talk_simulate (equal : ∀ s t q, Rel s t → P s q → (f s q).1 = (g t q).1)
    (keep : ∀ s t q, Rel s t → P s q → Rel (f s q).2 (g t q).2) {s : σ} {t : τ}
    {program : Program Q A R} (start : Rel s t) (good : Throughout f P s program) :
    (talk f s program).1 = (talk g t program).1 ∧
      Rel (talk f s program).2 (talk g t program).2 := by
  induction program generalizing s t with
  | done reply => exact ⟨rfl, start⟩
  | ask query next ih =>
      have answer := equal s t query start good.1
      obtain ⟨same, related⟩ := ih _ (keep s t query start good.1) good.2
      rw [talk_ask, talk_ask, ← answer]
      exact ⟨by simp only [same], related⟩

/-- Where exactly the good queries have equal answers, exactly the talks of good queries have
equal transcripts. -/
theorem transcript_eq_iff (equal : ∀ s t q, Rel s t → ((f s q).1 = (g t q).1 ↔ P s q))
    (keep : ∀ s t q, Rel s t → P s q → Rel (f s q).2 (g t q).2) {s : σ} {t : τ}
    {program : Program Q A R} (start : Rel s t) :
    (talk f s program).1 = (talk g t program).1 ↔ Throughout f P s program := by
  constructor
  · intro same
    induction program generalizing s t with
    | done reply => trivial
    | ask query next ih =>
        rw [talk_ask, talk_ask] at same
        simp only [Prod.mk.injEq, List.cons.injEq, true_and] at same
        have good := (equal s t query start).mp same.1.1
        refine ⟨good, ih _ (keep s t query start good) ?_⟩
        rw [← same.1.1] at same
        exact Prod.ext same.1.2 same.2
  · exact fun good => (talk_simulate (fun s t q rel => (equal s t q rel).mpr) keep start good).1

end Dialogue
