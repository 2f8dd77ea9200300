import EquationEngine.Run

/-!
How the outcome of a computation, and whether it stopped at a bound, follow from its parts.

`r.Completes b` says that `r` answers with `b` and that no simplification inside it was cut short.
A computation made of two completes exactly when both do, so a statement about completed runs is
taken apart along the program text.
-/

namespace EquationEngine

variable {β γ : Type}

/-- Two steps, each of which may fail, succeed exactly when both do. -/
theorem bind_eq_ok {r : Except Error β} {f : β → Except Error γ} {c : γ} :
    (r >>= f) = .ok c ↔ ∃ b, r = .ok b ∧ f b = .ok c := by
  cases r with
  | error e => simp [bind, Except.bind]
  | ok b => simp [bind, Except.bind]

/-- Two steps fail where the first of them does, or the second after it. -/
theorem bind_eq_error {r : Except Error β} {f : β → Except Error γ} {err : Error} :
    (r >>= f) = .error err ↔ r = .error err ∨ ∃ b, r = .ok b ∧ f b = .error err := by
  cases r with
  | error e => simp [bind, Except.bind]
  | ok b => simp [bind, Except.bind]

namespace Run

/-- The computation answers with `b`, and nothing in it stopped at a bound. -/
def Completes (r : Run β) (b : β) : Prop := r.outcome = .ok b ∧ r.hitBound = false

@[simp] theorem outcome_pure (b : β) : (pure b : Run β).outcome = .ok b := rfl

@[simp] theorem outcome_lift (a : Except Error β) : (lift a).outcome = a := rfl

@[simp] theorem outcome_emit (e : Event) : (emit e).outcome = .ok () := rfl

@[simp] theorem outcome_consult : consult.outcome = .ok () := rfl

@[simp] theorem outcome_fail (e : Error) : (fail e : Run β).outcome = .error e := rfl

theorem outcome_bind_of_ok {r : Run β} {b : β} (h : r.outcome = .ok b) (f : β → Run γ) :
    (r >>= f).outcome = (f b).outcome := by
  show (r.andThen f).outcome = _
  rw [andThen, h]

theorem outcome_bind {r : Run β} {f : β → Run γ} {c : γ} :
    (r >>= f).outcome = .ok c ↔ ∃ b, r.outcome = .ok b ∧ (f b).outcome = .ok c := by
  cases h : r.outcome with
  | ok b => simp [outcome_bind_of_ok h]
  | error e =>
      show (r.andThen f).outcome = _ ↔ _
      simp [andThen, h]

theorem outcome_bind_error {r : Run β} {f : β → Run γ} {err : Error} :
    (r >>= f).outcome = .error err ↔
      r.outcome = .error err ∨ ∃ b, r.outcome = .ok b ∧ (f b).outcome = .error err := by
  cases h : r.outcome with
  | ok b => simp [outcome_bind_of_ok h]
  | error e =>
      show (r.andThen f).outcome = _ ↔ _
      simp [andThen, h]

theorem hitBound_bind_of_ok {r : Run β} {b : β} (h : r.outcome = .ok b) (f : β → Run γ) :
    (r >>= f).hitBound = (r.hitBound || (f b).hitBound) := by
  show (r.andThen f).hitBound = _
  simp [andThen, h, hitBound]

@[simp] theorem completes_pure {a b : β} : (pure a : Run β).Completes b ↔ a = b := by
  show Except.ok a = .ok b ∧ _ ↔ _
  simp [hitBound, pure, lift]

@[simp] theorem completes_lift {a : Except Error β} {b : β} :
    (lift a).Completes b ↔ a = .ok b := by
  simp [Completes, hitBound, lift]

@[simp] theorem completes_emit {e : Event} {u : Unit} :
    (emit e).Completes u ↔ e.isBound = false := by
  simp [Completes, hitBound, emit]

@[simp] theorem completes_consult {u : Unit} : consult.Completes u := ⟨rfl, rfl⟩

@[simp] theorem not_completes_fail {e : Error} {b : β} : ¬(fail e : Run β).Completes b := by
  simp [Completes]

/-- A computation made of two completes exactly when both of them do. -/
theorem completes_bind {r : Run β} {f : β → Run γ} {c : γ} :
    (r >>= f).Completes c ↔ ∃ b, r.Completes b ∧ (f b).Completes c := by
  constructor
  · rintro ⟨hout, hbound⟩
    obtain ⟨b, hb, hc⟩ := outcome_bind.1 hout
    rw [hitBound_bind_of_ok hb, Bool.or_eq_false_iff] at hbound
    exact ⟨b, ⟨hb, hbound.1⟩, hc, hbound.2⟩
  · rintro ⟨b, ⟨hb, hr⟩, hc, hf⟩
    refine ⟨outcome_bind.2 ⟨b, hb, hc⟩, ?_⟩
    rw [hitBound_bind_of_ok hb, hr, hf, Bool.or_false]

/-- The computation ends in an answer with the property `P`, or in an error with the property `E`.
-/
def Ends (r : Run β) (P : β → Prop) (E : Error → Prop) : Prop :=
  (∀ b, r.outcome = .ok b → P b) ∧ ∀ err, r.outcome = .error err → E err

namespace Ends

variable {P : β → Prop} {Q : γ → Prop} {E F : Error → Prop} {r : Run β}

theorem pure {b : β} (h : P b) : (Pure.pure b : Run β).Ends P E :=
  ⟨by rintro _ ⟨⟩; exact h, nofun⟩

theorem fail {err : Error} (h : E err) : (Run.fail err : Run β).Ends P E :=
  ⟨nofun, by rintro _ ⟨⟩; exact h⟩

theorem lift {a : Except Error β} (hok : ∀ b, a = .ok b → P b)
    (herror : ∀ err, a = .error err → E err) : (Run.lift a).Ends P E :=
  ⟨hok, herror⟩

/-- What the first of two computations ends in is what the second may rely on. -/
theorem bind {f : β → Run γ} (h : r.Ends P E) (hf : ∀ b, P b → (f b).Ends Q E) :
    (r >>= f).Ends Q E := by
  constructor
  · intro c hc
    obtain ⟨b, hb, hc⟩ := outcome_bind.1 hc
    exact (hf b (h.1 b hb)).1 c hc
  · intro err herr
    obtain herr | ⟨b, hb, herr⟩ := outcome_bind_error.1 herr
    · exact h.2 err herr
    · exact (hf b (h.1 b hb)).2 err herr

/-- A report has no part in how a computation ends. -/
theorem emit {e : Event} {f : Unit → Run γ} (h : (f ()).Ends Q E) :
    (Run.emit e >>= f).Ends Q E :=
  bind (P := fun _ => True) ⟨fun _ _ => trivial, nofun⟩ fun _ _ => h

theorem imp {P' : β → Prop} (h : r.Ends P E) (hP : ∀ b, P b → P' b) (hE : ∀ err, E err → F err) :
    r.Ends P' F :=
  ⟨fun b hb => hP b (h.1 b hb), fun err herr => hE err (h.2 err herr)⟩

end Ends

end Run

end EquationEngine
