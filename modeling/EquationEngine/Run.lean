import EquationEngine.Record

/-!
What a computation leaves behind besides its answer.

Simplifying and solving are pure. They return, together with an answer or an error, the list of
things worth reporting and whether the configured iteration limit was asked for. Who sees a
report, and at which level of detail, is decided elsewhere, so a report can never change an
answer.
-/

namespace EquationEngine

/-- What happens during a computation; expressions are kept as written. -/
inductive Event where
  /-- A simplification loop found nothing more to change. -/
  | fixedPoint (iterations : Nat)
  /-- A simplification loop used up its iterations. -/
  | iterationsExhausted (limit : Int)
  /-- A simplification was started anew on a collapsed tree too often. -/
  | restartsExhausted (limit : Nat)
  /-- The variable stands on both sides, and the difference of the sides is solved. -/
  | bothSides (left right : String)
  /-- One operator was moved from one side to the other. -/
  | inverted (main other newMain newOther : String)
  /-- An even power was replaced by its two roots. -/
  | evenRoot (main other base root : String)
  | solved (equation name result : String)
  deriving DecidableEq, Repr

namespace Event

/-- The record by which an event is reported. -/
def record : Event → Record
  | fixedPoint n =>
    .debug ("simplify reached a fixed point after " ++ toString n ++ " iteration(s)")
  | iterationsExhausted limit =>
    .warning ("simplify stopped after " ++ toString limit
      ++ " iterations without reaching a fixed point")
  | restartsExhausted limit =>
    .warning ("simplify stopped after " ++ toString limit
      ++ " restarts without reaching a fixed point")
  | bothSides left right =>
    .step (left ++ " = " ++ right ++ ": variable on both sides, solving difference = 0")
  | inverted main other newMain newOther =>
    .step (main ++ " = " ++ other ++ "  =>  " ++ newMain ++ " = " ++ newOther)
  | evenRoot main other base root =>
    .step (main ++ " = " ++ other ++ "  =>  " ++ base ++ " = ±" ++ root)
  | solved equation name result =>
    .info .moderate ("solve " ++ equation ++ " for " ++ name ++ ": " ++ result)

/-- Whether an event says that a simplification stopped at a bound. -/
def isBound : Event → Bool
  | iterationsExhausted _ | restartsExhausted _ => true
  | _ => false

end Event

/-- A finished computation. -/
structure Run (β : Type) where
  /-- Whether the configured iteration limit was asked for. -/
  consulted : Bool
  /-- The events in the order in which they happened. -/
  events : List Event
  outcome : Except Error β

namespace Run

variable {β γ : Type}

/-- A computation in which nothing happens. -/
def lift (outcome : Except Error β) : Run β := ⟨false, [], outcome⟩

/-- A computation followed by one that depends on its answer. -/
def andThen (r : Run β) (next : β → Run γ) : Run γ :=
  match r.outcome with
  | .error e => ⟨r.consulted, r.events, .error e⟩
  | .ok b =>
    let s := next b
    ⟨r.consulted || s.consulted, r.events ++ s.events, s.outcome⟩

instance : Monad Run where
  pure b := lift (.ok b)
  bind := andThen

theorem andThen_assoc {δ : Type} (r : Run β) (f : β → Run γ) (g : γ → Run δ) :
    (r.andThen f).andThen g = r.andThen fun b => (f b).andThen g := by
  obtain ⟨consulted, events, outcome⟩ := r
  cases outcome with
  | error e => rfl
  | ok b =>
    simp only [andThen]
    cases (f b).outcome <;> simp [Bool.or_assoc]

theorem andThen_lift (r : Run β) : r.andThen (fun b => lift (.ok b)) = r := by
  obtain ⟨consulted, events, outcome⟩ := r
  cases outcome <;> simp [andThen, lift]

theorem lift_andThen (b : β) (f : β → Run γ) : (lift (.ok b)).andThen f = f b := by
  simp [andThen, lift]

instance : LawfulMonad Run :=
  LawfulMonad.mk' Run (fun r => andThen_lift r) (fun b f => lift_andThen b f)
    (fun r f g => andThen_assoc r f g)

/-- The computation that only reports an event. -/
def emit (e : Event) : Run Unit := ⟨false, [e], .ok ()⟩

/-- The computation that only asks for the configured iteration limit. -/
def consult : Run Unit := ⟨true, [], .ok ()⟩

def fail (e : Error) : Run β := lift (.error e)

/-- Whether some simplification of a computation stopped at a bound. -/
def hitBound (r : Run β) : Bool := r.events.any Event.isBound

end Run

end EquationEngine
