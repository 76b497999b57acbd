/-!
# Runs

Runs of a labelled transition system that takes allowed actions only, and the
invariants of such runs.
-/

namespace Cgir.Library

variable {State Action : Type}

/-- The states that allowed actions reach. -/
inductive Run (step : State → Action → State → Prop)
    (allowed : State → Action → Prop) (initial : State) : State → Prop
  | start : Run step allowed initial initial
  | next {before after : State} (action : Action)
      (reached : Run step allowed initial before)
      (permitted : allowed before action)
      (taken : step before action after) : Run step allowed initial after

namespace Run

variable {step : State → Action → State → Prop}
  {allowed : State → Action → Prop} {initial final : State}

/-- What every allowed step keeps holds in every state reached. -/
theorem invariant {holds : State → Prop} (run : Run step allowed initial final)
    (initially : holds initial)
    (keeps : ∀ {before action after}, holds before → allowed before action →
      step before action after → holds after) : holds final := by
  induction run with
  | start => exact initially
  | next action _ permitted taken ih => exact keeps ih permitted taken

end Run

/-- The steps of a run, each with the states before and after it. -/
inductive Trace (step : State → Action → State → Prop) :
    State → List (State × Action × State) → Prop
  | nil (initial : State) : Trace step initial []
  | cons {before after : State} {action : Action}
      {later : List (State × Action × State)}
      (taken : step before action after) (trace : Trace step after later) :
      Trace step before ((before, action, after) :: later)

/-- What every step keeps holds before every step of a run. -/
theorem Trace.invariant {step : State → Action → State → Prop}
    {initial : State} {steps : List (State × Action × State)}
    {holds : State → Prop} (trace : Trace step initial steps)
    (initially : holds initial)
    (keeps : ∀ {before action after}, holds before →
      step before action after → holds after) :
    ∀ before action after, (before, action, after) ∈ steps →
      holds before ∧ step before action after := by
  induction trace with
  | nil => exact fun _ _ _ member => (List.not_mem_nil member).elim
  | cons taken _ induction =>
      intro before action after member
      rcases List.mem_cons.mp member with isFirst | inLater
      · cases isFirst
        exact ⟨initially, taken⟩
      · exact induction (keeps initially taken) before action after inLater

end Cgir.Library
