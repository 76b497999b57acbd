import Mathlib.Data.List.Basic
import Mathlib.Data.Option.Basic

/-!
# Emitting and running instructions

A builder emits instructions one after the other and names the result of an
instruction by its number.  Running what a builder emits is the same as running
the builder itself, step by step: `run` is a morphism of monads (`run_bind`), so
a proof about emitted code needs no instruction list.
-/

namespace Cgir.Library

universe u v w

/--
A builder: from the number of instructions before it, a value and the
instructions that it emits.
-/
def Emission (Instr : Type u) (α : Type v) : Type max u v :=
  Nat → α × List Instr

namespace Emission

variable {Instr : Type u} {α β : Type v} {State : Type w}

instance : Monad (Emission Instr) where
  pure value := fun _ => (value, [])
  bind build next := fun number =>
    let (value, code) := build number
    let (result, rest) := next value (number + code.length)
    (result, code ++ rest)

/-- Emit one instruction; its number is the value. -/
def create (instr : Instr) : Emission Instr Nat :=
  fun number => (number, [instr])

/-- The emitted code, from the first instruction on. -/
def code (build : Emission Instr α) : List Instr :=
  (build 0).2

theorem pure_apply (value : α) (number : Nat) :
    (pure value : Emission Instr α) number = (value, []) :=
  rfl

theorem bind_apply (build : Emission Instr α) (next : α → Emission Instr β)
    (number : Nat) :
    (build >>= next) number =
      ((next (build number).1 (number + (build number).2.length)).1,
        (build number).2 ++
          (next (build number).1 (number + (build number).2.length)).2) :=
  rfl

instance : LawfulMonad (Emission Instr) := by
  refine LawfulMonad.mk' (Emission Instr) ?_ ?_ ?_
  · intro α build
    funext number
    show ((build number).1, (build number).2 ++ []) = build number
    rw [List.append_nil]
  · intro α β value next
    funext number
    simp [bind_apply, pure_apply]
  · intro α β γ build next last
    funext number
    simp [bind_apply, Nat.add_assoc]

/-- A loop that emits nothing. -/
theorem mapM_eq_pure {Item : Type*} {f : Item → Emission Instr α}
    {g : Item → α} {items : List Item}
    (silent : ∀ item ∈ items, f item = pure (g item)) :
    items.mapM f = pure (items.map g) := by
  induction items with
  | nil => rfl
  | cons item rest ih =>
      rw [List.mapM_cons, silent item List.mem_cons_self,
        ih fun other member => silent other (List.mem_cons_of_mem _ member)]
      simp

/-! ## Running -/

/-- Run instructions one after the other. -/
def exec (step : Instr → State → Option State) (code : List Instr)
    (state : State) : Option State :=
  code.foldlM (fun state instr => step instr state) state

theorem exec_append {step : Instr → State → Option State}
    (code rest : List Instr) (state : State) :
    exec step (code ++ rest) state =
      (exec step code state).bind (exec step rest) :=
  List.foldlM_append

theorem rel_mono {A B : Type*} {r r' : A → B → Prop} {first : Option A}
    {second : Option B} (related : Option.Rel r first second)
    (weaker : ∀ a b, r a b → r' a b) : Option.Rel r' first second := by
  cases related with
  | none => exact Option.Rel.none
  | some holds => exact Option.Rel.some (weaker _ _ holds)

theorem rel_map {A B C : Type*} {r : C → B → Prop} {f : A → C}
    {first : Option A} {second : Option B}
    (related : Option.Rel (fun a b => r (f a) b) first second) :
    Option.Rel r (first.map f) second := by
  cases related with
  | none => exact Option.Rel.none
  | some holds => exact Option.Rel.some holds

/-- Two computations in step with a third are in step with each other. -/
theorem rel_trans {A B C : Type*} {r : A → B → Prop} {r' : B → C → Prop}
    {both : A → C → Prop} {first : Option A} {second : Option B}
    {third : Option C} (one : Option.Rel r first second)
    (two : Option.Rel r' second third)
    (chain : ∀ a b c, r a b → r' b c → both a c) :
    Option.Rel both first third := by
  cases one with
  | none =>
      cases two with
      | none => exact Option.Rel.none
  | some holds =>
      cases two with
      | some holds' => exact Option.Rel.some (chain _ _ _ holds holds')

theorem map_eq_of_rel {A B : Type*} {f : A → B} {first : Option A}
    {second : Option B}
    (related : Option.Rel (fun a b => f a = b) first second) :
    first.map f = second := by
  cases related with
  | none => rfl
  | some holds => exact congrArg some holds

/-- A machine whose instructions each leave one result. -/
structure Machine (Instr : Type u) (State : Type w) where
  step : Instr → State → Option State
  results : State → Nat
  counted : ∀ {instr state after}, step instr state = some after →
    results after = results state + 1

namespace Machine

variable (machine : Machine Instr State)

/-- Run the instructions that a builder emits after the results of a state. -/
def run (build : Emission Instr α) (state : State) : Option (α × State) :=
  (exec machine.step (build (machine.results state)).2 state).map
    (Prod.mk (build (machine.results state)).1)

/-- Every instruction that has run has left a result. -/
theorem results_exec {code : List Instr} {state after : State}
    (ran : exec machine.step code state = some after) :
    machine.results after = machine.results state + code.length := by
  induction code generalizing state with
  | nil =>
      obtain rfl := Option.some.inj ran
      rfl
  | cons instr rest ih =>
      obtain ⟨middle, first, remaining⟩ := Option.bind_eq_some_iff.mp ran
      rw [ih remaining, machine.counted first, List.length_cons]
      omega

theorem run_pure (value : α) (state : State) :
    machine.run (pure value : Emission Instr α) state = some (value, state) :=
  rfl

/-- A created instruction runs, and is named by its number. -/
theorem run_create (instr : Instr) (state : State) :
    machine.run (create instr) state =
      (machine.step instr state).map (Prod.mk (machine.results state)) := by
  simp [run, create, exec]

/-- The code of two builders runs as one builder after the other. -/
theorem run_bind (build : Emission Instr α) (next : α → Emission Instr β)
    (state : State) :
    machine.run (build >>= next) state =
      (machine.run build state).bind fun ran =>
        machine.run (next ran.1) ran.2 := by
  rw [run, bind_apply, exec_append]
  cases ran : exec machine.step (build (machine.results state)).2 state with
  | none => simp [run, ran]
  | some after => simp [run, ran, machine.results_exec ran]

theorem run_map (build : Emission Instr α) (f : α → β) (state : State) :
    machine.run (f <$> build) state =
      (machine.run build state).map fun ran => (f ran.1, ran.2) := by
  rw [← bind_pure_comp, run_bind]
  cases machine.run build state <;> rfl

/-- The whole code of a builder runs as the builder does. -/
theorem exec_code (build : Emission Instr α) {state : State}
    (fresh : machine.results state = 0) :
    exec machine.step build.code state =
      (machine.run build state).map Prod.snd := by
  rw [code, run, fresh, Option.map_map]
  cases exec machine.step (build 0).2 state <;> rfl

/-! ## Loops -/

/--
A loop that collects values.  `Invariant` holds of the items that are done,
their values and the state; every item must run.
-/
theorem run_mapM {Item : Type*} {f : Item → Emission Instr α}
    {items : List Item} {state : State}
    (Invariant : List Item → List α → State → Prop)
    (start : Invariant [] [] state)
    (step : ∀ done item rest values state, items = done ++ item :: rest →
      Invariant done values state → ∃ value after,
        machine.run (f item) state = some (value, after) ∧
          Invariant (done ++ [item]) (values ++ [value]) after) :
    ∃ values after, machine.run (items.mapM f) state = some (values, after) ∧
      Invariant items values after := by
  suffices general : ∀ (rest done : List Item) (values : List α)
      (state : State), items = done ++ rest → Invariant done values state →
        ∃ more after, machine.run (rest.mapM f) state = some (more, after) ∧
          Invariant items (values ++ more) after by
    obtain ⟨values, after, ran, holds⟩ :=
      general items [] [] state rfl start
    exact ⟨values, after, ran, holds⟩
  intro rest
  induction rest with
  | nil =>
      intro done values state all holds
      rw [List.append_nil] at all
      subst all
      refine ⟨[], state, by rw [List.mapM_nil, run_pure], ?_⟩
      rw [List.append_nil]
      exact holds
  | cons item rest ih =>
      intro done values state all holds
      obtain ⟨value, middle, ranItem, holdsItem⟩ :=
        step done item rest values state all holds
      obtain ⟨more, after, ranRest, holdsRest⟩ :=
        ih (done ++ [item]) (values ++ [value]) middle (by simp [all])
          holdsItem
      refine ⟨value :: more, after, ?_, by simpa using holdsRest⟩
      rw [List.mapM_cons, run_bind, ranItem, Option.bind_some, run_bind,
        ranRest, Option.bind_some, run_pure]

theorem forM_eq_mapM {Item : Type*} (f : Item → Emission Instr PUnit)
    (items : List Item) :
    forM items f = (fun _ => PUnit.unit) <$> items.mapM f := by
  induction items with
  | nil => rfl
  | cons item rest ih => simp [ih]

/-- A loop whose items all run. -/
theorem run_forM {Item : Type*} {f : Item → Emission Instr PUnit}
    {items : List Item} {state : State}
    (Invariant : List Item → State → Prop) (start : Invariant [] state)
    (step : ∀ done item rest state, items = done ++ item :: rest →
      Invariant done state → ∃ after,
        machine.run (f item) state = some (PUnit.unit, after) ∧
          Invariant (done ++ [item]) after) :
    ∃ after, machine.run (forM items f) state = some (PUnit.unit, after) ∧
      Invariant items after := by
  obtain ⟨values, after, ran, holds⟩ := machine.run_mapM
    (fun done (_ : List PUnit) state => Invariant done state) start
    fun done item rest _ state all holds =>
      ⟨PUnit.unit, step done item rest state all holds⟩
  refine ⟨after, ?_, holds⟩
  rw [forM_eq_mapM, run_map, ran]
  rfl

/--
A loop that stays in step with another computation: every item keeps the
relation, and both loops end, or neither does.
-/
theorem run_forM_rel {Item Other : Type*} {f : Item → Emission Instr PUnit}
    {other : Other → Item → Option Other}
    (Related : List Item → State → Other → Prop) {items : List Item}
    (step : ∀ done item rest state otherState, items = done ++ item :: rest →
      Related done state otherState →
        Option.Rel (fun after otherAfter =>
            Related (done ++ [item]) after.2 otherAfter)
          (machine.run (f item) state) (other otherState item))
    {state : State} {otherState : Other} (start : Related [] state otherState) :
    Option.Rel (fun after otherAfter => Related items after.2 otherAfter)
      (machine.run (forM items f) state) (items.foldlM other otherState) := by
  suffices general : ∀ (rest done : List Item) (state : State)
      (otherState : Other), items = done ++ rest →
        Related done state otherState →
          Option.Rel (fun after otherAfter => Related items after.2 otherAfter)
            (machine.run (forM rest f) state)
            (rest.foldlM other otherState) from
    general items [] state otherState rfl start
  intro rest
  induction rest with
  | nil =>
      intro done state otherState all holds
      rw [List.append_nil] at all
      subst all
      exact Option.Rel.some holds
  | cons item rest ih =>
      intro done state otherState all holds
      have first := step done item rest state otherState all holds
      rw [List.forM_cons, run_bind, List.foldlM_cons]
      generalize machine.run (f item) state = ran at first ⊢
      generalize other otherState item = otherRan at first ⊢
      cases first with
      | none => exact Option.Rel.none
      | some holdsItem =>
          exact ih (done ++ [item]) _ _ (by simp [all]) holdsItem

end Machine

/-- Two loops over items that pair up do the same while an invariant holds. -/
theorem foldlM_agree {A B S : Type*} {f : S → A → Option S}
    {g : S → B → Option S} (Invariant : S → Prop) {first : List A}
    {second : List B} (length : first.length = second.length)
    (step : ∀ (k : Nat) a b state, first[k]? = some a → second[k]? = some b →
      Invariant state → f state a = g state b ∧
        ∀ after, g state b = some after → Invariant after)
    {state : S} (start : Invariant state) :
    first.foldlM f state = second.foldlM g state := by
  induction first generalizing second state with
  | nil =>
      obtain rfl := List.length_eq_zero_iff.mp length.symm
      rfl
  | cons a as ih =>
      cases second with
      | nil => exact (Nat.succ_ne_zero _ length).elim
      | cons b bs =>
          obtain ⟨same, kept⟩ := step 0 a b state rfl rfl start
          rw [List.foldlM_cons, List.foldlM_cons, same]
          cases ran : g state b with
          | none => rfl
          | some after =>
              exact ih (Nat.succ.inj length)
                (fun k => step (k + 1)) (kept after ran)

end Emission

end Cgir.Library
