import Mathlib.Data.List.Basic

/-!
# Loops over lists

Invariants of loops that fold a list, with or without failure.  An invariant
may mention the part of the list that is done.
-/

namespace Cgir.Library.Loop

variable {Item State : Type}

/-- What every iteration of a failing loop keeps holds when the loop returns. -/
theorem foldlM_invariant (step : State → Item → Option State)
    (invariant : List Item → State → Prop) (list : List Item)
    (start : State)
    (keeps : ∀ done item rest state, list = done ++ item :: rest →
      invariant done state →
        ∃ after, step state item = some after ∧
          invariant (done ++ [item]) after)
    (initially : invariant [] start) :
    ∃ final, list.foldlM step start = some final ∧ invariant list final := by
  have continued :
      ∀ rest done state, list = done ++ rest → invariant done state →
        ∃ final, rest.foldlM step state = some final ∧
          invariant list final := by
    intro rest
    induction rest with
    | nil =>
        intro done state split holds
        rw [List.append_nil] at split
        exact ⟨state, rfl, split ▸ holds⟩
    | cons item rest induction =>
        intro done state split holds
        obtain ⟨after, ran, kept⟩ := keeps done item rest state split holds
        obtain ⟨final, rest_ran, final_holds⟩ :=
          induction (done ++ [item]) after (by simp [split]) kept
        refine ⟨final, ?_, final_holds⟩
        rw [List.foldlM_cons, ran]
        exact rest_ran
  exact continued list [] start rfl initially

/-- What every iteration that returns keeps holds if the loop returns. -/
theorem foldlM_some_invariant {step : State → Item → Option State}
    (invariant : List Item → State → Prop) {list : List Item}
    {start final : State} (ran : list.foldlM step start = some final)
    (keeps : ∀ done item rest state after, list = done ++ item :: rest →
      invariant done state → step state item = some after →
        invariant (done ++ [item]) after)
    (initially : invariant [] start) : invariant list final := by
  have continued :
      ∀ rest done state, list = done ++ rest → invariant done state →
        rest.foldlM step state = some final → invariant list final := by
    intro rest
    induction rest with
    | nil =>
        intro done state split holds ran
        rw [List.append_nil] at split
        cases ran
        exact split ▸ holds
    | cons item rest induction =>
        intro done state split holds ran
        rw [List.foldlM_cons] at ran
        obtain ⟨after, stepped, ran⟩ := Option.bind_eq_some_iff.mp ran
        exact
          induction (done ++ [item]) after (by simp [split])
            (keeps done item rest state after split holds stepped) ran
  exact continued list [] start rfl initially ran

/-- What every iteration of a loop keeps holds at its end. -/
theorem foldl_invariant (step : State → Item → State)
    (invariant : List Item → State → Prop) (list : List Item)
    (start : State)
    (keeps : ∀ done item rest state, list = done ++ item :: rest →
      invariant done state → invariant (done ++ [item]) (step state item))
    (initially : invariant [] start) :
    invariant list (list.foldl step start) := by
  have continued :
      ∀ rest done state, list = done ++ rest → invariant done state →
        invariant list (rest.foldl step state) := by
    intro rest
    induction rest with
    | nil =>
        intro done state split holds
        rw [List.append_nil] at split
        exact split ▸ holds
    | cons item rest induction =>
        intro done state split holds
        apply induction (done ++ [item])
        · simp [split]
        · exact keeps done item rest state split holds
  exact continued list [] start rfl initially

/-- A loop whose iterations only fail or continue as another loop is that loop. -/
theorem foldl_of_foldlM {step : State → Item → Option State}
    {next : State → Item → State} {list : List Item} {start final : State}
    (each : ∀ state item after,
      step state item = some after → after = next state item)
    (ran : list.foldlM step start = some final) :
    final = list.foldl next start := by
  induction list generalizing start with
  | nil => exact (Option.some.inj ran).symm
  | cons item rest induction =>
      rw [List.foldlM_cons] at ran
      obtain ⟨after, stepped, continued⟩ := Option.bind_eq_some_iff.mp ran
      rw [List.foldl_cons, ← each start item after stepped]
      exact induction continued

/-- A loop commutes with a map of states that each of its iterations commutes with. -/
theorem foldlM_commutes {step : State → Item → Option State}
    (through : State → State) (invariant : State → Prop) {list : List Item}
    (each : ∀ item ∈ list, ∀ state, invariant state →
      step (through state) item = (step state item).map through)
    (keeps : ∀ state item after, invariant state →
      step state item = some after → invariant after)
    {start : State} (initially : invariant start) :
    list.foldlM step (through start) =
      (list.foldlM step start).map through := by
  induction list generalizing start with
  | nil => rfl
  | cons item rest induction =>
      rw [List.foldlM_cons, List.foldlM_cons,
        each item List.mem_cons_self start initially]
      cases stepped : step start item with
      | none => rfl
      | some after =>
          exact
            induction
              (fun other member => each other (List.mem_cons_of_mem _ member))
              (keeps start item after initially stepped)

/-- A loop that fails on a bad item returns when no item is bad. -/
theorem foldlM_guard_eq_some_iff {step : State → Item → State}
    {good : Item → Prop} [DecidablePred good] {list : List Item}
    {start final : State} :
    list.foldlM
        (fun state item => if good item then some (step state item) else none)
        start = some final ↔
      (∀ item ∈ list, good item) ∧ list.foldl step start = final := by
  induction list generalizing start with
  | nil => simp
  | cons item rest induction =>
      rw [List.foldlM_cons, List.foldl_cons, List.forall_mem_cons]
      by_cases isGood : good item
      · rw [if_pos isGood, and_iff_right isGood]
        exact induction
      · simp [isGood]

/-- A search that returns on every item returns. -/
theorem anyM_eq_some {check : Item → Option Bool} {value : Item → Bool}
    {list : List Item} (each : ∀ item ∈ list, check item = some (value item)) :
    list.anyM check = some (list.any value) := by
  induction list with
  | nil => rfl
  | cons item rest induction =>
      rw [List.anyM, each item List.mem_cons_self]
      cases first : value item with
      | true => simp [first]
      | false =>
          simpa [first] using
            induction fun other member =>
              each other (List.mem_cons_of_mem _ member)

/-- A mapping that may fail returns when it succeeds on every item. -/
theorem mapM_eq_some_iff {Result : Type} {f : Item → Option Result}
    {items : List Item} {results : List Result} :
    items.mapM f = some results ↔ items.map f = results.map some := by
  induction items generalizing results with
  | nil => cases results <;> simp
  | cons item rest induction =>
      rw [List.mapM_cons, List.map_cons]
      cases first : f item with
      | none => cases results <;> simp
      | some result =>
          cases results with
          | nil => cases rest.mapM f <;> simp
          | cons result' results =>
              rw [List.map_cons, List.cons.injEq, Option.some.injEq,
                ← induction]
              cases rest.mapM f <;> simp

/-- The result for one item. -/
theorem mapM_getElem? {Result : Type} {f : Item → Option Result}
    {items : List Item} {results : List Result}
    (mapped : items.mapM f = some results) (i : Nat) :
    (items[i]?).map f = (results[i]?).map some := by
  rw [← List.getElem?_map, ← List.getElem?_map,
    mapM_eq_some_iff.mp mapped]

end Cgir.Library.Loop
