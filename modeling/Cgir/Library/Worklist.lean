import Mathlib.Data.List.Perm.Basic
import Mathlib.Logic.Relation

/-!
# Work queues

A loop takes an item from a queue, works on it, and puts it back when the work
changed the state; an item that changes nothing is dropped.  The order of the
queue is left open.

Dropped items are not looked at again.  When the loop ends nothing is pending
all the same, if work on an item makes only pairs with this item pending, and an
item that changes nothing is in no pending pair (`settled`).
-/

namespace Cgir.Library.Worklist

open Relation

variable {State Item : Type}

/-- One iteration, on any item of the queue. -/
inductive Step (work : State → Item → Option State) :
    State × List Item → State × List Item → Prop where
  | drop {state : State} {queue rest : List Item} {item : Item}
      (taken : queue.Perm (item :: rest)) (idle : work state item = none) :
      Step work (state, queue) (state, rest)
  | requeue {state after : State} {queue rest again : List Item} {item : Item}
      (taken : queue.Perm (item :: rest))
      (worked : work state item = some after)
      (back : again.Perm (item :: rest)) :
      Step work (state, queue) (after, again)

/-- What the work on an item may do to the state and to the pending pairs. -/
structure Lawful (work : State → Item → Option State)
    (invariant : State → Prop) (known : Item → Prop) (size : State → Nat)
    (pending : State → Item → Item → Prop) : Prop where
  keeps : ∀ state item after, invariant state → known item →
    work state item = some after → invariant after
  smaller : ∀ state item after, invariant state → known item →
    work state item = some after → size after < size state
  idle : ∀ state item, invariant state → known item →
    work state item = none → ∀ other,
      ¬ pending state item other ∧ ¬ pending state other item
  others : ∀ state item after, invariant state → known item →
    work state item = some after → ∀ first second,
      first ≠ item → second ≠ item → pending after first second →
        pending state first second

/-- The queue holds an item of every pending pair. -/
structure Covered (invariant : State → Prop) (known : Item → Prop)
    (pending : State → Item → Item → Prop) (config : State × List Item) :
    Prop where
  holds : invariant config.1
  listed : ∀ item ∈ config.2, known item
  covers : ∀ first second, pending config.1 first second →
    first ∈ config.2 ∨ second ∈ config.2

/-- What stays in the queue covers the pairs without the item that was taken. -/
theorem mem_rest {queue rest : List Item} {item first second : Item}
    (taken : queue.Perm (item :: rest)) (firstNe : first ≠ item)
    (secondNe : second ≠ item) (covers : first ∈ queue ∨ second ∈ queue) :
    first ∈ rest ∨ second ∈ rest := by
  rcases covers with member | member
  · exact
      Or.inl ((List.mem_cons.mp (taken.mem_iff.mp member)).resolve_left firstNe)
  · exact
      Or.inr
        ((List.mem_cons.mp (taken.mem_iff.mp member)).resolve_left secondNe)

variable {work : State → Item → Option State} {invariant : State → Prop}
  {known : Item → Prop} {size : State → Nat}
  {pending : State → Item → Item → Prop}
  (lawful : Lawful work invariant known size pending)

include lawful

/-- An iteration keeps the pending pairs covered. -/
theorem Covered.step {before after : State × List Item}
    (covered : Covered invariant known pending before)
    (step : Step work before after) :
    Covered invariant known pending after := by
  obtain ⟨holds, listed, covers⟩ := covered
  cases step with
  | @drop state queue rest item taken idle =>
      have itemKnown := listed item (taken.mem_iff.mpr List.mem_cons_self)
      have settled := lawful.idle state item holds itemKnown idle
      refine ⟨holds, ?_, ?_⟩
      · intro other member
        exact listed other (taken.mem_iff.mpr (List.mem_cons_of_mem _ member))
      · intro first second isPending
        apply mem_rest taken _ _ (covers first second isPending)
        · rintro rfl
          exact (settled second).1 isPending
        · rintro rfl
          exact (settled first).2 isPending
  | @requeue state last queue rest again item taken worked back =>
      have itemKnown := listed item (taken.mem_iff.mpr List.mem_cons_self)
      refine
        ⟨lawful.keeps state item last holds itemKnown worked, ?_, ?_⟩
      · intro other member
        exact listed other (taken.mem_iff.mpr (back.mem_iff.mp member))
      · intro first second isPending
        have queued : item ∈ again := back.mem_iff.mpr List.mem_cons_self
        by_cases isFirst : first = item
        · exact Or.inl (isFirst ▸ queued)
        · by_cases isSecond : second = item
          · exact Or.inr (isSecond ▸ queued)
          · have before :=
              lawful.others state item last holds itemKnown worked first
                second isFirst isSecond isPending
            exact
              (mem_rest taken isFirst isSecond
                (covers first second before)).imp
                (fun member =>
                  back.mem_iff.mpr (List.mem_cons_of_mem _ member))
                fun member =>
                  back.mem_iff.mpr (List.mem_cons_of_mem _ member)

/-- So does a run. -/
theorem Covered.run {before after : State × List Item}
    (covered : Covered invariant known pending before)
    (run : ReflTransGen (Step work) before after) :
    Covered invariant known pending after := by
  induction run with
  | refl => exact covered
  | tail _ step induction => exact induction.step lawful step

/-- An iteration shortens the queue or makes the state smaller. -/
theorem Covered.decreases {before after : State × List Item}
    (covered : Covered invariant known pending before)
    (step : Step work before after) :
    after.2.length + size after.1 < before.2.length + size before.1 := by
  cases step with
  | @drop state queue rest item taken idle =>
      have length := taken.length_eq
      rw [List.length_cons] at length
      simp only
      omega
  | @requeue state last queue rest again item taken worked back =>
      have less :=
        lawful.smaller state item last covered.holds
          (covered.listed item (taken.mem_iff.mpr List.mem_cons_self)) worked
      have length := taken.length_eq.trans back.length_eq.symm
      simp only
      omega

/-- No run of the loop goes on forever. -/
theorem Covered.terminates {config : State × List Item}
    (covered : Covered invariant known pending config) :
    Acc (fun after before => Step work before after) config := by
  induction measured : config.2.length + size config.1 using
    Nat.strongRecOn generalizing config with
  | ind bound induction =>
      refine Acc.intro config fun after step => ?_
      have less := covered.decreases lawful step
      exact induction _ (measured ▸ less) (covered.step lawful step) rfl

/-- When the queue is empty, nothing is pending. -/
theorem Covered.settled {before : State × List Item} {final : State}
    (covered : Covered invariant known pending before)
    (run : ReflTransGen (Step work) before (final, [])) :
    invariant final ∧ ∀ first second, ¬ pending final first second := by
  have ended := covered.run lawful run
  refine ⟨ended.holds, ?_⟩
  intro first second isPending
  rcases ended.covers first second isPending with member | member
  · exact List.not_mem_nil member
  · exact List.not_mem_nil member

end Cgir.Library.Worklist
