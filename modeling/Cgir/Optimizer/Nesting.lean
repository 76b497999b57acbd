import Cgir.Optimizer.PassRegroups
import Cgir.Optimizer.Isolation
import Cgir.Optimizer.Refinement

/-!
# Nested graphs

A batch command that the optimizer creates runs its sub-graph, whose own batch
commands run theirs (`nested`).  A regrouping does nothing new
(`Regrouped.nested_sound`).
-/

namespace Cgir.Optimizer

open Relation
open Cgir.Library
open Cgir.Model
open Cgir.Model.Heap

variable {World : Type} {run : Effect (Memory × World)} {heap after : Heap}
  {graph : GraphId}

/--
The effect of commands when the optimizer created some of the graphs: to run a batch
of such a graph is to run the graph, up to a depth.
-/
def nested (run : Effect (Memory × World)) (heap : Heap)
    (created : GraphId → Prop) : Nat → Effect (Memory × World)
  | 0, _, _, _, _ => False
  | depth + 1, device, .batch sub, before, last =>
      created sub ∧ Outcome (nested run heap created depth) heap sub before last ∨
        ¬ created sub ∧ run device (.batch sub) before last
  | _ + 1, device, command, before, last => run device command before last

section Nested

variable {created : GraphId → Prop} {depth : Nat} {device : DeviceUniqueId}
  {before last : Memory × World}

theorem nested_created {sub : GraphId} (isCreated : created sub) :
    nested run heap created (depth + 1) device (.batch sub) before last ↔
      Outcome (nested run heap created depth) heap sub before last := by
  rw [nested]
  tauto

theorem nested_old {command : Command}
    (old : ∀ sub, command = .batch sub → ¬ created sub) :
    nested run heap created (depth + 1) device command before last ↔
      run device command before last := by
  cases command with
  | batch sub =>
      have isOld := old sub rfl
      rw [nested]
      tauto
  | _ => rfl

end Nested

/-- No batch command of the graph is of one of the given graphs. -/
def Avoids (heap : Heap) (graph : GraphId) (created : GraphId → Prop) :
    Prop :=
  ∀ n sub, heap.Reachable graph n →
    (heap.nodes n).command = some (.batch sub) → ¬ created sub

/-- Old commands do no more than before. -/
theorem Avoids.within {created : GraphId → Prop}
    (avoids : Avoids heap graph created) (depth : Nat) :
    Within heap graph (nested run after created depth) run := by
  intro n command reachable held device before last acts
  cases depth with
  | zero => exact acts.elim
  | succ depth =>
      refine (nested_old ?_).mp acts
      rintro sub rfl
      exact avoids n sub reachable held

/-- A topologically numbered graph without batches avoids all graphs. -/
theorem Avoids.of_numbered (numbered : heap.Numbered graph)
    (others : ∀ n : Nat, n < heap.nodeCount →
      (heap.nodes n).command.any Command.isBatch = false)
    (created : GraphId → Prop) : Avoids heap graph created := by
  intro n sub reachable held
  have other := others n (numbered.lt_of_reachable reachable)
  rw [held] at other
  cases other

/-- A graph does no more when its commands do no more. -/
theorem Outcome.mono {effect : Effect (Memory × World)}
    (less : Within heap graph effect run) {first last : Memory × World}
    (outcome : Outcome effect heap graph first last) :
    Outcome run heap graph first last := by
  obtain ⟨order, schedule, runs⟩ := outcome
  refine ⟨order, schedule, runs.mono ?_⟩
  intro n member before last acts
  have reachable := (schedule.mem_iff n).mp member
  by_cases isCommand : (heap.nodes n).type = .command
  · unfold performs at acts ⊢
    rw [isCommand] at acts ⊢
    cases held : (heap.nodes n).command with
    | none =>
        rw [held] at acts
        exact acts
    | some command =>
        rw [held] at acts
        exact execute_mono (less n command reachable held _) acts
  · exact (performs_idle isCommand).mpr ((performs_idle isCommand).mp acts)

/-- Without batches of created graphs it does not matter what these do. -/
theorem Avoids.outcome_iff {created : GraphId → Prop}
    (avoids : Avoids heap graph created) (depth : Nat)
    {first last : Memory × World} :
    Outcome (nested run after created (depth + 1)) heap graph first last ↔
      Outcome run heap graph first last := by
  constructor
  · exact Outcome.mono (avoids.within _)
  · refine Outcome.mono ?_
    intro n command reachable held device before last acts
    refine (nested_old ?_).mpr acts
    rintro sub rfl
    exact avoids n sub reachable held

/-- A regrouped graph whose new batch nodes run their sub-graphs does nothing new. -/
theorem Regrouped.nested_sound {image place : NodeId → NodeId}
    (regrouped : Regrouped heap after graph image place)
    (formed : heap.WellFormed graph) {created : GraphId → Prop}
    (avoids : Avoids heap graph created)
    (all : ∀ sub, Created heap after sub → created sub) (depth : Nat)
    {first last : Memory × World}
    (outcome : Outcome (nested run after created depth) after graph first
      last) :
    Outcome run heap graph first last := by
  refine regrouped.sound formed (avoids.within depth) ?_ outcome
  intro sub isCreated device before last acts
  cases depth with
  | zero => exact acts.elim
  | succ depth =>
      exact
        ⟨_, avoids.within depth, (nested_created (all sub isCreated)).mp acts⟩

end Cgir.Optimizer
