import Cgir.Mlir.BatchLossless
import Cgir.Optimizer.Execution
import Cgir.Pass.BatchLossless
import Cgir.Pass.SequenceLossless

/-!
# Regrouping

The passes that group nodes move them into sub-graphs, each of which is held by a
new batch node of the top level (`Regrouped`).  If a batch command runs its
sub-graph then the top level does nothing that the original graph could not do
(`Regrouped.sound`).
-/

namespace Cgir.Optimizer

open Relation
open Cgir.Library
open Cgir.Model
open Cgir.Model.Heap

variable {World : Type} {run : Effect (Memory × World)} {heap after : Heap}
  {graph : GraphId} {image place : NodeId → NodeId}

/--
Every node has an image that does its work.  The image is at the top level or in
the sub-graph of a new batch node; `place` is the node of the top level that it
belongs to.
-/
structure Regrouped (heap after : Heap) (graph : GraphId)
    (image place : NodeId → NodeId) : Prop where
  kept : ∀ n, heap.Reachable graph n →
    (after.nodes (image n)).deviceUniqueId =
        (heap.nodes n).deviceUniqueId ∧
      (after.nodes (image n)).type = (heap.nodes n).type ∧
        ((heap.nodes n).type = .command →
          (after.nodes (image n)).command = (heap.nodes n).command)
  injective : ∀ n other, heap.Reachable graph n →
    heap.Reachable graph other → image n = image other → n = other
  placed : ∀ n, heap.Reachable graph n → after.Reachable graph (place n)
  top : ∀ block, after.Reachable graph block →
    (∃ n, heap.Reachable graph n ∧ image n = block ∧
        ∀ other, heap.Reachable graph other →
          (place other = block ↔ other = n)) ∨
      ∃ sub, Created heap after sub ∧
        createdSub heap after block = some sub
  member_iff : ∀ block sub, after.Reachable graph block →
    createdSub heap after block = some sub →
      ∀ n, heap.Reachable graph n →
        (after.Reachable sub (image n) ↔ place n = block)
  rest : ∀ sub node, Created heap after sub → after.Reachable sub node →
    (∃ n, heap.Reachable graph n ∧ image n = node) ∨
      (after.nodes node).type ≠ .command
  across : ∀ source target, heap.Link graph source target →
    place source ≠ place target →
      after.Link graph (place source) (place target)
  within : ∀ block sub, after.Reachable graph block →
    createdSub heap after block = some sub →
      ∀ source target, heap.Link graph source target →
        place source = block → place target = block →
          after.Link sub (image source) (image target)

/-! ## Effects -/

/-- Commands do no more than with other effects. -/
theorem execute_mono {effect : Effect (Memory × World)}
    {device : DeviceUniqueId} {command : Command}
    (less : ∀ first last, effect device command first last →
      run device command first last) {first last : Memory × World}
    (acts : execute effect device command first last) :
    execute run device command first last := by
  cases command with
  | copy1D direction copy => exact acts
  | copy2D direction copy => exact acts
  | _ => exact less first last acts

/-- On the commands of a graph, one effect does no more than the other one. -/
def Within (heap : Heap) (graph : GraphId)
    (effect run : Effect (Memory × World)) : Prop :=
  ∀ n command, heap.Reachable graph n →
    (heap.nodes n).command = some command → ∀ device first last,
      effect device command first last → run device command first last

/-- An image does no more than its node. -/
theorem Regrouped.performs_image {effect : Effect (Memory × World)}
    (regrouped : Regrouped heap after graph image place)
    (less : Within heap graph effect run) {n : NodeId}
    (reachable : heap.Reachable graph n) {first last : Memory × World}
    (acts : performs effect after (image n) first last) :
    performs run heap n first last := by
  obtain ⟨device, type, command⟩ := regrouped.kept n reachable
  by_cases isCommand : (heap.nodes n).type = .command
  · unfold performs at acts ⊢
    rw [device, type, command isCommand, isCommand] at acts
    rw [isCommand]
    cases held : (heap.nodes n).command with
    | none =>
        rw [held] at acts
        exact acts
    | some command =>
        rw [held] at acts
        exact execute_mono (less n command reachable held _) acts
  · rw [← type] at isCommand
    obtain rfl := (performs_idle isCommand).mp acts
    rw [type] at isCommand
    exact (performs_idle isCommand).mpr rfl

/-! ## Soundness -/

/--
A regrouped graph does nothing new: its old commands do no more than before, and a
new batch command runs its sub-graph.
-/
theorem Regrouped.sound {effect : Effect (Memory × World)}
    (regrouped : Regrouped heap after graph image place)
    (formed : heap.WellFormed graph)
    (old : Within heap graph effect run)
    (new : ∀ sub, Created heap after sub → ∀ device first last,
      effect device (.batch sub) first last →
        ∃ inner, Within heap graph inner run ∧
          Outcome inner after sub first last)
    {first last : Memory × World}
    (outcome : Outcome effect after graph first last) :
    Outcome run heap graph first last := by
  rw [outcome_iff formed]
  obtain ⟨blocks, schedule, runs⟩ := outcome
  refine
    schedule.regroup (fun n inside => regrouped.placed n inside.1)
      regrouped.across ?_ runs
  intro block alive first last acts
  rcases regrouped.top block alive with
    ⟨n, reachable, rfl, onlyN⟩ | ⟨sub, created, holds⟩
  · have acts' := regrouped.performs_image old reachable acts
    by_cases isCommand : (heap.nodes n).type = .command
    · refine ⟨[n], ⟨List.nodup_singleton n, ?_, ?_⟩, ⟨last, acts', rfl⟩⟩
      · intro other
        rw [List.mem_singleton]
        constructor
        · rintro rfl
          exact ⟨⟨reachable, isCommand⟩, (onlyN other reachable).mpr rfl⟩
        · rintro ⟨⟨otherReachable, -⟩, here⟩
          exact (onlyN other otherReachable).mp here
      · exact List.pairwise_singleton _ _
    · refine
        ⟨[], ⟨List.nodup_nil, ?_, List.Pairwise.nil⟩,
          (performs_idle isCommand).mp acts'⟩
      intro other
      refine iff_of_false List.not_mem_nil ?_
      rintro ⟨⟨otherReachable, isCommand'⟩, here⟩
      obtain rfl := (onlyN other otherReachable).mp here
      exact isCommand isCommand'
  · obtain ⟨-, type, held⟩ := createdSub_eq_some_iff.mp holds
    rw [performs_command type held] at acts
    obtain ⟨inner, less, order, subSchedule, subRuns⟩ :=
      new sub created _ first last acts
    obtain ⟨back, backIff⟩ :=
      exists_back image (fun n => Commands heap graph n ∧ place n = block)
        fun n other inside otherInside =>
          regrouped.injective n other inside.1.1 otherInside.1.1
    refine ⟨order.filterMap back, ?_, ?_⟩
    · refine subSchedule.sorted.filterMap backIff ?_ ?_
      · rintro n ⟨inside, here⟩
        exact (regrouped.member_iff block sub alive holds n inside.1).mpr here
      · rintro source target ⟨-, here⟩ ⟨-, there⟩ path
        rcases transGen_within_or_across regrouped.across path with
          within | leads
        · rw [here] at within
          refine TransGen.lift image ?_ source target within
          rintro upper lower ⟨link, upperHere, lowerHere⟩
          exact
            regrouped.within block sub alive holds upper lower link upperHere
              lowerHere
        · rw [here, there] at leads
          exact (schedule.irreflexive alive leads).elim
    · refine Runs.filterMap ?_ ?_ subRuns
      · intro node _ n known first last acts
        obtain ⟨⟨inside, -⟩, rfl⟩ := (backIff node n).mp known
        exact regrouped.performs_image less inside.1 acts
      · intro node member unknown first last acts
        have inSub := (subSchedule.mem_iff node).mp member
        have idle : (after.nodes node).type ≠ .command := by
          rcases regrouped.rest sub node created inSub with
            ⟨n, reachable, rfl⟩ | control
          · intro isCommand
            rw [(regrouped.kept n reachable).2.1] at isCommand
            have here :=
              (regrouped.member_iff block sub alive holds n reachable).mp
                inSub
            have known :=
              (backIff (image n) n).mpr ⟨⟨⟨reachable, isCommand⟩, here⟩, rfl⟩
            rw [unknown] at known
            cases known
          · exact control
        exact (performs_idle idle).mp acts

end Cgir.Optimizer
