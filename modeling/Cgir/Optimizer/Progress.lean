import Cgir.Optimizer.Nesting

/-!
# Graphs that can be run

A graph without cycles can be run to its end when each of its commands can be run
(`Runnable.outcome`).  Regrouping keeps it so if neither the top level nor a
sub-graph has a cycle (`Regrouped.nested_runs`).
-/

namespace Cgir.Optimizer

open Relation
open Cgir.Library
open Cgir.Model
open Cgir.Model.Heap

variable {World : Type} {run effect : Effect (Memory × World)}
  {heap after : Heap} {graph : GraphId}

/-! ## Commands -/

/-- A copy can always be run. -/
theorem exists_copied (transfers : Pass.CopyFuse.Transfer → Prop)
    (before : Memory) : ∃ after, Copied transfers before after := by
  classical
  have moved : ∀ place : Place, ∃ byte,
      (∃ source : Place,
        transfers (source.1, source.2, place.1, place.2) ∧
          byte = before source) ∨
        (∀ source : Place,
          ¬ transfers (source.1, source.2, place.1, place.2)) ∧
            byte = before place := by
    intro place
    by_cases written : ∃ source : Place,
        transfers (source.1, source.2, place.1, place.2)
    · obtain ⟨source, moves⟩ := written
      exact ⟨before source, Or.inl ⟨source, moves, rfl⟩⟩
    · exact ⟨before place, Or.inr ⟨not_exists.mp written, rfl⟩⟩
  choose after copied using moved
  exact ⟨after, copied⟩

/--
Every command can be run from every state; of the batch commands, those of the
graph.
-/
structure Runnable (effect : Effect (Memory × World)) (heap : Heap)
    (graph : GraphId) : Prop where
  plain : ∀ device command, command.isBatch = false →
    ∀ first, ∃ last, effect device command first last
  batch : ∀ n sub, heap.Reachable graph n →
    (heap.nodes n).type = .command →
      (heap.nodes n).command = some (.batch sub) →
        ∀ device first, ∃ last, effect device (.batch sub) first last

theorem Runnable.performs (runnable : Runnable effect heap graph)
    {n : NodeId} (reachable : heap.Reachable graph n)
    (first : Memory × World) :
    ∃ last, performs effect heap n first last := by
  by_cases isCommand : (heap.nodes n).type = .command
  · cases held : (heap.nodes n).command with
    | none =>
        refine ⟨first, ?_⟩
        rw [Optimizer.performs, isCommand, held]
    | some command =>
        simp only [performs_command isCommand held]
        cases command with
        | copy1D direction copy =>
            obtain ⟨after, copied⟩ := exists_copied _ first.1
            exact ⟨(after, first.2), copied, rfl⟩
        | copy2D direction copy =>
            obtain ⟨after, copied⟩ := exists_copied _ first.1
            exact ⟨(after, first.2), copied, rfl⟩
        | batch sub =>
            exact runnable.batch n sub reachable isCommand held _ first
        | _ => exact runnable.plain _ _ rfl first
  · exact ⟨first, (performs_idle isCommand).mpr rfl⟩

/-! ## Graphs -/

/-- The nodes of the graph can be ordered by their links. -/
def Schedulable (heap : Heap) (graph : GraphId) : Prop :=
  ∃ order, Schedule (heap.Reachable graph) (heap.Link graph) order

/-- A graph without cycles can be run. -/
theorem Runnable.outcome (runnable : Runnable effect heap graph)
    (schedulable : Schedulable heap graph) (first : Memory × World) :
    ∃ last, Outcome effect heap graph first last := by
  obtain ⟨order, schedule⟩ := schedulable
  obtain ⟨last, runs⟩ :=
    exists_runs
      (fun n member => runnable.performs ((schedule.mem_iff n).mp member))
      first
  exact ⟨last, order, schedule, runs⟩

theorem Schedulable.of_allocated (acyclic : Digraph.Acyclic (heap.Link graph))
    (allocated : ∀ n, heap.Reachable graph n → n < heap.nodeCount) :
    Schedulable heap graph := by
  obtain ⟨domain, domainIff, -⟩ := Heap.exists_domain allocated
  exact
    Library.exists_schedule acyclic
      (fun source target step => ⟨step.1, step.reachable⟩) domain domainIff

/-! ## Regrouped graphs -/

/-- A command that is no batch does what it did. -/
theorem nested_plain {created : GraphId → Prop} {depth : Nat}
    {device : DeviceUniqueId} {command : Command}
    (plain : command.isBatch = false) {before last : Memory × World} :
    nested run heap created (depth + 1) device command before last ↔
      run device command before last := by
  refine nested_old ?_
  rintro sub rfl
  cases plain

/-- The new batch nodes of a regrouped graph can be run. -/
theorem Regrouped.nested_runs {image place : NodeId → NodeId}
    (regrouped : Regrouped heap after graph image place)
    (top : Schedulable after graph)
    (subs : ∀ sub, Created heap after sub → Schedulable after sub)
    (runnable : Runnable run heap graph) {created : GraphId → Prop}
    (avoids : Avoids heap graph created)
    (all : ∀ sub, Created heap after sub → created sub)
    (first : Memory × World) :
    ∃ last, Outcome (nested run after created 2) after graph first last := by
  -- The batches of images are old ones.
  have old : ∀ depth n sub, heap.Reachable graph n →
      (after.nodes (image n)).type = .command →
        (after.nodes (image n)).command = some (.batch sub) →
          ∀ device first, ∃ last,
            nested run after created (depth + 1) device (.batch sub) first
              last := by
    intro depth n sub reachable type held device first
    obtain ⟨-, typeEq, commandEq⟩ := regrouped.kept n reachable
    rw [typeEq] at type
    rw [commandEq type] at held
    obtain ⟨last, acts⟩ :=
      runnable.batch n sub reachable type held device first
    refine ⟨last, (nested_old ?_).mpr acts⟩
    rintro _ ⟨⟩
    exact avoids n sub reachable held
  have plain : ∀ depth device command, command.isBatch = false →
      ∀ first, ∃ last,
        nested run after created (depth + 1) device command first last := by
    intro depth device command isPlain first
    obtain ⟨last, acts⟩ := runnable.plain device command isPlain first
    exact ⟨last, (nested_plain isPlain).mpr acts⟩
  refine Runnable.outcome ⟨plain 1, ?_⟩ top first
  intro block sub inTop type held device first
  rcases regrouped.top block inTop with
    ⟨n, reachable, rfl, -⟩ | ⟨other, isNew, holds⟩
  · exact old 1 n sub reachable type held device first
  · obtain ⟨-, -, command⟩ := createdSub_eq_some_iff.mp holds
    obtain rfl : sub = other := by
      rw [command] at held
      cases held
      rfl
    have inner : Runnable (nested run after created 1) after sub := by
      refine ⟨plain 0, ?_⟩
      intro node batch inSub type held device first
      rcases regrouped.rest sub node isNew inSub with
        ⟨n, reachable, rfl⟩ | control
      · exact old 0 n batch reachable type held device first
      · exact (control type).elim
    obtain ⟨last, outcome⟩ := inner.outcome (subs sub isNew) first
    exact ⟨last, (nested_created (all sub isNew)).mpr outcome⟩

/-! ## The batch pass of the dialect -/

section MlirBatch

open Cgir.Mlir

/-- Between the ends of a sub-graph there are the tokens of its members only. -/
theorem subEdge_path {operands : OpId → List OpId} {base : Nat}
    {region : List OpId}
    (closed : ∀ op ∈ region, ∀ pred ∈ operands op, pred ∈ region)
    {source target : NodeId}
    (path : TransGen (Mlir.SubEdge operands base region) source target) :
    source ≠ base + 1 ∧ target ≠ base ∧
      (source = base ∨ target = base + 1 ∨
        ∃ pred ∈ region, ∃ op ∈ region,
          memberAt (base + 2) region pred = source ∧
            memberAt (base + 2) region op = target ∧
              TransGen (RegionEdge operands region) pred op) := by
  have apart : ∀ op, memberAt (base + 2) region op ≠ base ∧
      memberAt (base + 2) region op ≠ base + 1 := by
    intro op
    have above : base + 2 ≤ memberAt (base + 2) region op := memberAt_ge
    have first : base < base + 2 := Nat.lt_add_of_pos_right Nat.two_pos
    exact
      ⟨(first.trans_le above).ne', ((Nat.lt_succ_self _).trans_le above).ne'⟩
  induction path with
  | single step =>
      rcases subEdge_iff.mp step with
        ⟨op, member, pred, isPred, rfl, rfl⟩ | ⟨op, -, -, rfl, rfl⟩ |
          ⟨op, -, -, rfl, rfl⟩
      · exact
          ⟨(apart _).2, (apart _).1,
            Or.inr (Or.inr ⟨pred, closed op member pred isPred, op, member,
              rfl, rfl, TransGen.single ⟨member, isPred⟩⟩)⟩
      · exact ⟨(Nat.lt_succ_self _).ne, (apart _).1, Or.inl rfl⟩
      · exact
          ⟨(apart _).2, (Nat.lt_succ_self _).ne', Or.inr (Or.inl rfl)⟩
  | @tail middle last _ step before =>
      obtain ⟨notLast, notFirst, cases⟩ := before
      rcases subEdge_iff.mp step with
        ⟨op, member, pred, isPred, rfl, rfl⟩ | ⟨op, -, -, rfl, rfl⟩ |
          ⟨op, -, -, rfl, rfl⟩
      · refine ⟨notLast, (apart _).1, ?_⟩
        rcases cases with isFirst | isLast | ⟨first, firstIn, second,
          secondIn, rfl, same, path⟩
        · exact Or.inl isFirst
        · exact ((apart _).2 isLast).elim
        · obtain rfl := memberAt_injective secondIn same
          exact
            Or.inr (Or.inr ⟨first, firstIn, op, member, rfl, rfl,
              path.tail ⟨member, isPred⟩⟩)
      · exact (notFirst rfl).elim
      · exact
          ⟨notLast, (Nat.lt_succ_self _).ne', Or.inr (Or.inl rfl)⟩

theorem subEdge_acyclic {operands : OpId → List OpId} {base : Nat}
    {region : List OpId}
    (closed : ∀ op ∈ region, ∀ pred ∈ operands op, pred ∈ region)
    (acyclic : Digraph.Acyclic (RegionEdge operands region)) :
    Digraph.Acyclic (Mlir.SubEdge operands base region) := by
  intro node cycle
  obtain ⟨notLast, notFirst, isFirst | isLast | ⟨pred, member, op, -, rfl,
    same, path⟩⟩ := subEdge_path closed cycle
  · exact notFirst isFirst
  · exact notLast isLast
  · have equal := memberAt_injective member same.symm
    subst equal
    exact acyclic pred path

variable {iterators : Iterators} {cg : Mlir.Graph} {rep : Nat → Nat}
  {scratch : Scratch} (formed : heap.WellFormed iterators.graph)
  (batched : Mlir.Batched heap iterators cg rep scratch after)

include formed batched

theorem mlirBatch_schedulable {sub : GraphId}
    (created : Created heap after sub) : Schedulable after sub := by
  obtain ⟨position, group, known, rfl⟩ := (batched.created_iff sub).mp created
  let base := baseAt iterators cg scratch position
  have acyclic : Digraph.Acyclic
      (after.Link (heap.graphCount + position)) :=
    (subEdge_acyclic (batched.region_closed known)
      (batched.region_acyclic formed known)).mono fun source target =>
        (batched.sub_link_iff formed known source target).mp
  refine
    Library.exists_schedule acyclic
      (fun source target step => ⟨step.1, step.reachable⟩)
      (insert base
        (insert (base + 1)
          (group.1.map (memberAt (base + 2) group.1)).toFinset)) ?_
  intro node
  rw [batched.sub_reachable_iff formed known]
  simp [SubLive, base]

end MlirBatch

end Cgir.Optimizer
