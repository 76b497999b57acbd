import Cgir.Optimizer.Isolation
import Cgir.Optimizer.PassRefines
import Cgir.Optimizer.Progress

/-!
# The sequence pass among others

The sequence pass leaves a graph on which passes can go on (`Sequenced`).  They do
not touch its sub-graphs, so it does not matter when these are looked at
(`Sequenced.nested_le`, `Sequenced.nested_ge`).  One call of a pass that regroups
loses no order (`regrouping_sound`).
-/

namespace Cgir.Optimizer

open Relation
open Cgir.Library
open Cgir.Mlir
open Cgir.Model
open Cgir.Model.Heap
open Cgir.Pass.ProgFuse

variable {World : Type} {run : Effect (Memory × World)} {tools : Toolchain}
  {heap after : Heap} {graph : GraphId} {kind : Kind}
  {pass : CommandGraphPass}

/-! ## The sequence pass -/

/-- What the sequence pass leaves. -/
structure Sequenced (heap after : Heap) (graph : GraphId)
    (block : NodeId → NodeId) : Prop extends
    Regrouped heap after graph id block where
  formed : after.WellFormed graph
  entry_eq : (after.graphs graph).entry = (heap.graphs graph).entry
  exit_eq : (after.graphs graph).exit = (heap.graphs graph).exit
  graphCount_le : heap.graphCount ≤ after.graphCount
  node : ∀ n, heap.Reachable graph n →
    NodeKept (heap.nodes n) (after.nodes n)
  sub_formed : ∀ sub, Created heap after sub → after.WellFormed sub
  sub_apart : ∀ sub n, Created heap after sub → after.Reachable sub n →
    heap.Reachable graph n ∧ ¬ after.Reachable graph n

theorem passSequence_leaves (formed : heap.WellFormed graph)
    (ready : heap.WalkReady graph) :
    ∃ after block, Pass.Sequence.passSequence heap graph = some after ∧
      Sequenced heap after graph block := by
  obtain ⟨iterators, chains, block, state, -, ran, rfl, -, iterated,
      sequenced, -⟩ :=
    Pass.Sequence.passSequence_sequenced formed ready
  have outcome : Pass.Sequence.Outcome heap iterators chains block state :=
    { sequenced with iterated := iterated, formed := formed }
  have lossless := outcome.lossless
  refine ⟨state.heap, block, ran, ?_⟩
  exact {
    sequence_regrouped outcome with
    formed := lossless.formed
    entry_eq := lossless.entry_eq
    exit_eq := lossless.exit_eq
    graphCount_le := by
      rw [outcome.graphCount_eq, outcome.heap_graphCount]
      exact Nat.le_add_right _ _
    node := by
      intro n reachable
      obtain ⟨device, type, command⟩ := outcome.node_kept reachable
      exact .of_eq type device command
    sub_formed := lossless.sub_formed
    sub_apart := by
      intro sub n created inside
      have original : heap.Reachable iterators.graph n := by
        obtain ⟨path, linear⟩ := lossless.linear sub created
        exact linear.original n ((linear.reachable_iff n).mp inside)
      refine ⟨original, fun top => ?_⟩
      rcases lossless.placed n original with ⟨-, nowhere⟩ | ⟨moved, -⟩
      · exact nowhere sub created inside
      · exact moved top }

section Sequence

variable {block : NodeId → NodeId}
  (sequenced : Sequenced heap after graph block)

include sequenced

/-- The top level holds nodes of the graph and new batch nodes. -/
theorem Sequenced.top_cases {n : NodeId}
    (top : after.Reachable graph n) :
    (heap.Reachable graph n ∧ NodeKept (heap.nodes n) (after.nodes n)) ∨
      ∃ sub, Created heap after sub ∧ (after.nodes n).type = .command ∧
        (after.nodes n).command = some (.batch sub) := by
  rcases sequenced.top n top with
    ⟨original, reachable, rfl, -⟩ | ⟨sub, created, holds⟩
  · left
    exact ⟨reachable, sequenced.node original reachable⟩
  · right
    obtain ⟨-, type, command⟩ := createdSub_eq_some_iff.mp holds
    exact ⟨sub, created, type, command⟩

theorem Sequenced.optimizable (optimizable : Optimizable heap graph)
    (ready : after.WalkReady graph) : Optimizable after graph where
  formed := sequenced.formed
  ready := ready
  executable := by
    intro n top
    rcases sequenced.top_cases top with
      ⟨reachable, kept⟩ | ⟨sub, -, type, command⟩
    · exact kept.executable (optimizable.executable n reachable)
    · constructor
      · rw [Importable, command]
        exact Or.inr ⟨type, rfl⟩
      · intro direction copy held
        rw [command] at held
        cases held
  entry_empty := by
    rw [sequenced.entry_eq, (sequenced.node _ reachable_entry).type_eq]
    exact optimizable.entry_empty
  exit_empty := by
    rw [sequenced.exit_eq,
      (sequenced.node _ optimizable.formed.reachable_exit).type_eq]
    exact optimizable.exit_empty

/-- Every node of the top level holds a node of the graph. -/
theorem Sequenced.covers {n : NodeId} (top : after.Reachable graph n) :
    ∃ original, heap.Reachable graph original ∧ block original = n := by
  rcases sequenced.top n top with
    ⟨original, reachable, -, sole⟩ | ⟨sub, created, holds⟩
  · exact ⟨original, reachable, (sole original reachable).mpr rfl⟩
  · have inside : after.Reachable sub (after.graphs sub).entry :=
      reachable_entry
    have reachable := (sequenced.sub_apart sub _ created inside).1
    exact
      ⟨_, reachable,
        (sequenced.member_iff n sub top holds _ reachable).mp inside⟩

/-- Only the graphs created before it are left to be avoided. -/
theorem Sequenced.avoids {created : GraphId → Prop}
    (avoids : Avoids heap graph created) :
    Avoids after graph fun sub =>
      created sub ∧ ¬ Created heap after sub := by
  rintro n sub top held ⟨isCreated, apart⟩
  rcases sequenced.top_cases top with
    ⟨reachable, kept⟩ | ⟨other, isOther, -, command⟩
  · exact avoids n sub reachable (kept.batch sub held) isCreated
  · rw [command] at held
    cases held
    exact apart isOther

/-- The batch nodes of the sequence pass run chains. -/
theorem Sequenced.runnable (runnable : Runnable run heap graph)
    (avoids : Avoids heap graph (Created heap after)) :
    Runnable (nested run after (Created heap after) 2) after graph where
  plain := by
    intro device command isPlain first
    obtain ⟨last, acts⟩ := runnable.plain device command isPlain first
    exact ⟨last, (nested_plain isPlain).mpr acts⟩
  batch := by
    intro n sub top type held device first
    rcases sequenced.top_cases top with
      ⟨reachable, kept⟩ | ⟨other, isNew, -, command⟩
    · rw [kept.type_eq] at type
      have before := kept.batch sub held
      obtain ⟨last, acts⟩ :=
        runnable.batch n sub reachable type before device first
      refine ⟨last, (nested_old ?_).mpr acts⟩
      rintro _ ⟨⟩
      exact avoids n sub reachable before
    · rw [command] at held
      cases held
      have inner : Runnable run after sub := by
        refine ⟨runnable.plain, ?_⟩
        intro n batch inside type held device first
        have reachable := (sequenced.sub_apart sub n isNew inside).1
        have kept := sequenced.node n reachable
        rw [kept.type_eq] at type
        exact
          runnable.batch n batch reachable type (kept.batch batch held) device
            first
      obtain ⟨last, outcome⟩ :=
        inner.outcome (exists_schedule (sequenced.sub_formed sub isNew)) first
      refine ⟨last, (nested_created isNew).mpr ?_⟩
      have subAvoids : Avoids after sub (Created heap after) := by
        intro n batch inside held
        have reachable := (sequenced.sub_apart sub n isNew inside).1
        exact
          avoids n batch reachable
            ((sequenced.node n reachable).batch batch held)
      exact (subAvoids.outcome_iff 0).mpr outcome

section Nested

variable {last : Heap} {created : GraphId → Prop}
  (formed : heap.WellFormed graph) (avoids : Avoids heap graph created)
  (all : ∀ sub, Created heap after sub → created sub)
  (isolated : Isolated graph after last)

include formed avoids all isolated

/-- Passes on the top level leave the sub-graphs as they are. -/
theorem Sequenced.sub_kept (run : Effect (Memory × World)) {sub : GraphId}
    (isSub : Created heap after sub) :
    Avoids after sub (Created heap after) ∧ Avoids last sub created ∧
      ∀ before behind, Outcome run last sub before behind ↔
        Outcome run after sub before behind := by
  have subFormed := sequenced.sub_formed sub isSub
  have different : sub ≠ graph :=
    (formed.graph_lt.trans_le isSub.1).ne'
  obtain ⟨same, nodeEq⟩ :=
    isolated.other subFormed
      (fun n inside => (sequenced.sub_apart sub n isSub inside).2) different
  have subAvoids : Avoids after sub created := by
    intro n batch inside held
    have reachable := (sequenced.sub_apart sub n isSub inside).1
    exact
      avoids n batch reachable ((sequenced.node n reachable).batch batch held)
  have tracks : Tracks run sub after last := by
    refine Tracks.of_sameGraph subFormed same.symm ?_ ?_
    · exact subFormed.graph_lt.trans_le isolated.graphCount_le
    · intro n inside
      exact
        (subFormed.allocated n ((same.reachable_iff n).mp inside)).trans_le
          isolated.nodeCount_le
  have refines := tracks.refines subFormed True
  refine ⟨?_, ?_, fun before behind => ?_⟩
  · intro n batch inside held isNew
    exact subAvoids n batch inside held (all batch isNew)
  · intro n batch inside held
    have before := (same.reachable_iff n).mp inside
    rw [nodeEq n before] at held
    exact subAvoids n batch before held
  · exact
      ⟨refines.sound before behind, refines.complete trivial before behind⟩

/-- What a sub-graph does after passes on the top level, it did before. -/
theorem Sequenced.sub_sound {sub : GraphId} (isSub : Created heap after sub)
    (depth depth' : Nat) {before behind : Memory × World}
    (outcome : Outcome (nested run last created depth) last sub before
      behind) :
    Outcome (nested run after (Created heap after) (depth' + 1)) after sub
      before behind := by
  obtain ⟨avoidsNew, lastAvoids, iff⟩ :=
    sequenced.sub_kept formed avoids all isolated run isSub
  exact
    (avoidsNew.outcome_iff depth').mpr
      ((iff before behind).mp (Outcome.mono (lastAvoids.within depth) outcome))

/-- And conversely. -/
theorem Sequenced.sub_complete {sub : GraphId}
    (isSub : Created heap after sub) (depth depth' : Nat)
    {before behind : Memory × World}
    (outcome : Outcome (nested run after (Created heap after) depth) after sub
      before behind) :
    Outcome (nested run last created (depth' + 1)) last sub before behind := by
  obtain ⟨avoidsNew, lastAvoids, iff⟩ :=
    sequenced.sub_kept formed avoids all isolated run isSub
  exact
    (lastAvoids.outcome_iff depth').mpr
      ((iff before behind).mpr (Outcome.mono (avoidsNew.within depth) outcome))

/--
Running the graphs that were created is running those of the sequence pass as they
were then, and the later ones as they are now.
-/
theorem Sequenced.nested_le (run : Effect (Memory × World)) (depth : Nat) :
    ∀ device command (before behind : Memory × World),
      nested run last created depth device command before behind →
        nested (nested run after (Created heap after) 2) last
          (fun sub => created sub ∧ ¬ Created heap after sub) depth device
          command before behind := by
  induction depth with
  | zero => exact fun _ _ _ _ acts => acts.elim
  | succ depth induction =>
      intro device command before behind acts
      by_cases isNew : ∃ sub, command = .batch sub ∧ created sub
      · obtain ⟨sub, rfl, isCreated⟩ := isNew
        rw [nested_created isCreated] at acts
        by_cases isSub : Created heap after sub
        · refine (nested_old ?_).mpr ((nested_created isSub).mpr ?_)
          · rintro _ ⟨⟩ ⟨-, apart⟩
            exact apart isSub
          · exact
              sequenced.sub_sound formed avoids all isolated isSub depth 0
                acts
        · refine (nested_created ⟨isCreated, isSub⟩).mpr ?_
          exact
            Outcome.mono (fun _ command _ _ device => induction device command)
              acts
      · rw [nested_old fun sub same isCreated =>
          isNew ⟨sub, same, isCreated⟩] at acts
        refine (nested_old ?_).mpr ((nested_old ?_).mpr acts)
        · rintro sub same ⟨isCreated, -⟩
          exact isNew ⟨sub, same, isCreated⟩
        · intro sub same isSub
          exact isNew ⟨sub, same, all sub isSub⟩

/-- And conversely, one level deeper. -/
theorem Sequenced.nested_ge (run : Effect (Memory × World)) (depth : Nat) :
    ∀ device command (before behind : Memory × World),
      nested (nested run after (Created heap after) 2) last
          (fun sub => created sub ∧ ¬ Created heap after sub) depth device
          command before behind →
        nested run last created (depth + 1) device command before behind := by
  induction depth with
  | zero => exact fun _ _ _ _ acts => acts.elim
  | succ depth induction =>
      intro device command before behind acts
      by_cases isNew : ∃ sub, command = .batch sub ∧ created sub
      · obtain ⟨sub, rfl, isCreated⟩ := isNew
        refine (nested_created isCreated).mpr ?_
        by_cases isSub : Created heap after sub
        · have old : ∀ other, Command.batch sub = .batch other →
              ¬ (created other ∧ ¬ Created heap after other) := by
            rintro _ ⟨⟩ ⟨-, apart⟩
            exact apart isSub
          rw [nested_old old, nested_created isSub] at acts
          exact
            sequenced.sub_complete formed avoids all isolated isSub 1 depth
              acts
        · rw [nested_created ⟨isCreated, isSub⟩] at acts
          exact
            Outcome.mono (fun _ command _ _ device => induction device command)
              acts
      · rw [nested_old fun sub same isCreated =>
            isNew ⟨sub, same, isCreated.1⟩,
          nested_old fun sub same isSub =>
            isNew ⟨sub, same, all sub isSub⟩] at acts
        exact
          (nested_old fun sub same isCreated =>
            isNew ⟨sub, same, isCreated⟩).mpr acts

end Nested

end Sequence

/-! ## One call -/

/-- A batch pass of either optimizer regroups. -/
theorem batch_regroups (tools : Toolchain) (kind : Kind)
    (formed : heap.WellFormed graph) (ready : heap.WalkReady graph)
    (plain : Plain heap graph) :
    ∃ after image place,
      commandGraphOptimize tools kind heap graph .batch = some after ∧
        Regrouped heap after graph image place ∧
          (kind = .mlir → Schedulable after graph ∧
            ∀ sub, Created heap after sub → Schedulable after sub) := by
  cases kind with
  | legacy =>
      obtain ⟨after, iterators, islands, plan, state, ran, rfl, batched⟩ :=
        Pass.Batch.passBatch_batched formed ready tools.islandOrder_perm
          tools.matOrder_perm
      exact ⟨after, _, _, ran, batch_regrouped batched formed, nofun⟩
  | mlir =>
      obtain ⟨iterators, cg, rep, scratch, after, rfl, -, -, ran, batched⟩ :=
        optimizeBatch_batched formed ready plain
      refine
        ⟨after, _, _, ran, mlirBatch_regrouped formed batched, fun _ => ⟨?_,
          fun sub => mlirBatch_schedulable formed batched⟩⟩
      apply Schedulable.of_allocated (batched.acyclic formed)
      obtain ⟨walked, walks, -, -, -, kept⟩ :=
        commandGraphOptimize_stays formed.confined
          formed.graph_lt (by simp) (show commandGraphOptimize tools .mlir heap
            iterators.graph .batch = some after from ran)
      intro n reachable
      rcases kept.owned_of_reach kept.entry reachable with
        before | ⟨-, below⟩
      · exact (formed.allocated n before).trans_le kept.nodeCount_le
      · exact below

/--
Grouping nodes into sub-graphs loses no order: whatever the graph does when its new
batch nodes run their sub-graphs, it could do before.
-/
theorem regrouping_sound (tools : Toolchain) (kind : Kind)
    (grouping : pass = .sequence ∨ pass = .batch)
    (formed : heap.WellFormed graph) (ready : heap.WalkReady graph)
    (plain : Plain heap graph)
    (avoids : Avoids heap graph (heap.graphCount ≤ ·)) :
    ∃ after, commandGraphOptimize tools kind heap graph pass = some after ∧
      ∀ depth first last,
        Outcome (nested run after (heap.graphCount ≤ ·) depth) after graph
            first last →
          Outcome run heap graph first last := by
  rcases grouping with rfl | rfl
  · obtain ⟨after, block, ran, sequenced⟩ := passSequence_leaves formed ready
    refine ⟨after, ?_, fun depth _ _ outcome => ?_⟩
    · cases kind <;> exact ran
    · exact
        sequenced.toRegrouped.nested_sound formed avoids
          (fun _ created => created.1) depth outcome
  · obtain ⟨after, image, place, ran, regrouped, -⟩ :=
      batch_regroups tools kind formed ready plain
    exact
      ⟨after, ran, fun depth _ _ outcome =>
        regrouped.nested_sound formed avoids (fun _ created => created.1)
          depth outcome⟩

/-- Two reads in a row are grouped. -/
theorem regrouping_sound_readRow :
    ∃ after,
      commandGraphOptimize keeping .mlir readRow 0 .batch = some after ∧
        ∀ depth first last,
          Outcome (nested traced after (1 ≤ ·) depth) after 0 first last →
            Outcome traced readRow 0 first last := by
  have numbered : readRow.Numbered 0 := by decide
  exact
    regrouping_sound keeping .mlir (Or.inr rfl) numbered.wellFormed
      (numbered.walkReady (by decide))
      (Plain.of_numbered numbered (by decide) rfl rfl)
      (.of_numbered numbered (by decide) _)

end Cgir.Optimizer
