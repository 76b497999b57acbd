import Cgir.Optimizer.Parity
import Cgir.Optimizer.PassRefines

/-!
# Optimization is sound

Any sequence of the passes that refine, each run by either optimizer, returns and
leaves a graph that does nothing that the original could not do.  Without fusion
it does all that the original could do (`optimizeSteps_sound`).  The programs that
the passes compile and fuse on the way have to do what the originals do
(`LawfulSteps`), and the matrix of the dialect has to be allocated (`MatrixFits`).
-/

namespace Cgir.Optimizer

open Relation
open Cgir.Library
open Cgir.Mlir
open Cgir.Model
open Cgir.Model.Heap

/-- The passes that neither move nodes to other graphs nor merge copies. -/
def CommandGraphPass.isRefining : CommandGraphPass → Bool
  | .copyNormalize => true
  | .reduceNode => true
  | .reduceEdge => true
  | .progFuse => true
  | .jit => true
  | _ => false

/-- If the dialect reduces edges in a run, it can allocate its matrix. -/
def MatrixFits (heap : Heap) (graph : GraphId)
    (steps : List (Kind × CommandGraphPass)) : Prop :=
  (Kind.mlir, CommandGraphPass.reduceEdge) ∈ steps →
    heap.NodesAtMost graph Reachability.maxOps

theorem MatrixFits.of_numbered {heap : Heap} {graph : GraphId}
    (numbered : heap.Numbered graph)
    (small : heap.nodeCount ≤ Reachability.maxOps)
    (steps : List (Kind × CommandGraphPass)) :
    MatrixFits heap graph steps :=
  fun _ => numbered.wellFormed.nodesAtMost small

section Soundness

variable {World : Type} {run : Effect (Memory × World)} {tools : Toolchain}
  {heap after : Heap} {graph : GraphId} {kind : Kind}
  {pass : CommandGraphPass}

/-- What a pass leaves is allocated, and can be walked unless nodes came in. -/
theorem commandGraphOptimize_after (formed : heap.WellFormed graph)
    (notBatch : pass ≠ .batch)
    (ran : commandGraphOptimize tools kind heap graph pass = some after) :
    graph < after.graphCount ∧
      (∀ n, after.Reachable graph n → n < after.nodeCount) ∧
        (heap.WalkReady graph →
          (∀ n, after.Reachable graph n → heap.Reachable graph n) →
            after.WalkReady graph) := by
  obtain ⟨walked, walks, settles, -, -, kept⟩ :=
    commandGraphOptimize_stays formed.confined formed.graph_lt
      (by simp [notBatch]) ran
  refine
    ⟨formed.graph_lt.trans_le kept.graphCount_le, ?_, fun ready remains =>
      settles.ready kept.steady formed ready remains⟩
  intro n reachable
  rcases kept.owned_of_reach kept.entry reachable with
    before | ⟨-, below⟩
  · exact (formed.allocated n before).trans_le kept.nodeCount_le
  · exact below

theorem Refines.weaken {exact exact' : Prop}
    (refines : Refines run graph heap after exact)
    (weaker : exact' → exact) : Refines run graph heap after exact' :=
  { refines with complete := fun all => refines.complete (weaker all) }

/-- One pass of the legacy optimizer. -/
theorem optimizeLegacy_refines (lawful : Lawful tools run heap graph pass)
    (optimizable : Optimizable heap graph) (refining : pass.isRefining) :
    ∃ after, optimizeLegacy tools heap graph pass = some after ∧
      Refines run graph heap after (pass ≠ .progFuse) := by
  cases pass with
  | copyNormalize =>
      obtain ⟨after, ran, refines⟩ := passCopyNormalize_refines optimizable
      exact ⟨after, ran, refines.weaken fun _ => trivial⟩
  | reduceNode =>
      obtain ⟨after, ran, refines⟩ := passReduceNode_refines optimizable
      exact ⟨after, ran, refines.weaken fun _ => trivial⟩
  | reduceEdge =>
      obtain ⟨after, ran, refines⟩ := passReduceEdge_refines optimizable
      exact ⟨after, ran, refines.weaken fun _ => trivial⟩
  | progFuse =>
      obtain ⟨after, fused, ran, refines⟩ :=
        passProgFuse_refines optimizable lawful
      refine ⟨after, ?_, refines.weaken fun apart => apart rfl⟩
      show (Pass.ProgFuse.passProgFuse tools.fuse heap graph).map _ = _
      rw [ran, Option.map_some]
  | jit =>
      obtain ⟨after, ran, refines⟩ := passJit_refines optimizable lawful
      exact ⟨after, ran, refines.weaken fun _ => trivial⟩
  | copyFuse => cases refining
  | sequence => cases refining
  | batch => cases refining

/-- The pass of the other optimizer leaves the same graph. -/
theorem exists_sameGraph (optimizable : Optimizable heap graph)
    (refining : pass.isRefining)
    (ran : optimizeLegacy tools heap graph pass = some after) (kind : Kind)
    (matrix : MatrixFits heap graph [(kind, pass)]) :
    ∃ result, commandGraphOptimize tools kind heap graph pass = some result ∧
      SameGraph graph after result := by
  cases kind with
  | legacy => exact ⟨after, ran, SameGraph.refl graph after⟩
  | mlir =>
      have shared : pass.isShared := by
        cases pass <;> first | rfl | cases refining
      obtain ⟨legacy, result, ran', ranMlir, same⟩ :=
        sharedPass_agrees tools shared optimizable.formed optimizable.ready
          optimizable.plain fun same => matrix (by rw [same]; simp)
      obtain rfl : after = legacy := Option.some.inj (ran.symm.trans ran')
      exact ⟨result, ranMlir, same⟩

/-- One pass, run by either optimizer. -/
theorem commandGraphOptimize_refines
    (lawful : Lawful tools run heap graph pass)
    (optimizable : Optimizable heap graph) (refining : pass.isRefining)
    (kind : Kind) (matrix : MatrixFits heap graph [(kind, pass)]) :
    ∃ after, commandGraphOptimize tools kind heap graph pass = some after ∧
      Optimizable after graph ∧
        Refines run graph heap after (pass ≠ .progFuse) := by
  obtain ⟨legacy, ran, refines⟩ :=
    optimizeLegacy_refines lawful optimizable refining
  obtain ⟨after, ranKind, same⟩ :=
    exists_sameGraph optimizable refining ran kind matrix
  have notBatch : pass ≠ .batch := by
    rintro rfl
    cases refining
  obtain ⟨graphOld, allocated, ready⟩ :=
    commandGraphOptimize_after optimizable.formed notBatch ranKind
  have tracks : Tracks run graph legacy after :=
    Tracks.of_sameGraph refines.formed same graphOld allocated
  have refines' : Refines run graph heap after (pass ≠ .progFuse) :=
    (refines.trans (tracks.refines refines.formed True)).weaken
      fun apart => ⟨apart, trivial⟩
  exact
    ⟨after, ranKind,
      optimizable.step refines'.toKept
        (ready optimizable.ready refines'.remains), refines'⟩

theorem MatrixFits.head {step : Kind × CommandGraphPass}
    {rest : List (Kind × CommandGraphPass)}
    (matrix : MatrixFits heap graph (step :: rest)) :
    MatrixFits heap graph [step] :=
  fun member => matrix (by simpa using Or.inl (List.mem_singleton.mp member))

/-- The passes that follow find no more nodes. -/
theorem MatrixFits.rest {step : Kind × CommandGraphPass}
    {rest : List (Kind × CommandGraphPass)}
    (matrix : MatrixFits heap graph (step :: rest)) (place : NodeId → NodeId)
    (covers : ∀ n, after.Reachable graph n →
      ∃ original, heap.Reachable graph original ∧ place original = n) :
    MatrixFits after graph rest :=
  fun member => (matrix (List.mem_cons_of_mem step member)).image place covers

/-- A run of passes, each by either optimizer. -/
theorem optimizeSteps_refines (steps : List (Kind × CommandGraphPass))
    (lawful : LawfulSteps tools run graph steps heap)
    (optimizable : Optimizable heap graph)
    (matrix : MatrixFits heap graph steps)
    (refining : ∀ step ∈ steps, step.2.isRefining) :
    ∃ after, optimizeSteps tools graph steps heap = some after ∧
      Optimizable after graph ∧
        Refines run graph heap after
          (∀ step ∈ steps, step.2 ≠ .progFuse) := by
  induction steps generalizing heap with
  | nil =>
      refine ⟨heap, rfl, optimizable, Tracks.refines ?_ optimizable.formed _⟩
      exact
        Tracks.of_sameGraph optimizable.formed (SameGraph.refl graph heap)
          optimizable.formed.graph_lt optimizable.formed.allocated
  | cons step rest induction =>
      obtain ⟨kind, pass⟩ := step
      obtain ⟨next, ran, optimizable', refines⟩ :=
        commandGraphOptimize_refines lawful.1 optimizable
          (refining (kind, pass) List.mem_cons_self) kind matrix.head
      have matrix' : MatrixFits next graph rest :=
        matrix.rest id fun n reachable =>
          ⟨n, refines.remains n reachable, rfl⟩
      obtain ⟨after, ranRest, last, refines'⟩ :=
        induction (lawful.2 next ran) optimizable' matrix' fun step member =>
          refining step (List.mem_cons_of_mem _ member)
      refine ⟨after, ?_, last, (refines.trans refines').weaken ?_⟩
      · rw [optimizeSteps, List.foldlM_cons, ran]
        exact ranRest
      · intro apart
        exact
          ⟨apart (kind, pass) List.mem_cons_self, fun step member =>
            apart step (List.mem_cons_of_mem _ member)⟩

end Soundness

end Cgir.Optimizer
