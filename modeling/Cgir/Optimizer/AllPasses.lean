import Cgir.Optimizer.CopyFusion
import Cgir.Optimizer.Pipeline

/-!
# All passes of the dialect

The copy-fuse pass of the dialect runs right behind the normalization of copies,
which keeps what it relies on: copies that do not wrap and that do not overwrite
what an unordered copy reads.  So any set of passes can be run by the optimizer of
the dialect.
-/

namespace Cgir.Optimizer

open Relation
open Cgir.Library
open Cgir.Mlir
open Cgir.Model
open Cgir.Pass.CopyNormalize

variable {World : Type} {run : Effect (Memory × World)} {tools : Toolchain}
  {heap after : Heap} {graph : GraphId}

/-- Copies that the copy-fuse pass can fuse, once they are normalized. -/
structure Movable (heap : Heap) (graph : GraphId) : Prop where
  unwrapped : ∀ n, heap.Reachable graph n →
    sourceUnwrapped ((heap.nodes n).command.map normalizeCommand) = true
  unclobbered : Unclobbered heap graph

/-- A graph that is normalized already. -/
theorem Movable.sources (movable : Movable heap graph) :
    SourcesUnwrapped heap graph := by
  intro n direction copy reachable held
  have small := movable.unwrapped n reachable
  rw [held] at small
  exact of_decide_eq_true small

/-- What either optimizer makes of the commands by normalizing them. -/
theorem copyNormalize_commands (optimizable : Optimizable heap graph)
    (kind : Kind)
    (ran : commandGraphOptimize tools kind heap graph .copyNormalize =
      some after) :
    (∀ n, after.Reachable graph n ↔ heap.Reachable graph n) ∧
      after.Link graph = heap.Link graph ∧
        ∀ n, heap.Reachable graph n →
          (after.nodes n).type = (heap.nodes n).type ∧
            (after.nodes n).command =
              (normalized (heap.nodes n)).command := by
  have formed := optimizable.formed
  obtain ⟨legacy, ranLegacy, result⟩ :=
    CopyNormalize.passCopyNormalize_normalized formed optimizable.ready
      optimizable.plain
  have entryLive : heap.Reachable graph (legacy.graphs graph).entry := by
    rw [result.entry_eq]
    exact Heap.reachable_entry
  have spans : ∀ n, heap.Reachable graph n →
      ReflTransGen (heap.Link graph) (legacy.graphs graph).entry n := by
    intro n reachable
    rw [result.entry_eq]
    exact Heap.reachable_entry.links reachable
  have reachableIff := result.represents.live_iff entryLive spans
  have linkIff := result.represents.edge_iff entryLive spans
  have same : SameGraph graph legacy after := by
    cases kind with
    | legacy =>
        obtain rfl := Option.some.inj (ranLegacy.symm.trans ran)
        exact SameGraph.refl graph legacy
    | mlir =>
        obtain ⟨legacy', mlir, ranLegacy', ranMlir, agrees⟩ :=
          CopyNormalize.optimizeCopyNormalize_agrees formed optimizable.ready
            optimizable.plain
        obtain rfl := Option.some.inj (ranLegacy.symm.trans ranLegacy')
        obtain rfl := Option.some.inj (ranMlir.symm.trans ran)
        exact agrees
  refine ⟨fun n => (same.reachable_iff n).symm.trans (reachableIff n), ?_, ?_⟩
  · rw [same.link_eq]
    funext source target
    exact propext (linkIff source target)
  · intro n reachable
    obtain ⟨type, -, command⟩ := result.object_eq n reachable
    obtain ⟨type', -, command'⟩ :=
      same.object_eq n ((reachableIff n).mpr reachable)
    exact ⟨type'.symm.trans type, command'.symm.trans command⟩

/-- A command whose 2-D copy fits moves the same bytes when it is normalized. -/
theorem normalizeCommand_transfers {node : CommandGraphNode}
    (executable : Executable node) {command : Command}
    (held : node.command = some command)
    (transfer : Pass.CopyFuse.Transfer) :
    CommandTransfers (normalizeCommand command) transfer ↔
      CommandTransfers command transfer := by
  cases command with
  | copy2D direction copy =>
      obtain ⟨-, transfers, -⟩ :=
        normalizeCommand_fits direction (executable.fits direction copy held)
      exact transfers transfer
  | _ => rfl

/-- Normalized copies can be fused. -/
theorem Movable.normalized (movable : Movable heap graph)
    (optimizable : Optimizable heap graph) {kind : Kind}
    (ran : commandGraphOptimize tools kind heap graph .copyNormalize =
      some after) :
    SourcesUnwrapped after graph ∧ Unclobbered after graph := by
  obtain ⟨reachableIff, linkEq, objects⟩ :=
    copyNormalize_commands optimizable kind ran
  constructor
  · intro n direction copy reachable held
    have before := (reachableIff n).mp reachable
    rw [(objects n before).2, CopyNormalize.normalized_command] at held
    have small := movable.unwrapped n before
    split at held
    · rw [held] at small
      exact of_decide_eq_true small
    · rw [held] at small
      exact of_decide_eq_true small
  · have back : ∀ {m command}, Commands after graph m →
        (after.nodes m).command = some command →
          Commands heap graph m ∧ ∃ original,
            (heap.nodes m).command = some original ∧
              ∀ transfer, CommandTransfers command transfer ↔
                CommandTransfers original transfer := by
      rintro m command ⟨reachable, type⟩ held
      have before := (reachableIff m).mp reachable
      obtain ⟨typeEq, commandEq⟩ := objects m before
      rw [typeEq] at type
      rw [commandEq, CopyNormalize.normalized_command, if_pos type] at held
      obtain ⟨original, heldBefore, rfl⟩ := Option.map_eq_some_iff.mp held
      exact
        ⟨⟨before, type⟩, original, heldBefore,
          normalizeCommand_transfers (optimizable.executable m before)
            heldBefore⟩
    intro m n command command' inside inside' different forth back' held held'
      source target source' target' moves moves'
    obtain ⟨before, original, heldBefore, transfers⟩ := back inside held
    obtain ⟨before', original', heldBefore', transfers'⟩ := back inside' held'
    rw [linkEq] at forth back'
    exact
      movable.unclobbered m n original original' before before' different
        forth back' heldBefore heldBefore' source target source' target'
        ((transfers _).mp moves) ((transfers' _).mp moves')

/-! ## The pipeline -/

/-- The passes of a list that are requested, run by the dialect. -/
def requestedOf (passes : BitVec 64) (list : List CommandGraphPass) :
    List (Kind × CommandGraphPass) :=
  (list.filter fun pass => passes &&& pass.bit ≠ 0).map fun pass =>
    (Kind.mlir, pass)

/-- A pass that refines is requested or not; the others run after it. -/
theorem requested_nests {passes : BitVec 64} {pass : CommandGraphPass}
    {rest : List CommandGraphPass} {count : Nat} (ready : Heap → Prop)
    (lawful : LawfulSteps tools run graph
      (requestedOf passes (pass :: rest)) heap)
    (matrix : MatrixFits heap graph (requestedOf passes (pass :: rest)))
    (prepared : Prepared (count + 1) heap graph)
    (refines : ∃ middle,
      commandGraphOptimize tools .mlir heap graph pass = some middle ∧
        Optimizable middle graph ∧ ready middle ∧
          Refines run graph heap middle False)
    (skips : passes &&& pass.bit = 0 → ready heap)
    (ends : ∀ {heap},
      LawfulSteps tools run graph (requestedOf passes rest) heap →
        MatrixFits heap graph (requestedOf passes rest) →
          Prepared count heap graph → ready heap → ∃ after,
            optimizeSteps tools graph (requestedOf passes rest) heap =
                some after ∧
              Nests run graph heap after True) :
    ∃ after,
      optimizeSteps tools graph (requestedOf passes (pass :: rest)) heap =
          some after ∧
        Nests run graph heap after True := by
  by_cases absent : passes &&& pass.bit = 0
  · have skipped : requestedOf passes (pass :: rest) =
        requestedOf passes rest := by
      rw [requestedOf, List.filter_cons_of_neg (by simpa using absent),
        requestedOf]
    rw [skipped] at lawful matrix ⊢
    exact
      ends lawful matrix (prepared.mono (Nat.le_succ count)) (skips absent)
  · obtain ⟨middle, ran, optimizable, isReady, refines⟩ := refines
    have called : requestedOf passes (pass :: rest) =
        (Kind.mlir, pass) :: requestedOf passes rest := by
      rw [requestedOf, List.filter_cons_of_pos (by simpa using absent),
        List.map_cons, requestedOf]
    rw [called] at lawful matrix ⊢
    have matrix' : MatrixFits middle graph (requestedOf passes rest) :=
      matrix.rest id fun n reachable => ⟨n, refines.remains n reachable, rfl⟩
    obtain ⟨after, ranRest, nests⟩ :=
      ends (lawful.2 middle ran) matrix' (prepared.optimizable ran optimizable)
        isReady
    refine ⟨after, ?_, refines.nests (prepared.step ran).2.2 nests⟩
    rw [optimizeSteps, List.foldlM_cons, ran]
    exact ranRest

/-- The passes behind copy-fuse. -/
theorem rest_nests {passes : BitVec 64}
    (lawful : LawfulSteps tools run graph
      (requestedOf passes
        [.reduceNode, .reduceEdge, .progFuse, .jit, .sequence, .batch]) heap)
    (matrix : MatrixFits heap graph
      (requestedOf passes
        [.reduceNode, .reduceEdge, .progFuse, .jit, .sequence, .batch]))
    (prepared : Prepared 6 heap graph) :
    ∃ after,
      optimizeSteps tools graph
          (requestedOf passes
            [.reduceNode, .reduceEdge, .progFuse, .jit, .sequence, .batch])
          heap = some after ∧
        Nests run graph heap after True := by
  let others : List CommandGraphPass :=
    [.reduceNode, .reduceEdge, .progFuse, .jit, .sequence]
  have split : requestedOf passes
      [.reduceNode, .reduceEdge, .progFuse, .jit, .sequence, .batch] =
        requestedOf passes others ++ requestedOf passes [.batch] := by
    rw [requestedOf, requestedOf, requestedOf, ← List.map_append,
      ← List.filter_append]
    rfl
  have batch : requestedOf passes [.batch] = [] ∨
      ∃ kind, requestedOf passes [.batch] = [(kind, .batch)] := by
    by_cases absent : passes &&& CommandGraphPass.batch.bit = 0
    · exact Or.inl (by simpa [requestedOf] using absent)
    · exact Or.inr ⟨.mlir, by simpa [requestedOf] using absent⟩
  have gentle : ∀ step ∈ requestedOf passes others,
      step.2.isRefining ∨ step.2 = .sequence := by
    intro step member
    obtain ⟨pass, inOthers, rfl⟩ := List.mem_map.mp member
    have listed := (List.mem_filter.mp inOthers).1
    revert listed
    cases pass <;> simp [others, CommandGraphPass.isRefining]
  have few : (requestedOf passes others ++ requestedOf passes [.batch]).length ≤
      6 := by
    rw [← split, requestedOf, List.length_map]
    exact List.length_filter_le _ _
  rw [split] at lawful matrix ⊢
  obtain ⟨after, ran, nests⟩ :=
    optimizeSteps_nests batch _ gentle lawful matrix (prepared.mono few)
  refine ⟨after, ran, nests.weaken fun _ member => ?_⟩
  rw [← split] at member
  obtain ⟨pass, -, same⟩ := List.mem_map.mp member
  cases same

/-- Any set of passes. -/
theorem optimizeMlir_nests (passes : BitVec 64)
    (lawful : LawfulSteps tools run graph (calls .mlir passes) heap)
    (matrix : MatrixFits heap graph (calls .mlir passes))
    (prepared : Prepared 8 heap graph) (movable : Movable heap graph) :
    ∃ after, optimize tools .mlir graph passes heap = some after ∧
      Nests run graph heap after True := by
  rw [optimize_eq]
  refine
    requested_nests
      (fun heap => SourcesUnwrapped heap graph ∧ Unclobbered heap graph)
      lawful matrix prepared ?_
      (fun _ => ⟨movable.sources, movable.unclobbered⟩) ?_
  · have refining : CommandGraphPass.copyNormalize.isRefining = true := rfl
    have noProgs : Lawful tools run heap graph .copyNormalize := by
      constructor <;> intro same <;> cases same
    have noMatrix : MatrixFits heap graph [(.mlir, .copyNormalize)] := by
      intro member
      cases List.mem_singleton.mp member
    obtain ⟨middle, ran, optimizable, refines⟩ :=
      commandGraphOptimize_refines noProgs prepared.toOptimizable refining
        .mlir noMatrix
    exact
      ⟨middle, ran, optimizable,
        movable.normalized prepared.toOptimizable ran,
        refines.weaken False.elim⟩
  · rintro heap lawful matrix prepared ⟨unwrapped, unclobbered⟩
    refine
      requested_nests (fun _ => True) lawful matrix prepared ?_
        (fun _ => trivial)
        fun lawful matrix prepared _ => rest_nests lawful matrix prepared
    obtain ⟨middle, ran, refines⟩ :=
      mlirCopyFuse_refines tools prepared.formed prepared.ready prepared.plain
        unwrapped unclobbered
    obtain ⟨-, -, ready⟩ :=
      commandGraphOptimize_after prepared.formed (by simp) ran
    exact
      ⟨middle, ran,
        prepared.toOptimizable.step refines.toKept
          (ready prepared.ready refines.remains), trivial,
        refines.weaken False.elim⟩

theorem copySiblings_prepared : Prepared 8 copySiblings 0 where
  toOptimizable := copySiblings_optimizable
  marks := by
    have numbered : copySiblings.Numbered 0 := by decide
    have unmarked : ∀ n < 5, Heap.MarksUpTo 0 copySiblings n := by
      decide
    exact fun n reachable => unmarked n (numbered.lt_of_reachable reachable)
  walks := by decide

theorem copySiblings_movable : Movable copySiblings 0 where
  unwrapped := by
    have numbered : copySiblings.Numbered 0 := by decide
    have all : ∀ n : Nat, n < copySiblings.nodeCount → sourceUnwrapped
        ((copySiblings.nodes n).command.map normalizeCommand) = true := by
      decide
    exact fun n reachable => all n (numbered.lt_of_reachable reachable)
  unclobbered := copySiblings_unclobbered

end Cgir.Optimizer
