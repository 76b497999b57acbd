import Cgir.Optimizer.Isolation
import Cgir.Pass.SequenceBuild

/-!
# The two optimizers

`optimize_legacy` runs a pass on the pointers of the graph;
`command_graph_optimize_mlir` imports the graph, runs the pass of the dialect and
exports the result.  Where they mean to do the same, they leave the same graph
(`optimizers_agree`).
-/

namespace Cgir.Optimizer

open Cgir.Mlir
open Cgir.Model

/-- The copy-fuse and the batch passes of the two optimizers differ by design. -/
def CommandGraphPass.isShared : CommandGraphPass → Bool
  | .copyFuse => false
  | .batch => false
  | _ => true

/-- Both optimizers return and leave the same graph. -/
def Agree (tools : Toolchain) (heap : Heap) (graph : GraphId)
    (pass : CommandGraphPass) : Prop :=
  ∃ legacy result,
    commandGraphOptimize tools .legacy heap graph pass = some legacy ∧
      commandGraphOptimize tools .mlir heap graph pass = some result ∧
        SameGraph graph legacy result

theorem sharedPass_agrees (tools : Toolchain) {pass : CommandGraphPass}
    (shared : pass.isShared) {heap : Heap} {graph : GraphId}
    (formed : heap.WellFormed graph) (ready : heap.WalkReady graph)
    (plain : Plain heap graph)
    (few : pass = .reduceEdge →
      heap.NodesAtMost graph Reachability.maxOps) :
    Agree tools heap graph pass := by
  cases pass with
  | copyNormalize =>
      exact CopyNormalize.optimizeCopyNormalize_agrees formed ready plain
  | reduceNode =>
      exact
        ReduceNode.optimizeReduceNode_agrees tools.getUsers_perm formed ready
          plain
  | reduceEdge =>
      exact
        ReduceEdge.optimizeReduceEdge_agrees tools.getUsers_perm formed ready
          plain (few rfl)
  | progFuse =>
      obtain ⟨legacy, fused, result, fused', ran, ran', same⟩ :=
        ProgFuse.optimizeProgFuse_agrees tools.fuse formed ready plain
      refine ⟨legacy, result, ?_, ?_, same⟩
      · show (Pass.ProgFuse.passProgFuse tools.fuse heap graph).map _ = _
        rw [ran, Option.map_some]
      · show (ProgFuse.optimizeProgFuse tools.fuse heap graph).map _ = _
        rw [ran', Option.map_some]
  | jit =>
      obtain ⟨walked, visited, -, ran⟩ :=
        Pass.Jit.passJit_spec tools.jit formed.allocated ready
      exact ⟨_, _, ran, ran, SameGraph.refl graph _⟩
  | sequence =>
      obtain ⟨iterators, chains, block, state, k, ran, -⟩ :=
        Pass.Sequence.passSequence_sequenced formed ready
      exact ⟨_, _, ran, ran, SameGraph.refl graph _⟩
  | copyFuse => cases shared
  | batch => cases shared

/-- Where the optimizers agree on reduce-edge, the dialect has its matrix. -/
theorem Agree.nodesAtMost {tools : Toolchain} {heap : Heap} {graph : GraphId}
    (agree : Agree tools heap graph .reduceEdge)
    (formed : heap.WellFormed graph) (ready : heap.WalkReady graph)
    (plain : Plain heap graph) :
    heap.NodesAtMost graph Reachability.maxOps := by
  obtain ⟨_, _, -, ran, -⟩ := agree
  exact
    ReduceEdge.optimizeReduceEdge_nodesAtMost formed ready plain ran

/--
The optimizers agree on every graph, whatever fuses the programs, but for
reduce-edge on graphs whose reachability matrix the dialect cannot index.
-/
theorem optimizers_agree_iff (tools : Toolchain) {pass : CommandGraphPass}
    (shared : pass.isShared) {heap : Heap} {graph : GraphId}
    (formed : heap.WellFormed graph) (ready : heap.WalkReady graph)
    (plain : Plain heap graph) :
    Agree tools heap graph pass ↔
      (pass = .reduceEdge → heap.NodesAtMost graph Reachability.maxOps) := by
  constructor
  · rintro agree rfl
    exact agree.nodesAtMost formed ready plain
  · exact sharedPass_agrees tools shared formed ready plain

theorem optimizers_agree_iff_workload : Agree keeping workload 0 .reduceEdge :=
  (optimizers_agree_iff keeping rfl workload_numbered.wellFormed
    (workload_numbered.walkReady (by decide))
    (Plain.of_numbered workload_numbered (by decide) rfl rfl)).mpr
      fun _ => workload_numbered.wellFormed.nodesAtMost (by decide)

/-- Empty nodes in a row between the entry 0 and the exit. -/
def emptyRow (last : Nat) : Heap where
  nodes := fun n =>
    Heap.linkedNode unspecifiedDeviceUniqueId .empty
      (if n = 0 then [] else [n - 1]) (if n < last then [n + 1] else [])
  nodeCount := last + 1
  graphs := fun _ =>
    { entry := 0, exit := last, walkId := 0, isSequence := false }
  graphCount := 1

theorem emptyRow_numbered (last : Nat) : (emptyRow last).Numbered 0 := by
  refine ⟨Nat.one_pos, Nat.succ_pos last, fun n inside => ?_⟩
  have bound : n ≤ last := Nat.lt_succ_iff.mp inside
  refine ⟨?_, ?_, ?_, ?_, ?_, ?_⟩
  · show (if n < last then [n + 1] else []).Nodup
    split <;> simp
  · show (if n = 0 then [] else [n - 1]).Nodup
    split <;> simp
  · show ∀ next ∈ if n < last then [n + 1] else [],
      n < next ∧ next < last + 1 ∧ n ∈ if next = 0 then [] else [next - 1]
    intro next member
    split at member
    · obtain rfl := List.mem_singleton.mp member
      simpa
    · cases member
  · show ∀ pred ∈ if n = 0 then [] else [n - 1],
      pred < last + 1 ∧ n ∈ if pred < last then [pred + 1] else []
    intro pred member
    split at member
    · cases member
    · obtain rfl := List.mem_singleton.mp member
      rw [if_pos (by omega), List.mem_singleton]
      omega
  · show n = 0 ∨ (if n = 0 then [] else [n - 1]) ≠ []
    by_cases first : n = 0 <;> simp [first]
  · show n = last ∨ (if n < last then [n + 1] else []) ≠ []
    rcases Nat.lt_or_eq_of_le bound with below | isLast
    · simp [below]
    · exact Or.inl isLast

/-- A row of 370704 nodes is one node too long for the matrix of the dialect. -/
theorem not_optimizers_agree :
    (emptyRow 370703).WellFormed 0 ∧ (emptyRow 370703).WalkReady 0 ∧
      Plain (emptyRow 370703) 0 ∧
        ¬ Agree keeping (emptyRow 370703) 0 .reduceEdge := by
  have numbered := emptyRow_numbered 370703
  have ready : (emptyRow 370703).WalkReady 0 :=
    numbered.walkReady fun _ _ => (by decide : (0 : WalkId) ≠ 0 + 1)
  have plain : Plain (emptyRow 370703) 0 :=
    .of_numbered numbered (fun _ _ => Or.inl rfl) rfl rfl
  refine ⟨numbered.wellFormed, ready, plain, fun agree => ?_⟩
  have few := agree.nodesAtMost numbered.wellFormed ready plain
  exact absurd (numbered.nodeCount_le few) (by decide)

/-- The redundant link is gone after either optimizer. -/
example :
    (commandGraphOptimize keeping .legacy workload 0 .reduceEdge).map
          (Heap.successors · 2) = some [3] ∧
      (commandGraphOptimize keeping .mlir workload 0 .reduceEdge).map
          (Heap.successors · 2) = some [3] := by
  decide

end Cgir.Optimizer
