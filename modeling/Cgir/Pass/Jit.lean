import Cgir.Pass.ProgChains

/-!
# The jit pass

`pass_jit` compiles the LLVM-IR source of every program of the graph in place.
-/

namespace Cgir.Pass.Jit

open Cgir.Model
open Cgir.Pass.ProgFuse

/-- The callback of the walk; `jit` is `command_graph_jit_llvmir`. -/
def jitNode (jit : CommandProg → CommandProg) (heap : Heap) (n : NodeId) :
    Heap :=
  match llvmirProg (heap.nodes n) with
  | some prog => heap.setCommand n (.prog (jit prog))
  | none => heap

/-- `command_graph_t::pass_jit`. -/
def passJit (jit : CommandProg → CommandProg) (heap : Heap)
    (graph : GraphId) : Option Heap := do
  let (heap, visited) ← heap.walk graph (.dfs .pre)
  return visited.foldl (jitNode jit) heap

section Spec

variable {jit : CommandProg → CommandProg} {heap : Heap} {graph : GraphId}

/-- What becomes of a node that is compiled. -/
def compiled (jit : CommandProg → CommandProg) (node : CommandGraphNode) :
    CommandGraphNode :=
  match llvmirProg node with
  | some prog => { node with command := some (.prog (jit prog)) }
  | none => node

theorem jitNode_nodes (n other : NodeId) :
    (jitNode jit heap n).nodes other =
      if other = n then compiled jit (heap.nodes n) else heap.nodes other := by
  unfold jitNode compiled
  split
  · rw [Heap.setCommand, Heap.updateNode_nodes]
  · split
    · rename_i same
      rw [same]
    · rfl

/-- The heap once the given nodes are compiled. -/
def compileOn (jit : CommandProg → CommandProg) (heap : Heap)
    (done : List NodeId) : Heap :=
  { heap with
    nodes := fun n =>
      if n ∈ done then compiled jit (heap.nodes n) else heap.nodes n }

/-- The callbacks compile every node that is visited. -/
theorem foldl_jitNode {visited : List NodeId} (nodup : visited.Nodup) :
    visited.foldl (jitNode jit) heap = compileOn jit heap visited := by
  have step : ∀ (heap : Heap) (n : NodeId), jitNode jit heap n =
      { heap with nodes := (jitNode jit heap n).nodes } := by
    intro heap n
    unfold jitNode
    split <;> rfl
  induction visited generalizing heap with
  | nil => simp [compileOn]
  | cons n rest induction =>
      obtain ⟨fresh, nodup⟩ := List.nodup_cons.mp nodup
      rw [List.foldl_cons, induction nodup, compileOn, compileOn, step]
      congr 1
      funext other
      simp only [jitNode_nodes, List.mem_cons]
      by_cases same : other = n
      · subst same
        simp [fresh]
      · simp [same]

/-- The pass returns, and compiles exactly the nodes of the graph. -/
theorem passJit_spec (jit : CommandProg → CommandProg)
    (allocated : ∀ n, heap.Reachable graph n → n < heap.nodeCount)
    (ready : heap.WalkReady graph) :
    ∃ walked visited, heap.Walked graph walked visited ∧
      passJit jit heap graph = some (compileOn jit walked visited) := by
  obtain ⟨walked, visited, walks, done⟩ :=
    Heap.walk_spec allocated ready (.dfs .pre)
  refine ⟨walked, visited, done, ?_⟩
  rw [passJit, walks]
  exact congrArg some (foldl_jitNode done.nodup)

end Spec

end Cgir.Pass.Jit
