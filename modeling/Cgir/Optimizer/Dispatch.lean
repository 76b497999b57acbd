import Cgir.Mlir.BatchPass
import Cgir.Mlir.CopyFuse
import Cgir.Mlir.CopyNormalize
import Cgir.Mlir.ProgFuse
import Cgir.Mlir.ReduceEdge
import Cgir.Mlir.ReduceNode
import Cgir.Pass.Batch
import Cgir.Pass.CopyFuse
import Cgir.Pass.Jit
import Cgir.Pass.Sequence

/-!
# The optimization dispatcher

`command_graph_optimize` runs a pass with one of two optimizers.  The legacy one
works on the pointers of the graph; the other one imports the graph, runs the pass
of the dialect and exports the result, and falls back on the legacy pass where
there is none.  `optimize` runs a set of passes in the order of their declaration.
-/

namespace Cgir.Optimizer

open Cgir.Model

/-- `command_graph_pass_t`. -/
inductive CommandGraphPass where
  | copyNormalize
  | copyFuse
  | reduceNode
  | reduceEdge
  | progFuse
  | jit
  | sequence
  | batch
  deriving DecidableEq, Repr

namespace CommandGraphPass

/-- `CGIR_FORALL_COMMAND_GRAPH_PASS`, in the order of the declarations. -/
def all : List CommandGraphPass :=
  [copyNormalize, copyFuse, reduceNode, reduceEdge, progFuse, jit, sequence,
    batch]

/-- `command_graph_pass_bit`. -/
def bit (pass : CommandGraphPass) : BitVec 64 :=
  1 <<< all.idxOf pass

end CommandGraphPass

/-- What the passes are given from outside the graph. -/
structure Toolchain where
  /-- `command_graph_prog_fuse_llvmir` -/
  fuse : List CommandProg → CommandProg
  /-- `command_graph_jit_llvmir` -/
  jit : CommandProg → CommandProg
  /-- the order in which the map of islands is traversed -/
  islandOrder : List Nat → List Nat
  islandOrder_perm : ∀ keys, (islandOrder keys).Perm keys
  /-- the order in which the map of materialized islands is traversed -/
  matOrder : List (Nat × Pass.Batch.IslandMat) →
    List (Nat × Pass.Batch.IslandMat)
  matOrder_perm : ∀ mat, (matOrder mat).Perm mat
  /-- the use list of a token -/
  getUsers : Mlir.Graph → Mlir.OpId → List Mlir.OpId
  getUsers_perm : ∀ cg token, (getUsers cg token).Perm (cg.users token)

variable (tools : Toolchain)

/-- `optimize_legacy`. -/
def optimizeLegacy (heap : Heap) (graph : GraphId) :
    CommandGraphPass → Option Heap
  | .copyNormalize => Pass.CopyNormalize.passCopyNormalize heap graph
  | .copyFuse => Pass.CopyFuse.passCopyFuse heap graph
  | .reduceNode => Pass.ReduceNode.passReduceNode heap graph
  | .reduceEdge => Pass.ReduceEdge.passReduceEdge heap graph
  | .progFuse =>
      (Pass.ProgFuse.passProgFuse tools.fuse heap graph).map Prod.fst
  | .jit => Pass.Jit.passJit tools.jit heap graph
  | .sequence => Pass.Sequence.passSequence heap graph
  | .batch =>
      Pass.Batch.passBatch tools.islandOrder tools.matOrder heap graph

/-- Import, the copy-fuse pass of the dialect and export. -/
def optimizeCopyFuse (heap : Heap) (graph : GraphId) : Option Heap := do
  let (heap, cg) ← Mlir.importCommandGraph heap graph
  let cg ← Mlir.copyFuse tools.getUsers cg
  Mlir.exportCommandGraph cg heap graph

/-- `command_graph_optimize_mlir`. -/
def commandGraphOptimizeMlir (heap : Heap) (graph : GraphId) :
    CommandGraphPass → Option Heap
  | .copyNormalize => Mlir.CopyNormalize.optimizeCopyNormalize heap graph
  | .copyFuse => optimizeCopyFuse tools heap graph
  | .reduceNode =>
      Mlir.ReduceNode.optimizeReduceNode tools.getUsers heap graph
  | .reduceEdge =>
      Mlir.ReduceEdge.optimizeReduceEdge tools.getUsers heap graph
  | .progFuse =>
      (Mlir.ProgFuse.optimizeProgFuse tools.fuse heap graph).map Prod.fst
  | .batch => Mlir.optimizeBatch heap graph
  -- `create_jit_pass` and `create_sequence_pass` return no pass.
  | .jit => optimizeLegacy tools heap graph .jit
  | .sequence => optimizeLegacy tools heap graph .sequence

/-- `CGIR_OPTIMIZER`. -/
inductive Kind where
  | legacy
  | mlir
  deriving DecidableEq, Repr

/-- `command_graph_optimize`, its dumps and statistics apart. -/
def commandGraphOptimize (kind : Kind) (heap : Heap) (graph : GraphId)
    (pass : CommandGraphPass) : Option Heap :=
  match kind with
  | .legacy => optimizeLegacy tools heap graph pass
  | .mlir => commandGraphOptimizeMlir tools heap graph pass

/-- Calls of `command_graph_optimize` on one graph, one after another. -/
def optimizeSteps (graph : GraphId) (steps : List (Kind × CommandGraphPass))
    (heap : Heap) : Option Heap :=
  steps.foldlM
    (fun heap step => commandGraphOptimize tools step.1 heap graph step.2)
    heap

/-- `optimize` of a set of passes. -/
def optimize (kind : Kind) (graph : GraphId) (passes : BitVec 64)
    (heap : Heap) : Option Heap :=
  CommandGraphPass.all.foldlM
    (fun heap pass =>
      if passes &&& pass.bit ≠ 0 then
        commandGraphOptimize tools kind heap graph pass
      else some heap) heap

/-! ## Sets of passes -/

/-- The passes of a set, in the order in which they run. -/
def requested (passes : BitVec 64) : List CommandGraphPass :=
  CommandGraphPass.all.filter fun pass => passes &&& pass.bit ≠ 0

/-- The calls that `optimize` makes for a set of passes. -/
def calls (kind : Kind) (passes : BitVec 64) :
    List (Kind × CommandGraphPass) :=
  (requested passes).map fun pass => (kind, pass)

variable {tools}

/-- A set of passes runs as the list of its members. -/
theorem optimize_eq (kind : Kind) (graph : GraphId) (passes : BitVec 64)
    (heap : Heap) :
    optimize tools kind graph passes heap =
      optimizeSteps tools graph (calls kind passes) heap := by
  unfold optimize optimizeSteps calls requested
  rw [List.foldlM_map]
  induction CommandGraphPass.all generalizing heap with
  | nil => rfl
  | cons pass rest induction =>
      rw [List.foldlM_cons]
      by_cases member : passes &&& pass.bit ≠ 0
      · rw [if_pos member, List.filter_cons_of_pos (by simpa using member),
          List.foldlM_cons]
        exact bind_congr fun after => induction after
      · rw [if_neg member, List.filter_cons_of_neg (by simpa using member)]
        exact induction heap

/-! ## A workload -/

/-- A kernel whose module holds the given functions. -/
def kernel (functions : List IrFunction) : CommandProg :=
  { Pass.ProgFuse.kernelProg 8 with
    source :=
      { (Pass.ProgFuse.kernelProg 8).source with
        raw := some (.module ⟨functions⟩) } }

/-- A function without parameters. -/
def procedure (name : String) : IrFunction where
  name := name
  linkage := .external
  isDeclaration := false
  returnsVoid := true
  params := []

/-- The functions of the module of a program, in order. -/
def functionsOf (prog : CommandProg) : List IrFunction :=
  match prog.source.raw with
  | some (.module module) => module.functions
  | _ => []

/--
A toolchain that keeps all orders.  Its fused programs hold the functions of their
parts one after another.
-/
def keeping : Toolchain where
  fuse := fun progs => kernel (progs.flatMap functionsOf)
  jit := id
  islandOrder := id
  islandOrder_perm := fun _ => .refl _
  matOrder := id
  matOrder_perm := fun _ => .refl _
  getUsers := Mlir.Graph.users
  getUsers_perm := fun _ _ => .refl _

/-- Two kernels in sequence, a control node and a copy that spans whole rows. -/
def workload : Heap :=
  Heap.ofNodes
    [Heap.linkedNode unspecifiedDeviceUniqueId .empty [] [1],
      { Heap.linkedNode 1 .command [0] [2] with
        command := some (.prog (kernel [procedure "scale"])) },
      { Heap.linkedNode 1 .command [1] [3, 4] with
        command := some (.prog (kernel [procedure "shift"])) },
      Heap.linkedNode unspecifiedDeviceUniqueId .empty [2] [4],
      { Heap.linkedNode 1 .command [3, 2] [5] with
        command := some (.copy2D .h2d {
          srcDeviceUniqueId := 0
          dstDeviceUniqueId := 1
          srcAddr := 4096
          srcLd := 16
          dstAddr := 8192
          dstLd := 16
          m := 16
          n := 4
          sizeofType := 8 }) },
      Heap.linkedNode unspecifiedDeviceUniqueId .empty [4] []]
    { entry := 0, exit := 5, walkId := 0, isSequence := false }

theorem workload_numbered : workload.Numbered 0 := by
  decide

end Cgir.Optimizer
