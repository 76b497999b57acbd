import Cgir.Library.Loop
import Cgir.Mlir.Cg
import Cgir.Model.Iterators

/-!
# Import of a command graph

`import_command_graph` makes one op for each node that the walk enumerates and
wires the predecessor tokens afterwards.  Under valid node iterators an op and
its node carry the same index.
-/

namespace Cgir.Mlir

open Cgir.Library
open Cgir.Model

/-! ## The source functions -/

/-- The op that `create_node_op` makes for a command. -/
def commandOpKind : Command → OpKind
  | .copy1D direction copy => .copy1D (Copy1DAttrs.ofCopy direction copy)
  | .copy2D direction copy => .copy2D (Copy2DAttrs.ofCopy direction copy)
  | command => .generic (commandType command) command

/--
`create_node_op`.  A command node without a command, or a node of another type,
aborts.
-/
def createNodeOp (node : CommandGraphNode) (isEntry isExit : Bool) :
    Option Op :=
  let op (kind : OpKind) : Op :=
    { duid := duidAttr node.deviceUniqueId
      kind := kind
      operands := []
      srcNode := none }
  match node.type with
  | .empty => some (op (.empty isEntry isExit))
  | .command => node.command.map fun command => op (commandOpKind command)
  | .commandGraph => none
  | .condition => none

/-- The state of pass 1: the graph and the vector `ops`. -/
structure ImportState where
  graph : Graph
  ops : Nat → Option OpId

/-- Pass 1 on one node: create its op and store it at the node's index. -/
def importNode (heap : Heap) (object : CommandGraph) (state : ImportState)
    (node : NodeId) : Option ImportState := do
  let op ←
    createNodeOp (heap.nodes node) (node = object.entry) (node = object.exit)
  let (id, graph) := state.graph.create { op with srcNode := some node }
  return {
    graph := graph
    ops :=
      Function.update state.ops (heap.nodes node).iteratorIndex (some id) }

/-- Pass 2 on one node: wire the tokens of its predecessors. -/
def wireNode (heap : Heap) (ops : Nat → Option OpId) (graph : Graph)
    (node : NodeId) : Option Graph := do
  let op ← ops (heap.nodes node).iteratorIndex
  let preds ←
    (heap.predecessors node).mapM fun p => ops (heap.nodes p).iteratorIndex
  return graph.setOperands op preds

/-- `import_command_graph`: the heap after its walk, and the graph it builds. -/
def importCommandGraph (heap : Heap) (graph : GraphId) :
    Option (Heap × Graph) := do
  let (heap, nodes) ← heap.createNodeIterators graph true
  let state ←
    nodes.foldlM (importNode heap (heap.graphs graph))
      { graph := Graph.empty, ops := fun _ => none }
  let wired ← nodes.foldlM (wireNode heap state.ops) state.graph
  return (heap, wired)

/-! ## What import builds -/

/-- A node that `create_node_op` can encode. -/
def Importable (node : CommandGraphNode) : Prop :=
  node.type = .empty ∨ (node.type = .command ∧ node.command.isSome)

instance (node : CommandGraphNode) : Decidable (Importable node) :=
  inferInstanceAs (Decidable (_ ∨ _))

theorem createNodeOp_of_importable {node : CommandGraphNode}
    (importable : Importable node) (isEntry isExit : Bool) :
    ∃ op, createNodeOp node isEntry isExit = some op := by
  rcases importable with empty | ⟨isCommand, present⟩
  · exact ⟨_, by simp only [createNodeOp, empty]; rfl⟩
  · obtain ⟨command, held⟩ := Option.isSome_iff_exists.mp present
    exact
      ⟨_, by simp only [createNodeOp, isCommand, held, Option.map_some]; rfl⟩

/-- The op of a node, once its tokens are wired. -/
structure Encodes (iterators : Iterators) (i : Nat) (op : Op) : Prop where
  created : createNodeOp (iterators.heap.nodes (iterators.node i))
      (iterators.node i = (iterators.heap.graphs iterators.graph).entry)
      (iterators.node i = (iterators.heap.graphs iterators.graph).exit) =
    some { op with operands := [], srcNode := none }
  operands_eq : op.operands =
    (iterators.heap.predecessors (iterators.node i)).map iterators.index
  srcNode_eq : op.srcNode = some (iterators.node i)

/-- `result` holds one op for each node of the vector, at the same index. -/
structure Imported (iterators : Iterators) (result : Graph) : Prop where
  body_eq : result.body = List.range iterators.count
  opCount_eq : result.opCount = iterators.count
  encodes : ∀ i < iterators.count, Encodes iterators i (result.ops i)

section Specification

variable {iterators : Iterators}

/-- A vector that splits at a node holds the node at the split. -/
theorem node_of_split {done rest : List NodeId} {node : NodeId}
    (split : iterators.nodes = done ++ node :: rest) :
    iterators.node done.length = node := by
  simp [Iterators.node, split]

theorem lt_of_split {done rest : List NodeId} {node : NodeId}
    (split : iterators.nodes = done ++ node :: rest) :
    done.length < iterators.count := by
  simp [Iterators.count, split]

theorem index_of_split (valid : iterators.Valid) {done rest : List NodeId}
    {node : NodeId} (split : iterators.nodes = done ++ node :: rest) :
    iterators.index node = done.length := by
  rw [← node_of_split split]
  exact valid.index_node (lt_of_split split)

/-- Pass 1 after the nodes of `done`. -/
structure Created (iterators : Iterators) (done : List NodeId)
    (state : ImportState) : Prop where
  body_eq : state.graph.body = List.range done.length
  opCount_eq : state.graph.opCount = done.length
  op_eq : ∀ i < done.length, ∃ op,
    createNodeOp (iterators.heap.nodes (iterators.node i))
        (iterators.node i = (iterators.heap.graphs iterators.graph).entry)
        (iterators.node i = (iterators.heap.graphs iterators.graph).exit) =
      some op ∧
    state.graph.ops i = { op with srcNode := some (iterators.node i) }
  ops_eq : ∀ i < done.length, state.ops i = some i

/-- What `create_node_op` makes has neither operands nor a source node. -/
theorem createNodeOp_bare {node : CommandGraphNode} {isEntry isExit : Bool}
    {op : Op} (created : createNodeOp node isEntry isExit = some op) :
    op.operands = [] ∧ op.srcNode = none := by
  unfold createNodeOp at created
  cases type : node.type with
  | empty =>
      rw [type] at created
      cases created
      exact ⟨rfl, rfl⟩
  | command =>
      rw [type] at created
      obtain ⟨command, -, rfl⟩ := Option.map_eq_some_iff.mp created
      exact ⟨rfl, rfl⟩
  | commandGraph =>
      rw [type] at created
      cases created
  | condition =>
      rw [type] at created
      cases created

theorem importNodes_spec (valid : iterators.Valid)
    (importable : ∀ node ∈ iterators.nodes,
      Importable (iterators.heap.nodes node)) :
    ∃ state,
      iterators.nodes.foldlM
          (importNode iterators.heap
            (iterators.heap.graphs iterators.graph))
          { graph := Graph.empty, ops := fun _ => none } = some state ∧
        Created iterators iterators.nodes state := by
  apply Loop.foldlM_invariant _ (Created iterators)
  · intro done node rest state split created
    have indexEq := index_of_split valid split
    obtain ⟨op, made⟩ :=
      createNodeOp_of_importable
        (importable node (by simp [split]))
        (node = (iterators.heap.graphs iterators.graph).entry)
        (node = (iterators.heap.graphs iterators.graph).exit)
    refine ⟨_, by simp only [importNode, made]; rfl, ?_⟩
    exact {
      body_eq := by
        simp [created.body_eq, created.opCount_eq, List.range_succ]
      opCount_eq := by
        simp [created.opCount_eq]
      op_eq := by
        intro i bound
        rw [List.length_append, List.length_singleton] at bound
        rw [Graph.create_ops, created.opCount_eq]
        split
        · rename_i last
          rw [last, node_of_split split]
          exact ⟨op, made, rfl⟩
        · rename_i earlier
          exact
            created.op_eq i
              (Nat.lt_of_le_of_ne (Nat.le_of_lt_succ bound) earlier)
      ops_eq := by
        intro i bound
        rw [List.length_append, List.length_singleton] at bound
        have stored : (iterators.heap.nodes node).iteratorIndex =
            done.length := indexEq
        simp only [stored, Function.update_apply, Graph.create_id,
          created.opCount_eq]
        split
        · rename_i last
          rw [last]
        · exact created.ops_eq i (by omega) }
  · exact {
      body_eq := rfl
      opCount_eq := rfl
      op_eq := fun i bound => absurd bound (Nat.not_lt_zero i)
      ops_eq := fun i bound => absurd bound (Nat.not_lt_zero i) }

/-- Pass 2 after the nodes of `done`. -/
structure Wired (iterators : Iterators) (created : Graph)
    (done : List NodeId) (wired : Graph) : Prop where
  body_eq : wired.body = created.body
  opCount_eq : wired.opCount = created.opCount
  op_eq : ∀ i : Nat, wired.ops i =
    if i < done.length then
      { created.ops i with
        operands :=
          (iterators.heap.predecessors (iterators.node i)).map
            iterators.index }
    else created.ops i

theorem wireNodes_spec (valid : iterators.Valid)
    (closed : ∀ node ∈ iterators.nodes,
      ∀ pred ∈ iterators.heap.predecessors node, pred ∈ iterators.nodes)
    {ops : Nat → Option OpId}
    (ops_eq : ∀ i < iterators.count, ops i = some i) (created : Graph) :
    ∃ wired,
      iterators.nodes.foldlM (wireNode iterators.heap ops) created =
          some wired ∧
        Wired iterators created iterators.nodes wired := by
  apply Loop.foldlM_invariant _ (Wired iterators created)
  · intro done node rest state split wired
    have indexEq : (iterators.heap.nodes node).iteratorIndex = done.length :=
      index_of_split valid split
    have member : node ∈ iterators.nodes := by
      simp [split]
    have preds :
        (iterators.heap.predecessors node).mapM
            (fun p => ops (iterators.heap.nodes p).iteratorIndex) =
          some ((iterators.heap.predecessors node).map iterators.index) := by
      rw [Loop.mapM_eq_some_iff, List.map_map]
      apply List.map_congr_left
      intro pred isPred
      exact ops_eq _ (valid.index_lt (closed node member pred isPred))
    refine
      ⟨state.setOperands done.length
        ((iterators.heap.predecessors node).map iterators.index), ?_, ?_⟩
    · simp only [wireNode, indexEq, ops_eq _ (lt_of_split split), preds]
      rfl
    · exact {
        body_eq := wired.body_eq
        opCount_eq := wired.opCount_eq
        op_eq := by
          intro i
          rw [List.length_append, List.length_singleton,
            Graph.setOperands_ops]
          by_cases last : i = done.length
          · subst last
            rw [if_pos rfl, if_pos (Nat.lt_succ_self _), wired.op_eq,
              if_neg (Nat.lt_irrefl _), node_of_split split]
          · rw [if_neg last, wired.op_eq]
            by_cases earlier : i < done.length
            · rw [if_pos earlier, if_pos (Nat.lt_succ_of_lt earlier)]
            · have later : ¬ i < done.length + 1 := by
                intro bound
                exact
                  earlier
                    (Nat.lt_of_le_of_ne (Nat.le_of_lt_succ bound) last)
              rw [if_neg earlier, if_neg later] }
  · exact {
      body_eq := rfl
      opCount_eq := rfl
      op_eq := fun i => (if_neg (Nat.not_lt_zero i)).symm }

end Specification

/--
Import of a well-formed graph of control and command nodes succeeds, and makes
one op for each node that the walk enumerates.
-/
theorem importCommandGraph_listed {heap : Heap} {graph : GraphId}
    (formed : heap.WellFormed graph) (ready : heap.WalkReady graph)
    (importable : ∀ node, heap.Reachable graph node →
      Importable (heap.nodes node)) :
    ∃ indexed nodes result,
      importCommandGraph heap graph = some (indexed, result) ∧
        heap.createNodeIterators graph true = some (indexed, nodes) ∧
        heap.Iterated graph true indexed nodes ∧
          Imported { heap := indexed, graph := graph, nodes := nodes }
            result := by
  obtain ⟨indexed, nodes, listed, iterated⟩ :=
    Heap.createNodeIterators_spec formed.allocated ready true
  let iterators : Iterators :=
    { heap := indexed, graph := graph, nodes := nodes }
  have valid : iterators.Valid := Iterators.valid_of_iterated iterated
  have same := iterated.unmarked_eq
  have encodable : ∀ node ∈ iterators.nodes,
      Importable (iterators.heap.nodes node) := by
    intro node member
    have holds := importable node ((iterated.mem_iff node).mp member).1
    unfold Importable at holds ⊢
    rwa [Heap.unmarked_type same, Heap.unmarked_command same]
  have closed : ∀ node ∈ iterators.nodes,
      ∀ pred ∈ iterators.heap.predecessors node,
        pred ∈ iterators.nodes := by
    intro node member pred isPred
    rw [Heap.unmarked_predecessors same] at isPred
    have link :=
      (formed.mem_predecessors node ((iterated.mem_iff node).mp member).1
        pred).mp isPred
    exact (iterated.mem_iff pred).mpr ⟨link.1, Or.inl rfl⟩
  obtain ⟨state, ran, created⟩ := importNodes_spec valid encodable
  obtain ⟨result, wires, wired⟩ :=
    wireNodes_spec valid closed created.ops_eq state.graph
  refine ⟨indexed, nodes, result, ?_, listed, iterated, ?_⟩
  · have graphsEq := Heap.unmarked_graphs same graph
    simp only [importCommandGraph, listed]
    exact (congrArg (Option.bind · _) ran).trans
      (congrArg (Option.bind · _) wires)
  · exact {
      body_eq := wired.body_eq.trans created.body_eq
      opCount_eq := wired.opCount_eq.trans created.opCount_eq
      encodes := by
        intro i bound
        obtain ⟨op, made, stored⟩ := created.op_eq i bound
        obtain ⟨noOperands, noSource⟩ := createNodeOp_bare made
        have opEq := (wired.op_eq i).trans (if_pos bound)
        rw [stored] at opEq
        exact {
          created := by
            rw [opEq, made]
            exact congrArg some (by cases op; simp_all)
          operands_eq := by
            rw [opEq]
          srcNode_eq := by
            rw [opEq] } }

/-- Import, without the walk. -/
theorem importCommandGraph_spec {heap : Heap} {graph : GraphId}
    (formed : heap.WellFormed graph) (ready : heap.WalkReady graph)
    (importable : ∀ node, heap.Reachable graph node →
      Importable (heap.nodes node)) :
    ∃ indexed nodes result,
      importCommandGraph heap graph = some (indexed, result) ∧
        heap.Iterated graph true indexed nodes ∧
          Imported { heap := indexed, graph := graph, nodes := nodes }
            result := by
  obtain ⟨indexed, nodes, result, ran, -, rest⟩ :=
    importCommandGraph_listed formed ready importable
  exact ⟨indexed, nodes, result, ran, rest⟩

end Cgir.Mlir
