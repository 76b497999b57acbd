import Cgir.Library.Loop
import Cgir.Model.Adjacency
import Cgir.Pass.BatchIslands

/-!
# What the batch pass builds

Given the islands of a graph, the pass allocates one batch node and one
sub-graph for every island with two commands (`materializeAll_spec`), moves the
boundary edges to the batch nodes (`rewire_spec`), and connects the ends of the
sub-graphs (`connect_spec`).  The adjacency lists it leaves represent the
contraction of the links, the links inside the islands, and the edges of the
ends (`build_spec`).
-/

namespace Cgir.Pass.Batch

open Relation
open Cgir.Library
open Cgir.Model

/-! ## Fresh objects -/

/-- The entry of the sub-graph of the island materialized at a position. -/
def entryAt (heap : Heap) (position : Nat) : NodeId :=
  heap.nodeCount + 3 * position

/-- The exit of the sub-graph of the island materialized at a position. -/
def exitAt (heap : Heap) (position : Nat) : NodeId :=
  heap.nodeCount + 3 * position + 1

/-- The batch node of the island materialized at a position. -/
def batchAt (heap : Heap) (position : Nat) : NodeId :=
  heap.nodeCount + 3 * position + 2

/-- The sub-graph of the island materialized at a position. -/
def subAt (heap : Heap) (position : Nat) : GraphId :=
  heap.graphCount + position

/-- The record of the island materialized at a position. -/
def islandAt (heap : Heap) (position : Nat) : IslandMat where
  sub := subAt heap position
  sEntry := entryAt heap position
  sExit := exitAt heap position

section Fresh

variable {heap : Heap} {p q : Nat}

theorem entryAt_inj : entryAt heap p = entryAt heap q ↔ p = q := by
  unfold entryAt
  show (_ : Nat) = _ ↔ _
  omega

theorem exitAt_inj : exitAt heap p = exitAt heap q ↔ p = q := by
  unfold exitAt
  show (_ : Nat) = _ ↔ _
  omega

theorem batchAt_inj : batchAt heap p = batchAt heap q ↔ p = q := by
  unfold batchAt
  show (_ : Nat) = _ ↔ _
  omega

theorem subAt_inj : subAt heap p = subAt heap q ↔ p = q :=
  Nat.add_left_cancel_iff

theorem entryAt_ne_exitAt : entryAt heap p ≠ exitAt heap q := by
  unfold entryAt exitAt
  show ¬ (_ : Nat) = _
  omega

theorem entryAt_ne_batchAt : entryAt heap p ≠ batchAt heap q := by
  unfold entryAt batchAt
  show ¬ (_ : Nat) = _
  omega

theorem exitAt_ne_batchAt : exitAt heap p ≠ batchAt heap q := by
  unfold exitAt batchAt
  show ¬ (_ : Nat) = _
  omega

theorem entryAt_ge : heap.nodeCount ≤ entryAt heap p := by
  unfold entryAt
  show heap.nodeCount ≤ (_ : Nat)
  omega

theorem exitAt_ge : heap.nodeCount ≤ exitAt heap p := by
  unfold exitAt
  show heap.nodeCount ≤ (_ : Nat)
  omega

theorem batchAt_ge : heap.nodeCount ≤ batchAt heap p := by
  unfold batchAt
  show heap.nodeCount ≤ (_ : Nat)
  omega

end Fresh

/-! ## Materialization -/

/-- An island is batched when it has two commands. -/
def isBatched (iterators : Iterators) (members : Nat → List NodeId)
    (key : Nat) : Bool :=
  2 ≤ (members key).countP (isCommand iterators.heap)

theorem isBatched_iff {iterators : Iterators} {members : Nat → List NodeId}
    {key : Nat} :
    isBatched iterators members key ↔
      2 ≤ (members key).countP (isCommand iterators.heap) :=
  decide_eq_true_iff

/-- A batched island has a member. -/
theorem ne_nil_of_isBatched {iterators : Iterators}
    {members : Nat → List NodeId} {key : Nat}
    (batched : isBatched iterators members key) : members key ≠ [] := by
  intro empty
  have enough := isBatched_iff.mp batched
  rw [empty, List.countP_nil] at enough
  omega

/-- The node is a member of the island materialized at a position. -/
def InBatch (members : Nat → List NodeId) (plan : List Nat) (position : Nat)
    (node : NodeId) : Prop :=
  ∃ key, plan[position]? = some key ∧ node ∈ members key

/-- The islands `plan` have been materialized in this order. -/
structure Materializes (iterators : Iterators) (members : Nat → List NodeId)
    (plan : List Nat) (state : Materialized) : Prop where
  nodeCount_eq :
    state.heap.nodeCount = iterators.heap.nodeCount + 3 * plan.length
  graphCount_eq :
    state.heap.graphCount = iterators.heap.graphCount + plan.length
  nodes_old : ∀ node < iterators.heap.nodeCount,
    state.heap.nodes node = iterators.heap.nodes node
  graphs_old : ∀ graph < iterators.heap.graphCount,
    state.heap.graphs graph = iterators.heap.graphs graph
  nodes_end : ∀ p < plan.length,
    state.heap.nodes (entryAt iterators.heap p) =
        CommandGraphNode.new unspecifiedDeviceUniqueId .empty ∧
      state.heap.nodes (exitAt iterators.heap p) =
        CommandGraphNode.new unspecifiedDeviceUniqueId .empty
  nodes_batch : ∀ p key, plan[p]? = some key →
    state.heap.nodes (batchAt iterators.heap p) =
      { CommandGraphNode.new (islandDevice iterators key (members key))
          .command with
        command := some (.batch (subAt iterators.heap p)) }
  graphs_sub : ∀ p < plan.length,
    state.heap.graphs (subAt iterators.heap p) =
      { entry := entryAt iterators.heap p
        exit := exitAt iterators.heap p
        walkId := 0
        isSequence := false }
  rep_batch : ∀ p node, InBatch members plan p node →
    state.rep (iterators.index node) = batchAt iterators.heap p
  rep_other : ∀ node ∈ iterators.nodes,
    (∀ p, ¬ InBatch members plan p node) →
      state.rep (iterators.index node) = node
  mat_eq : state.mat =
    plan.mapIdx fun p key => (key, islandAt iterators.heap p)

theorem inBatch_concat {members : Nat → List NodeId} {plan : List Nat}
    {key p : Nat} {node : NodeId} :
    InBatch members (plan ++ [key]) p node ↔
      InBatch members plan p node ∨
        (p = plan.length ∧ node ∈ members key) := by
  unfold InBatch
  rcases Nat.lt_trichotomy p plan.length with before | rfl | after
  · rw [List.getElem?_append_left before]
    have apart : p ≠ plan.length := Nat.ne_of_lt before
    simp [apart]
  · simp
  · have apart : p ≠ plan.length := Nat.ne_of_gt after
    have outside : (plan ++ [key]).length ≤ p := by
      rw [List.length_append]
      exact after
    simp [List.getElem?_eq_none after.le, List.getElem?_eq_none outside,
      apart]

section Materialization

variable {iterators : Iterators} {members : Nat → List NodeId}

/-- The objects that one materialization allocates. -/
private theorem materialize_heap {key : Nat}
    (batched : isBatched iterators members key) (state : Materialized) :
    (materialize iterators members state key).heap.nodeCount =
        state.heap.nodeCount + 3 ∧
      (materialize iterators members state key).heap.graphCount =
        state.heap.graphCount + 1 ∧
      (∀ graph,
        (materialize iterators members state key).heap.graphs graph =
          if graph = state.heap.graphCount then
            { entry := state.heap.nodeCount
              exit := state.heap.nodeCount + 1
              walkId := 0
              isSequence := false }
          else
            state.heap.graphs graph) ∧
      ∀ node,
        (materialize iterators members state key).heap.nodes node =
          if node = state.heap.nodeCount + 2 then
            { CommandGraphNode.new (islandDevice iterators key (members key))
                .command with
              command := some (.batch state.heap.graphCount) }
          else if node = state.heap.nodeCount ∨
              node = state.heap.nodeCount + 1 then
            CommandGraphNode.new unspecifiedDeviceUniqueId .empty
          else
            state.heap.nodes node := by
  have enough := Nat.not_lt.mpr (isBatched_iff.mp batched)
  have first : state.heap.nodeCount ≠ state.heap.nodeCount + 1 := by omega
  have second : state.heap.nodeCount ≠ state.heap.nodeCount + 2 := by omega
  rw [materialize, if_neg enough]
  refine ⟨rfl, rfl, ?_, ?_⟩
  · intro graph
    simp only [Heap.setCommand, Heap.updateNode_graphs,
      Heap.commandGraphNodeNew_graphs, Heap.setPredecessors,
      Heap.setSuccessors]
    exact Heap.commandGraphNew_none_graphs graph
  · intro node
    by_cases isBatch : node = state.heap.nodeCount + 2
    · subst isBatch
      simp [Heap.setCommand, Heap.setPredecessors, Heap.setSuccessors]
    · by_cases isEntry : node = state.heap.nodeCount
      · subst isEntry
        simp [Heap.setCommand, Heap.setPredecessors, Heap.setSuccessors,
          Heap.commandGraphNew_none_nodes, Heap.commandGraphNew_none_graphs,
          CommandGraphNode.new]
      · by_cases isExit : node = state.heap.nodeCount + 1
        · subst isExit
          simp [Heap.setCommand, Heap.setPredecessors, Heap.setSuccessors,
            Heap.commandGraphNew_none_nodes, Heap.commandGraphNew_none_graphs,
            CommandGraphNode.new]
        · simp [Heap.setCommand, Heap.setPredecessors, Heap.setSuccessors,
            Heap.commandGraphNew_none_nodes, Heap.commandGraphNew_none_graphs,
            isBatch, isEntry, isExit]

private theorem mark_members (index : NodeId → Nat) (batch : NodeId)
    (list : List NodeId) (rep : Nat → NodeId) (i : Nat) :
    list.foldl (fun rep m => Function.update rep (index m) batch) rep i =
      if i ∈ list.map index then batch else rep i := by
  induction list generalizing rep with
  | nil => simp
  | cons m rest induction =>
      rw [List.foldl_cons, induction, Function.update_apply]
      by_cases here : i = index m
      · simp [here]
      · simp [here]

private theorem materialize_rep {key : Nat}
    (batched : isBatched iterators members key) (state : Materialized) :
    (∀ i,
      (materialize iterators members state key).rep i =
        if i ∈ (members key).map iterators.index then
          state.heap.nodeCount + 2
        else
          state.rep i) ∧
      (materialize iterators members state key).mat =
        state.mat ++ [(key,
          { sub := state.heap.graphCount
            sEntry := state.heap.nodeCount
            sExit := state.heap.nodeCount + 1 })] := by
  have enough := Nat.not_lt.mpr (isBatched_iff.mp batched)
  rw [materialize, if_neg enough]
  constructor
  · intro i
    exact mark_members iterators.index _ (members key) state.rep i
  · simp [Heap.commandGraphNew_none_graphs]

variable {islands : Islands} {plan : List Nat} {state : Materialized}

/-- One batched island is appended to the plan. -/
private theorem Materializes.append (valid : iterators.Valid)
    (detected : Detected iterators.heap iterators.graph islands)
    (materializes : Materializes iterators islands.members plan state)
    {key : Nat} (batched : isBatched iterators islands.members key)
    (fresh : key ∉ plan) :
    Materializes iterators islands.members (plan ++ [key])
      (materialize iterators islands.members state key) := by
  obtain ⟨nodeCount, graphCount, graphs, nodes⟩ :=
    materialize_heap batched state
  obtain ⟨rep, mat⟩ := materialize_rep batched state
  have entryEq :
      state.heap.nodeCount = entryAt iterators.heap plan.length :=
    materializes.nodeCount_eq
  have exitEq :
      state.heap.nodeCount + 1 = exitAt iterators.heap plan.length :=
    congrArg (· + 1) materializes.nodeCount_eq
  have batchEq :
      state.heap.nodeCount + 2 = batchAt iterators.heap plan.length :=
    congrArg (· + 2) materializes.nodeCount_eq
  have subEq : state.heap.graphCount = subAt iterators.heap plan.length :=
    materializes.graphCount_eq
  simp only [batchEq, exitEq] at nodes graphs rep mat
  simp only [entryEq, subEq] at nodes graphs rep mat
  have inside : ∀ {p}, p < (plan ++ [key]).length →
      p < plan.length ∨ p = plan.length := by
    intro p bound
    rw [List.length_append, List.length_singleton] at bound
    omega
  refine
    { nodeCount_eq := ?_
      graphCount_eq := ?_
      nodes_old := ?_
      graphs_old := ?_
      nodes_end := ?_
      nodes_batch := ?_
      graphs_sub := ?_
      rep_batch := ?_
      rep_other := ?_
      mat_eq := ?_ }
  · rw [nodeCount, materializes.nodeCount_eq, List.length_append,
      List.length_singleton]
    omega
  · rw [graphCount, materializes.graphCount_eq, List.length_append,
      List.length_singleton]
    omega
  · intro node old
    have notBatch : node ≠ batchAt iterators.heap plan.length :=
      (Nat.lt_of_lt_of_le old batchAt_ge).ne
    have notEntry : node ≠ entryAt iterators.heap plan.length :=
      (Nat.lt_of_lt_of_le old entryAt_ge).ne
    have notExit : node ≠ exitAt iterators.heap plan.length :=
      (Nat.lt_of_lt_of_le old exitAt_ge).ne
    rw [nodes, if_neg notBatch, if_neg (by simp [notEntry, notExit]),
      materializes.nodes_old node old]
  · intro graph old
    have notSub : graph ≠ subAt iterators.heap plan.length :=
      (Nat.lt_of_lt_of_le old (Nat.le_add_right _ _)).ne
    rw [graphs, if_neg notSub, materializes.graphs_old graph old]
  · intro p bound
    rw [nodes, nodes, if_neg entryAt_ne_batchAt, if_neg exitAt_ne_batchAt]
    rcases inside bound with before | rfl
    · obtain ⟨entry, exit⟩ := materializes.nodes_end p before
      constructor
      · split
        · rfl
        · exact entry
      · split
        · rfl
        · exact exit
    · rw [if_pos (Or.inl rfl), if_pos (Or.inr rfl)]
      exact ⟨rfl, rfl⟩
  · intro p k position
    rw [nodes]
    rcases Nat.lt_trichotomy p plan.length with before | rfl | after
    · rw [List.getElem?_append_left before] at position
      rw [if_neg (by simp [batchAt_inj, before.ne]),
        if_neg (by simp [Ne.symm entryAt_ne_batchAt,
          Ne.symm exitAt_ne_batchAt]),
        materializes.nodes_batch p k position]
    · rw [List.getElem?_concat_length, Option.some.injEq] at position
      rw [if_pos rfl, position]
    · have outside : (plan ++ [key]).length ≤ p := by
        rw [List.length_append]
        exact after
      rw [List.getElem?_eq_none outside] at position
      exact (Option.some_ne_none _ position.symm).elim
  · intro p bound
    rw [graphs]
    rcases inside bound with before | rfl
    · rw [if_neg (by simp [subAt, before.ne]),
        materializes.graphs_sub p before]
    · rw [if_pos rfl]
  · intro p node member
    rw [rep]
    rcases inBatch_concat.mp member with ⟨k, position, old⟩ | ⟨rfl, new⟩
    · rw [if_neg, materializes.rep_batch p node ⟨k, position, old⟩]
      intro marked
      obtain ⟨m, new, same⟩ := List.mem_map.mp marked
      have mMember := (valid.mem_iff m).mpr (detected.candidate new).1
      have oldMember := (valid.mem_iff node).mpr (detected.candidate old).1
      have equal : m = node := by
        rw [← valid.node_index mMember, same, valid.node_index oldMember]
      subst equal
      have known := List.mem_of_getElem? position
      rw [detected.unique old new] at known
      exact fresh known
    · rw [if_pos (List.mem_map_of_mem new)]
  · intro node member outside
    rw [rep, if_neg, materializes.rep_other node member]
    · intro p old
      exact outside p (inBatch_concat.mpr (Or.inl old))
    · intro marked
      obtain ⟨m, new, same⟩ := List.mem_map.mp marked
      have mMember := (valid.mem_iff m).mpr (detected.candidate new).1
      have equal : m = node := by
        rw [← valid.node_index mMember, same, valid.node_index member]
      subst equal
      exact outside plan.length (inBatch_concat.mpr (Or.inr ⟨rfl, new⟩))
  · rw [mat, List.mapIdx_append, materializes.mat_eq]
    simp [islandAt]

/-- Materialization treats the batched islands in the given order. -/
theorem materialize_spec (valid : iterators.Valid)
    (detected : Detected iterators.heap iterators.graph islands)
    {order : List Nat} (nodup : order.Nodup) :
    Materializes iterators islands.members
      (order.filter (isBatched iterators islands.members))
      (order.foldl (materialize iterators islands.members)
        { heap := iterators.heap, rep := iterators.node, mat := [] }) := by
  refine
    Loop.foldl_invariant (materialize iterators islands.members)
      (fun done state =>
        Materializes iterators islands.members
          (done.filter (isBatched iterators islands.members)) state)
      order { heap := iterators.heap, rep := iterators.node, mat := [] }
      ?_ ?_
  · intro done key rest state split holds
    rw [split, List.nodup_middle, List.nodup_cons] at nodup
    rw [List.filter_append]
    by_cases batched : isBatched iterators islands.members key
    · rw [List.filter_singleton, batched]
      refine holds.append valid detected batched ?_
      intro known
      exact
        nodup.1
          (List.mem_append_left _ (List.mem_filter.mp known).1)
    · have few := Nat.not_le.mp (mt isBatched_iff.mpr batched)
      rw [List.filter_singleton, Bool.eq_false_iff.mpr batched,
        materialize, if_pos few]
      simpa using holds
  · exact
      { nodeCount_eq := rfl
        graphCount_eq := rfl
        nodes_old := fun _ _ => rfl
        graphs_old := fun _ _ => rfl
        nodes_end := by simp
        nodes_batch := by simp
        graphs_sub := by simp
        rep_batch := by simp [InBatch]
        rep_other := fun node member _ => valid.node_index member
        mat_eq := rfl }

end Materialization

/-! ## Representatives -/

/-- The representative of a node at the top level. -/
def block (iterators : Iterators) (state : Materialized) (node : NodeId) :
    NodeId :=
  if node ∈ iterators.nodes then state.rep (iterators.index node) else node

theorem block_of_mem {iterators : Iterators} {node : NodeId}
    (state : Materialized) (member : node ∈ iterators.nodes) :
    block iterators state node = state.rep (iterators.index node) :=
  if_pos member

/-- The nodes of the graph and the fresh nodes. -/
def Live (iterators : Iterators) (plan : List Nat) (node : NodeId) : Prop :=
  iterators.heap.Reachable iterators.graph node ∨
    (iterators.heap.nodeCount ≤ node ∧
      node < iterators.heap.nodeCount + 3 * plan.length)

/-- An edge between two members of one island, or a node and itself. -/
def Inside (iterators : Iterators) (state : Materialized)
    (source target : NodeId) : Prop :=
  iterators.heap.Link iterators.graph source target ∧
    block iterators state source = block iterators state target

/-- An edge between two different representatives. -/
abbrev Outside (iterators : Iterators) (state : Materialized) :
    NodeId → NodeId → Prop :=
  Digraph.Contract (iterators.heap.Link iterators.graph)
    (block iterators state)

section Rewiring

variable {iterators : Iterators} {members : Nat → List NodeId}
  {plan : List Nat} {state : Materialized} {node : NodeId}

theorem InBatch.lt {p : Nat} (member : InBatch members plan p node) :
    p < plan.length := by
  obtain ⟨key, position, -⟩ := member
  exact (List.getElem?_eq_some_iff.mp position).1

theorem live_batchAt {p : Nat} (bound : p < plan.length) :
    Live iterators plan (batchAt iterators.heap p) := by
  refine Or.inr ⟨batchAt_ge, ?_⟩
  unfold batchAt
  show (_ : Nat) < _
  omega

theorem live_entryAt {p : Nat} (bound : p < plan.length) :
    Live iterators plan (entryAt iterators.heap p) := by
  refine Or.inr ⟨entryAt_ge, ?_⟩
  unfold entryAt
  show (_ : Nat) < _
  omega

theorem live_exitAt {p : Nat} (bound : p < plan.length) :
    Live iterators plan (exitAt iterators.heap p) := by
  refine Or.inr ⟨exitAt_ge, ?_⟩
  unfold exitAt
  show (_ : Nat) < _
  omega

namespace Materializes

variable (materializes : Materializes iterators members plan state)

include materializes

theorem block_batch {p : Nat} (inNodes : node ∈ iterators.nodes)
    (member : InBatch members plan p node) :
    block iterators state node = batchAt iterators.heap p := by
  rw [block_of_mem state inNodes, materializes.rep_batch p node member]

theorem block_cases (member : node ∈ iterators.nodes) :
    (∃ p, InBatch members plan p node) ∨
      ((∀ p, ¬ InBatch members plan p node) ∧
        block iterators state node = node) := by
  by_cases batched : ∃ p, InBatch members plan p node
  · exact Or.inl batched
  · rw [not_exists] at batched
    refine Or.inr ⟨batched, ?_⟩
    rw [block_of_mem state member,
      materializes.rep_other node member batched]

/-- A representative that is no fresh node represents itself alone. -/
theorem eq_of_block_lt (member : node ∈ iterators.nodes)
    (old : block iterators state node < iterators.heap.nodeCount) :
    block iterators state node = node := by
  rcases materializes.block_cases member with ⟨p, batched⟩ | ⟨-, same⟩
  · rw [materializes.block_batch member batched] at old
    exact (Nat.not_lt.mpr batchAt_ge old).elim
  · exact same

theorem block_live (valid : iterators.Valid)
    (member : node ∈ iterators.nodes) :
    Live iterators plan (block iterators state node) := by
  rcases materializes.block_cases member with ⟨p, batched⟩ | ⟨-, same⟩
  · rw [materializes.block_batch member batched]
    exact live_batchAt batched.lt
  · rw [same]
    exact Or.inl ((valid.mem_iff node).mp member)

/-- After materialization the lists still represent the links. -/
theorem represents
    (formed : iterators.heap.WellFormed iterators.graph) :
    state.heap.Represents (Live iterators plan)
      (iterators.heap.Link iterators.graph) := by
  have kept : ∀ node, iterators.heap.Reachable iterators.graph node →
      state.heap.nodes node = iterators.heap.nodes node :=
    fun node reachable =>
      materializes.nodes_old node (formed.allocated node reachable)
  have old :
      state.heap.Represents (iterators.heap.Reachable iterators.graph)
        (iterators.heap.Link iterators.graph) :=
    formed.represents.congr_lists
      (fun node reachable => by simp only [Heap.successors, kept node reachable])
      (fun node reachable => by
        simp only [Heap.predecessors, kept node reachable])
  refine old.extend (fun _ => Or.inl) ?_
  rintro node (reachable | ⟨low, high⟩) fresh
  · exact (fresh reachable).elim
  -- A fresh node is an end or the batch node of one of the islands.
  obtain ⟨offset, rfl⟩ := Nat.exists_eq_add_of_le low
  have bound : offset / 3 < plan.length := by
    have := Nat.lt_of_add_lt_add_left high
    omega
  have cases :
      iterators.heap.nodeCount + offset =
          entryAt iterators.heap (offset / 3) ∨
        iterators.heap.nodeCount + offset =
            exitAt iterators.heap (offset / 3) ∨
          iterators.heap.nodeCount + offset =
            batchAt iterators.heap (offset / 3) := by
    unfold entryAt exitAt batchAt
    show (_ : Nat) = _ ∨ (_ : Nat) = _ ∨ (_ : Nat) = _
    omega
  unfold Heap.successors Heap.predecessors
  rcases cases with isEntry | isExit | isBatch
  · rw [isEntry, (materializes.nodes_end _ bound).1]
    exact ⟨rfl, rfl⟩
  · rw [isExit, (materializes.nodes_end _ bound).2]
    exact ⟨rfl, rfl⟩
  · rw [isBatch, materializes.nodes_batch _ _ (List.getElem?_eq_getElem bound)]
    exact ⟨rfl, rfl⟩

end Materializes

/-! ## Rewiring -/

/-- The edges while the rewiring has treated the edges `done`. -/
private def Moved (iterators : Iterators) (state : Materialized)
    (done : List (NodeId × NodeId)) (source target : NodeId) : Prop :=
  (∃ u v, (u, v) ∈ done ∧
      block iterators state u ≠ block iterators state v ∧
      block iterators state u = source ∧ block iterators state v = target) ∨
    (iterators.heap.Link iterators.graph source target ∧
      (block iterators state source = block iterators state target ∨
        (source, target) ∉ done))

private theorem moved_append (done : List (NodeId × NodeId)) (u v : NodeId)
    (source target : NodeId) :
    Moved iterators state (done ++ [(u, v)]) source target ↔
      (block iterators state u ≠ block iterators state v ∧
        block iterators state u = source ∧
          block iterators state v = target) ∨
      (∃ u v, (u, v) ∈ done ∧
        block iterators state u ≠ block iterators state v ∧
        block iterators state u = source ∧
          block iterators state v = target) ∨
      (iterators.heap.Link iterators.graph source target ∧
        (block iterators state source = block iterators state target ∨
          ((source, target) ∉ done ∧ ¬ (source = u ∧ target = v)))) := by
  unfold Moved
  simp only [List.mem_append, List.mem_singleton, Prod.mk.injEq, not_or]
  constructor
  · rintro (⟨u', v', known | ⟨rfl, rfl⟩, rest⟩ | link)
    · exact Or.inr (Or.inl ⟨u', v', known, rest⟩)
    · exact Or.inl rest
    · exact Or.inr (Or.inr link)
  · rintro (rest | ⟨u', v', known, rest⟩ | link)
    · exact Or.inl ⟨u, v, Or.inr ⟨rfl, rfl⟩, rest⟩
    · exact Or.inl ⟨u', v', Or.inl known, rest⟩
    · exact Or.inr link

/-- One edge is moved to the representatives of its ends. -/
private theorem rewire_edge (valid : iterators.Valid)
    (formed : iterators.heap.WellFormed iterators.graph)
    (materializes : Materializes iterators members plan state)
    {done : List (NodeId × NodeId)} {heap : Heap} {u v : NodeId}
    (edge : iterators.heap.Link iterators.graph u v)
    (earlier : ∀ u v, (u, v) ∈ done →
      iterators.heap.Link iterators.graph u v)
    (represents : heap.Represents (Live iterators plan)
      (Moved iterators state done)) :
    (rewireEdge iterators state.rep heap (u, v)).Represents
      (Live iterators plan) (Moved iterators state (done ++ [(u, v)])) := by
  have uMember := (valid.mem_iff u).mpr edge.1
  have vMember := (valid.mem_iff v).mpr edge.reachable
  have uLive := materializes.block_live valid uMember
  have vLive := materializes.block_live valid vMember
  have unfolded : rewireEdge iterators state.rep heap (u, v) =
      if block iterators state u = block iterators state v then heap
      else if block iterators state u = u && block iterators state v = v then
        heap
      else if block iterators state v ∈
          (heap.detach u v).successors (block iterators state u) then
        heap.detach u v
      else
        (heap.detach u v).precedes (block iterators state u)
          (block iterators state v) := by
    rw [block_of_mem state uMember, block_of_mem state vMember]
    rfl
  rw [unfolded]
  by_cases same : block iterators state u = block iterators state v
  · rw [if_pos same]
    refine represents.congr_edge fun source target => ?_
    rw [moved_append]
    unfold Moved
    constructor
    · rintro (⟨apart, -⟩ | old | ⟨link, cases⟩)
      · exact (apart same).elim
      · exact Or.inl old
      · exact Or.inr ⟨link, cases.imp_right And.left⟩
    · rintro (old | ⟨link, cases⟩)
      · exact Or.inr (Or.inl old)
      · refine Or.inr (Or.inr ⟨link, ?_⟩)
        by_cases here : source = u ∧ target = v
        · obtain ⟨rfl, rfl⟩ := here
          exact Or.inl same
        · exact cases.imp_right fun fresh => ⟨fresh, here⟩
  rw [if_neg same]
  by_cases fixed : block iterators state u = u ∧ block iterators state v = v
  · rw [if_pos (by simpa using fixed)]
    refine represents.congr_edge fun source target => ?_
    rw [moved_append]
    unfold Moved
    constructor
    · rintro (⟨-, rfl, rfl⟩ | old | ⟨link, cases⟩)
      · rw [fixed.1, fixed.2]
        by_cases known : (u, v) ∈ done
        · exact Or.inl ⟨u, v, known, same, fixed⟩
        · exact Or.inr ⟨edge, Or.inr known⟩
      · exact Or.inl old
      · exact Or.inr ⟨link, cases.imp_right And.left⟩
    · rintro (old | ⟨link, cases⟩)
      · exact Or.inr (Or.inl old)
      · by_cases here : source = u ∧ target = v
        · obtain ⟨rfl, rfl⟩ := here
          exact Or.inl ⟨same, fixed⟩
        · exact
            Or.inr (Or.inr
              ⟨link, cases.imp_right fun fresh => ⟨fresh, here⟩⟩)
  rw [if_neg (by simpa using fixed)]
  -- A moved edge is not the image of another edge, as it has a batched end.
  have unmapped : ¬ ∃ u' v', (u', v') ∈ done ∧
      block iterators state u' ≠ block iterators state v' ∧
      block iterators state u' = u ∧ block iterators state v' = v := by
    rintro ⟨u', v', known, -, uEq, vEq⟩
    have edge' := earlier u' v' known
    have uSelf :=
      materializes.eq_of_block_lt ((valid.mem_iff u').mpr edge'.1)
        (uEq ▸ formed.allocated u edge.1)
    have vSelf :=
      materializes.eq_of_block_lt ((valid.mem_iff v').mpr edge'.reachable)
        (vEq ▸ formed.allocated v edge.reachable)
    rw [uSelf] at uEq
    rw [vSelf] at vEq
    subst uEq vEq
    exact fixed ⟨uSelf, vSelf⟩
  have detached := represents.detach u v
  have moved : ∀ source target,
      Moved iterators state (done ++ [(u, v)]) source target ↔
        (Moved iterators state done source target ∧
          ¬ (source = u ∧ target = v)) ∨
        (source = block iterators state u ∧
          target = block iterators state v) := by
    intro source target
    rw [moved_append]
    unfold Moved
    constructor
    · rintro (⟨-, rfl, rfl⟩ | old | ⟨link, cases⟩)
      · exact Or.inr ⟨rfl, rfl⟩
      · refine Or.inl ⟨Or.inl old, ?_⟩
        rintro ⟨rfl, rfl⟩
        exact unmapped old
      · refine Or.inl ⟨Or.inr ⟨link, cases.imp_right And.left⟩, ?_⟩
        rintro ⟨rfl, rfl⟩
        rcases cases with equal | ⟨-, here⟩
        · exact same equal
        · exact here ⟨rfl, rfl⟩
    · rintro (⟨old | ⟨link, cases⟩, here⟩ | ⟨rfl, rfl⟩)
      · exact Or.inr (Or.inl old)
      · exact
          Or.inr (Or.inr ⟨link, cases.imp_right fun fresh => ⟨fresh, here⟩⟩)
      · exact Or.inl ⟨same, rfl, rfl⟩
  split
  · rename_i present
    rw [detached.mem_successors _ uLive] at present
    refine detached.congr_edge fun source target => ?_
    rw [moved]
    constructor
    · rintro (old | ⟨rfl, rfl⟩)
      · exact old
      · exact present
    · exact Or.inl
  · rename_i absent
    rw [detached.mem_successors _ uLive] at absent
    exact (detached.precedes uLive vLive absent).congr_edge moved

theorem rewireEdge_unlinked (rep : Nat → NodeId) (heap : Heap)
    (edge : NodeId × NodeId) :
    (rewireEdge iterators rep heap edge).unlinked = heap.unlinked := by
  simp only [rewireEdge]
  split
  · rfl
  · split
    · rfl
    · split
      · exact Heap.detach_unlinked _ _
      · rw [Heap.precedes_unlinked, Heap.detach_unlinked]

/-- Rewiring contracts the links, and keeps the links within an island. -/
theorem rewire_spec (valid : iterators.Valid)
    (formed : iterators.heap.WellFormed iterators.graph)
    (materializes : Materializes iterators members plan state) :
    let heap := (edges state.heap iterators.nodes).foldl
      (rewireEdge iterators state.rep) state.heap
    heap.Represents (Live iterators plan)
        (fun source target => Outside iterators state source target ∨
          Inside iterators state source target) ∧
      heap.unlinked = state.heap.unlinked := by
  intro heap
  have edgeIff : ∀ u v, (u, v) ∈ edges state.heap iterators.nodes ↔
      iterators.heap.Link iterators.graph u v := by
    intro u v
    have initial := materializes.represents formed
    simp only [edges, List.mem_flatMap, List.mem_map, Prod.mk.injEq]
    constructor
    · rintro ⟨w, member, next, known, rfl, rfl⟩
      have reachable := (valid.mem_iff w).mp member
      exact (initial.mem_successors w (Or.inl reachable) next).mp known
    · intro link
      exact
        ⟨u, (valid.mem_iff u).mpr link.1, v,
          (initial.mem_successors u (Or.inl link.1) v).mpr link, rfl, rfl⟩
  have final :=
    Loop.foldl_invariant (rewireEdge iterators state.rep)
      (fun done heap =>
        heap.Represents (Live iterators plan)
            (Moved iterators state done) ∧
          heap.unlinked = state.heap.unlinked)
      (edges state.heap iterators.nodes) state.heap
      (by
        rintro done ⟨u, v⟩ rest heap split ⟨represents, unlinked⟩
        refine ⟨?_, ?_⟩
        · refine rewire_edge valid formed materializes ?_ ?_ represents
          · rw [← edgeIff, split]
            simp
          · intro u' v' known
            rw [← edgeIff, split]
            exact List.mem_append_left _ known
        · rw [rewireEdge_unlinked, unlinked])
      ⟨(materializes.represents formed).congr_edge fun source target => by
          simp [Moved], rfl⟩
  refine ⟨final.1.congr_edge fun source target => ?_, final.2⟩
  constructor
  · rintro (⟨apart, u, v, link, rfl, rfl⟩ | ⟨link, same⟩)
    · exact Or.inl ⟨u, v, (edgeIff u v).mpr link, apart, rfl, rfl⟩
    · exact Or.inr ⟨link, Or.inl same⟩
  · rintro (⟨u, v, known, apart, rfl, rfl⟩ | ⟨link, same | fresh⟩)
    · exact Or.inl ⟨apart, u, v, (edgeIff u v).mp known, rfl, rfl⟩
    · exact Or.inr ⟨link, same⟩
    · exact (fresh ((edgeIff source target).mpr link)).elim

/-! ## Connecting the ends -/

/-- An edge to a source of an island or from a sink of an island. -/
def Connects (iterators : Iterators) (state : Materialized)
    (island : IslandMat × NodeId) (source target : NodeId) : Prop :=
  (source = island.1.sEntry ∧ target = island.2 ∧
      ∀ pred, ¬ Inside iterators state pred island.2) ∨
    (source = island.2 ∧ target = island.1.sExit ∧
      ∀ next, ¬ Inside iterators state island.2 next)

/-- The member is in the batch with these ends. -/
def Joined (iterators : Iterators) (members : Nat → List NodeId)
    (plan : List Nat) (island : IslandMat × NodeId) : Prop :=
  ∃ p, InBatch members plan p island.2 ∧
    island.1 = islandAt iterators.heap p

section Connecting

variable {done : List (IslandMat × NodeId)} {heap : Heap}
  {island : IslandMat × NodeId}

/-- The edges while the ends of the members `done` are connected. -/
private def Connected (iterators : Iterators) (state : Materialized)
    (done : List (IslandMat × NodeId)) (source target : NodeId) : Prop :=
  (Outside iterators state source target ∨
      Inside iterators state source target) ∨
    ∃ island ∈ done, Connects iterators state island source target

/-- No contracted edge touches a member of a batch. -/
private theorem outside_not_member (valid : iterators.Valid)
    (formed : iterators.heap.WellFormed iterators.graph)
    (materializes : Materializes iterators members plan state)
    {p : Nat} (member : InBatch members plan p node)
    (reachable : iterators.heap.Reachable iterators.graph node)
    (other : NodeId) :
    ¬ Outside iterators state node other ∧
      ¬ Outside iterators state other node := by
  have never : ∀ {image : NodeId}, image ∈ iterators.nodes →
      block iterators state image ≠ node := by
    intro image imageMember equal
    have old := formed.allocated node reachable
    have self := materializes.eq_of_block_lt imageMember (equal ▸ old)
    rw [self] at equal
    subst equal
    rw [materializes.block_batch imageMember member] at self
    rw [← self] at old
    exact Nat.not_lt.mpr batchAt_ge old
  constructor
  · rintro ⟨-, from', to', link, fromEq, -⟩
    exact never ((valid.mem_iff _).mpr link.1) fromEq
  · rintro ⟨-, from', to', link, -, toEq⟩
    exact never ((valid.mem_iff _).mpr link.reachable) toEq

private theorem connected_append (source target : NodeId) :
    Connected iterators state (done ++ [island]) source target ↔
      Connected iterators state done source target ∨
        Connects iterators state island source target := by
  simp [Connected, or_and_right, exists_or, or_assoc]

/-- An unconnected member has neighbours inside its island only. -/
private theorem connected_around
    (earlier : ∀ other ∈ done, Joined iterators members plan other)
    (fresh : ∀ other ∈ done, other.2 ≠ node)
    (old : node < iterators.heap.nodeCount)
    (notOut : ∀ other, ¬ Outside iterators state node other)
    (notIn : ∀ other, ¬ Outside iterators state other node) :
    (∀ pred, Connected iterators state done pred node ↔
        Inside iterators state pred node) ∧
      ∀ next, Connected iterators state done node next ↔
        Inside iterators state node next := by
  constructor
  · intro pred
    constructor
    · rintro ((out | inner) | ⟨other, known, connects⟩)
      · exact (notIn pred out).elim
      · exact inner
      · obtain ⟨q, -, ends⟩ := earlier other known
        rcases connects with ⟨-, isMember, -⟩ | ⟨-, isExit, -⟩
        · exact (fresh other known isMember.symm).elim
        · rw [ends] at isExit
          exact (Nat.not_lt.mpr exitAt_ge (isExit ▸ old)).elim
    · exact fun inner => Or.inl (Or.inr inner)
  · intro next
    constructor
    · rintro ((out | inner) | ⟨other, known, connects⟩)
      · exact (notOut next out).elim
      · exact inner
      · obtain ⟨q, -, ends⟩ := earlier other known
        rcases connects with ⟨isEntry, -, -⟩ | ⟨isMember, -, -⟩
        · rw [ends] at isEntry
          exact (Nat.not_lt.mpr entryAt_ge (isEntry ▸ old)).elim
        · exact (fresh other known isMember.symm).elim
    · exact fun inner => Or.inl (Or.inr inner)

/-- Connect one member. -/
private theorem connect_member (valid : iterators.Valid)
    (formed : iterators.heap.WellFormed iterators.graph)
    (materializes : Materializes iterators members plan state)
    (inNodes : ∀ {p node}, InBatch members plan p node →
      iterators.heap.Reachable iterators.graph node)
    (joined : Joined iterators members plan island)
    (earlier : ∀ other ∈ done, Joined iterators members plan other)
    (fresh : ∀ other ∈ done, other.2 ≠ island.2)
    (represents : heap.Represents (Live iterators plan)
      (Connected iterators state done)) :
    (connectMember island.1 heap island.2).Represents (Live iterators plan)
      (Connected iterators state (done ++ [island])) := by
  obtain ⟨p, member, ends⟩ := joined
  obtain ⟨ends', node⟩ := island
  dsimp only at member ends fresh ⊢
  subst ends
  have reachable := inNodes member
  have old := formed.allocated node reachable
  have entryApart : node ≠ entryAt iterators.heap p :=
    (Nat.lt_of_lt_of_le old entryAt_ge).ne
  have exitApart : node ≠ exitAt iterators.heap p :=
    (Nat.lt_of_lt_of_le old exitAt_ge).ne
  have outside := outside_not_member valid formed materializes member reachable
  have around := connected_around earlier fresh old
    (fun other => (outside other).1) (fun other => (outside other).2)
  have nodeLive : Live iterators plan node := Or.inl reachable
  have noPred : heap.predecessors node = [] ↔
      ∀ pred, ¬ Inside iterators state pred node := by
    rw [represents.predecessors_nil_iff nodeLive]
    simp only [around.1]
  -- First the edge from the entry, then the edge to the exit.
  have entered :=
    represents.precedes_if (live_entryAt member.lt) nodeLive
      (fun empty => (represents.predecessors_nil_iff nodeLive).mp empty _)
  obtain ⟨middle, middleEq⟩ :
      ∃ middle, middle = if heap.predecessors node = [] then
        heap.precedes (entryAt iterators.heap p) node else heap := ⟨_, rfl⟩
  rw [← middleEq] at entered
  have unfolded : connectMember (islandAt iterators.heap p) heap node =
      if middle.successors node = [] then
        middle.precedes node (exitAt iterators.heap p)
      else middle := by
    rw [middleEq]
    rfl
  have noSucc : middle.successors node = [] ↔
      ∀ next, ¬ Inside iterators state node next := by
    rw [entered.successors_nil_iff nodeLive]
    simp [around.2, entryApart]
  have left :=
    entered.precedes_if nodeLive (live_exitAt member.lt)
      (fun empty => (entered.successors_nil_iff nodeLive).mp empty _)
  rw [unfolded]
  refine left.congr_edge fun source target => ?_
  rw [noPred, noSucc, connected_append, or_assoc]
  rfl

theorem connectMember_unlinked (ends : IslandMat) (heap : Heap)
    (node : NodeId) :
    (connectMember ends heap node).unlinked = heap.unlinked := by
  simp only [connectMember]
  split <;> split <;> simp only [Heap.precedes_unlinked]

end Connecting

/-- The edges that the pass leaves. -/
def Built (iterators : Iterators) (members : Nat → List NodeId)
    (plan : List Nat) (state : Materialized) (source target : NodeId) :
    Prop :=
  (Outside iterators state source target ∨
      Inside iterators state source target) ∨
    ∃ p node, InBatch members plan p node ∧
      Connects iterators state (islandAt iterators.heap p, node) source target

/-- The members of the materialized islands, with the ends they get. -/
private def joinedMembers (members : Nat → List NodeId)
    (mat : List (Nat × IslandMat)) : List (IslandMat × NodeId) :=
  mat.flatMap fun entry => (members entry.1).map fun node => (entry.2, node)

private theorem foldl_connectIsland (mat : List (Nat × IslandMat))
    (heap : Heap) :
    mat.foldl (connectIsland members) heap =
      (joinedMembers members mat).foldl
        (fun heap island => connectMember island.1 heap island.2) heap := by
  rw [joinedMembers, List.foldl_flatMap]
  simp only [List.foldl_map]
  rfl

/-- Every member is connected, once, to the ends of its own sub-graph. -/
private theorem joinedMembers_spec
    (materializes : Materializes iterators members plan state)
    (planNodup : plan.Nodup) (membersNodup : ∀ key, (members key).Nodup)
    (unique : ∀ {key key' node}, node ∈ members key →
      node ∈ members key' → key = key')
    {mat : List (Nat × IslandMat)} (perm : mat.Perm state.mat) :
    ((joinedMembers members mat).map Prod.snd).Nodup ∧
      (∀ island, island ∈ joinedMembers members mat ↔
        Joined iterators members plan island) := by
  constructor
  · have keys : (mat.map Prod.fst).Perm plan := by
      refine (perm.map Prod.fst).trans (.of_eq ?_)
      rw [materializes.mat_eq]
      apply List.ext_getElem?
      intro p
      simp [Function.comp_def]
    have nodes : (joinedMembers members mat).map Prod.snd =
        (mat.map Prod.fst).flatMap members := by
      simp [joinedMembers, List.map_flatMap, List.flatMap_map]
    rw [nodes, (keys.flatMap_right members).nodup_iff, List.nodup_flatMap]
    refine ⟨fun key _ => membersNodup key, planNodup.imp ?_⟩
    intro key key' apart node member member'
    exact apart (unique member member')
  · rintro ⟨ends, node⟩
    simp only [joinedMembers, List.mem_flatMap, List.mem_map,
      Prod.mk.injEq, perm.mem_iff, materializes.mat_eq, List.mem_mapIdx]
    constructor
    · rintro ⟨_, ⟨p, bound, rfl⟩, _, member, rfl, rfl⟩
      exact ⟨p, ⟨_, List.getElem?_eq_getElem bound, member⟩, rfl⟩
    · rintro ⟨p, ⟨key, position, member⟩, rfl⟩
      obtain ⟨bound, equal⟩ := List.getElem?_eq_some_iff.mp position
      exact
        ⟨_, ⟨p, bound, rfl⟩, node, by rw [equal]; exact member, rfl, rfl⟩

/-- Connecting adds the edges of the ends of the sub-graphs. -/
theorem connect_spec (valid : iterators.Valid)
    (formed : iterators.heap.WellFormed iterators.graph)
    (materializes : Materializes iterators members plan state)
    (inNodes : ∀ {p node}, InBatch members plan p node →
      iterators.heap.Reachable iterators.graph node)
    (planNodup : plan.Nodup) (membersNodup : ∀ key, (members key).Nodup)
    (unique : ∀ {key key' node}, node ∈ members key →
      node ∈ members key' → key = key')
    {mat : List (Nat × IslandMat)} (perm : mat.Perm state.mat)
    {heap : Heap}
    (represents : heap.Represents (Live iterators plan)
      (fun source target => Outside iterators state source target ∨
        Inside iterators state source target)) :
    (mat.foldl (connectIsland members) heap).Represents
        (Live iterators plan) (Built iterators members plan state) ∧
      (mat.foldl (connectIsland members) heap).unlinked =
        heap.unlinked := by
  obtain ⟨nodup, memIff⟩ :=
    joinedMembers_spec materializes planNodup membersNodup unique perm
  rw [foldl_connectIsland]
  have final :=
    Loop.foldl_invariant
      (fun heap (island : IslandMat × NodeId) =>
        connectMember island.1 heap island.2)
      (fun done heap' =>
        heap'.Represents (Live iterators plan)
            (Connected iterators state done) ∧
          heap'.unlinked = heap.unlinked)
      (joinedMembers members mat) heap
      (by
        rintro done island rest heap' split ⟨represents, unlinked⟩
        have joined : ∀ other ∈ done ++ island :: rest,
            Joined iterators members plan other :=
          fun other known => (memIff other).mp (split ▸ known)
        rw [split, List.map_append, List.map_cons, List.nodup_middle,
          List.nodup_cons] at nodup
        refine ⟨?_, by rw [connectMember_unlinked, unlinked]⟩
        refine connect_member valid formed materializes inNodes
          (joined island (by simp))
          (fun other known => joined other (List.mem_append_left _ known))
          ?_ represents
        intro other known equal
        exact
          nodup.1
            (List.mem_append_left _ (equal ▸ List.mem_map_of_mem known)))
      ⟨represents.congr_edge fun source target => by simp [Connected], rfl⟩
  refine ⟨final.1.congr_edge fun source target => ?_, final.2⟩
  refine or_congr_right ?_
  constructor
  · rintro ⟨p, node, member, connects⟩
    exact
      ⟨_, (memIff (islandAt iterators.heap p, node)).mpr
        ⟨p, member, rfl⟩, connects⟩
  · rintro ⟨⟨ends, node⟩, known, connects⟩
    obtain ⟨p, member, rfl⟩ := (memIff _).mp known
    exact ⟨p, node, member, connects⟩

end Rewiring

/-! ## The pass -/

/-- What a run of the pass found and built, up to the heap `after`. -/
structure Batched (heap after : Heap) (iterators : Iterators)
    (islands : Islands) (plan : List Nat) (state : Materialized) : Prop where
  iterated :
    heap.Iterated iterators.graph true iterators.heap iterators.nodes
  detected : Detected iterators.heap iterators.graph islands
  plan_nodup : plan.Nodup
  mem_plan_iff : ∀ key,
    key ∈ plan ↔ isBatched iterators islands.members key
  materializes : Materializes iterators islands.members plan state
  represents : after.Represents (Live iterators plan)
    (Built iterators islands.members plan state)
  unlinked_eq : after.unlinked = state.heap.unlinked

/-- A key of a batched island is a key of the map. -/
private theorem key_of_batched {iterators : Iterators} {islands : Islands}
    (detected : Detected iterators.heap iterators.graph islands) {key : Nat}
    (batched : isBatched iterators islands.members key) :
    key ∈ islands.keys := by
  obtain ⟨node, member⟩ :=
    List.exists_mem_of_ne_nil _ (ne_nil_of_isBatched batched)
  exact detected.key_of_mem member

/-- Without an inner node nothing is a candidate. -/
private theorem no_candidate {heap : Heap} {graph : GraphId}
    (formed : heap.WellFormed graph) {nodes : List NodeId}
    (memIff : ∀ node, node ∈ nodes ↔ heap.Reachable graph node)
    (few : nodes.length ≤ 2) (node : NodeId) :
    ¬ (scene heap graph).candidate node := by
  rintro ⟨reachable, inner⟩
  simp only [boundary, Bool.or_eq_false_iff, decide_eq_false_iff_not]
    at inner
  have notEntry := inner.1.1.1
  have notExit := inner.1.1.2
  by_cases equal : (heap.graphs graph).entry = (heap.graphs graph).exit
  · rcases ReflTransGen.cases_head reachable with isEntry | ⟨next, step, -⟩
    · exact notEntry isEntry.symm
    · change next ∈ heap.successors _ at step
      rw [equal, formed.successors_exit] at step
      exact List.not_mem_nil step
  · have three :
        [node, (heap.graphs graph).entry, (heap.graphs graph).exit].Nodup := by
      simp [notEntry, notExit, equal]
    have subset :
        [node, (heap.graphs graph).entry, (heap.graphs graph).exit] ⊆
          nodes := by
      intro other member
      simp only [List.mem_cons, List.not_mem_nil, or_false] at member
      rw [memIff]
      rcases member with rfl | rfl | rfl
      · exact reachable
      · exact Heap.reachable_entry
      · exact formed.reachable_exit
    have many := (three.subperm subset).length_le
    simp only [List.length_cons, List.length_nil] at many
    omega

/-- The pass returns, and what it returns is built from the islands. -/
theorem passBatch_batched {heap : Heap} {graph : GraphId}
    (formed : heap.WellFormed graph) (ready : heap.WalkReady graph)
    {islandOrder : List Nat → List Nat}
    (islandPerm : ∀ list, (islandOrder list).Perm list)
    {matOrder : List (Nat × IslandMat) → List (Nat × IslandMat)}
    (matPerm : ∀ list, (matOrder list).Perm list) :
    ∃ after iterators islands plan state,
      passBatch islandOrder matOrder heap graph = some after ∧
        iterators.graph = graph ∧
          Batched heap after iterators islands plan state := by
  obtain ⟨indexed, nodes, made, iterated⟩ :=
    Heap.createNodeIterators_spec formed.allocated ready true
  let iterators : Iterators :=
    { heap := indexed, graph := graph, nodes := nodes }
  have valid : iterators.Valid := Iterators.valid_of_iterated iterated
  have formed' : indexed.WellFormed graph :=
    formed.congr iterated.unmarked_eq
  by_cases few : nodes.length ≤ 2
  · have none := no_candidate formed' valid.mem_iff few
    let islands : Islands := { keys := [], members := fun _ => [] }
    let state : Materialized :=
      { heap := indexed, rep := iterators.node, mat := [] }
    have detected : Detected indexed graph islands :=
      { keys_nodup := List.nodup_nil
        members_nodup := fun _ => List.nodup_nil
        key_of_mem := fun member => (List.not_mem_nil member).elim
        candidate := fun member => (List.not_mem_nil member).elim
        covered := fun candidate => (none _ candidate).elim
        unique := fun member => (List.not_mem_nil member).elim
        color_eq := fun member => (List.not_mem_nil member).elim
        connected := fun member => (List.not_mem_nil member).elim
        mem_iff := fun member => (List.not_mem_nil member).elim }
    have materializes : Materializes iterators islands.members [] state :=
      materialize_spec valid detected List.nodup_nil
    have alone : ∀ node, block iterators state node = node := by
      intro node
      by_cases member : node ∈ iterators.nodes
      · rw [block_of_mem state member]
        exact valid.node_index member
      · exact if_neg member
    refine ⟨indexed, iterators, islands, [], state, ?_, rfl, iterated,
      detected, List.nodup_nil, by simp [isBatched, islands], materializes,
      (materializes.represents formed').congr_edge ?_, rfl⟩
    · simp only [passBatch, made, Option.bind_eq_bind, Option.bind_some]
      rw [if_pos few]
      rfl
    · intro source target
      simp only [Built, Outside, Digraph.Contract, Inside, alone, InBatch]
      constructor
      · rintro ((⟨-, from', to', link, rfl, rfl⟩ | ⟨link, -⟩) |
          ⟨p, node, ⟨key, position, -⟩, -⟩)
        · exact link
        · exact link
        · exact (Option.some_ne_none key position.symm).elim
      · intro link
        by_cases same : source = target
        · exact Or.inl (Or.inr ⟨link, same⟩)
        · exact Or.inl (Or.inl ⟨same, source, target, link, rfl, rfl⟩)
  · obtain ⟨islands, found, detected⟩ := detect_spec valid
    let order := islandOrder islands.keys
    have orderPerm := islandPerm islands.keys
    have materializes :=
      materialize_spec valid detected
        (orderPerm.nodup_iff.mpr detected.keys_nodup)
    obtain ⟨represents, unlinked⟩ := rewire_spec valid formed' materializes
    have planNodup :=
      (orderPerm.nodup_iff.mpr detected.keys_nodup).filter
        (isBatched iterators islands.members)
    obtain ⟨built, unlinked'⟩ :=
      connect_spec valid formed' materializes
        (fun ⟨_, _, member⟩ => (detected.candidate member).1)
        planNodup detected.members_nodup detected.unique (matPerm _)
        represents
    refine ⟨_, iterators, islands, _, _, ?_, rfl, iterated, detected,
      planNodup, ?_, materializes, built, unlinked'.trans unlinked⟩
    · simp only [passBatch, made, Option.bind_eq_bind, Option.bind_some]
      rw [if_neg few, show detect _ = some islands from found]
      rfl
    · intro key
      rw [List.mem_filter, orderPerm.mem_iff]
      exact
        ⟨And.right, fun batched => ⟨key_of_batched detected batched, batched⟩⟩

end Cgir.Pass.Batch
