import Cgir.Mlir.Block

/-!
# Two heaps with one graph

A pass of the dialect and the pass of the same name on the heap are compared
step by step: the block represents the links of the heap that the other pass has
made so far (`Follows`).  At the end, export writes the adjacency lists of that
heap, up to their order (`Follows.export_spec`).
-/

namespace Cgir.Mlir

open Relation
open Cgir.Library
open Cgir.Model

/-- The heaps hold the same graph, up to the order of adjacency lists. -/
structure SameGraph (graph : GraphId) (first second : Heap) : Prop where
  reachable_iff : ∀ n, first.Reachable graph n ↔ second.Reachable graph n
  successors_perm : ∀ n, first.Reachable graph n →
    (first.successors n).Perm (second.successors n)
  predecessors_perm : ∀ n, first.Reachable graph n →
    (first.predecessors n).Perm (second.predecessors n)
  entry_eq : (first.graphs graph).entry = (second.graphs graph).entry
  exit_eq : (first.graphs graph).exit = (second.graphs graph).exit
  object_eq : ∀ n, first.Reachable graph n →
    (first.nodes n).type = (second.nodes n).type ∧
      (first.nodes n).deviceUniqueId = (second.nodes n).deviceUniqueId ∧
        (first.nodes n).command = (second.nodes n).command

theorem SameGraph.refl (graph : GraphId) (heap : Heap) :
    SameGraph graph heap heap where
  reachable_iff := fun _ => Iff.rfl
  successors_perm := fun _ _ => .refl _
  predecessors_perm := fun _ _ => .refl _
  entry_eq := rfl
  exit_eq := rfl
  object_eq := fun _ _ => ⟨rfl, rfl, rfl⟩

theorem SameGraph.symm {graph : GraphId} {first second : Heap}
    (same : SameGraph graph first second) : SameGraph graph second first where
  reachable_iff := fun n => (same.reachable_iff n).symm
  successors_perm := fun n reachable =>
    (same.successors_perm n ((same.reachable_iff n).mpr reachable)).symm
  predecessors_perm := fun n reachable =>
    (same.predecessors_perm n ((same.reachable_iff n).mpr reachable)).symm
  entry_eq := same.entry_eq.symm
  exit_eq := same.exit_eq.symm
  object_eq := by
    intro n reachable
    obtain ⟨type, device, command⟩ :=
      same.object_eq n ((same.reachable_iff n).mpr reachable)
    exact ⟨type.symm, device.symm, command.symm⟩

theorem SameGraph.link_eq {graph : GraphId} {first second : Heap}
    (same : SameGraph graph first second) :
    second.Link graph = first.Link graph := by
  funext source target
  apply propext
  constructor
  · rintro ⟨reachable, member⟩
    have before := (same.reachable_iff source).mpr reachable
    exact
      ⟨before, (same.successors_perm source before).mem_iff.mpr member⟩
  · rintro ⟨reachable, member⟩
    exact
      ⟨(same.reachable_iff source).mp reachable,
        (same.successors_perm source reachable).mem_iff.mp member⟩

/-- Heaps whose lists represent one relation hold the same graph. -/
theorem SameGraph.of_represents {graph : GraphId} {first second : Heap}
    {live : NodeId → Prop} {edge : NodeId → NodeId → Prop}
    (represents : first.Represents live edge)
    (represents' : second.Represents live edge)
    (entryLive : live (first.graphs graph).entry)
    (spans : ∀ n, live n → ReflTransGen edge (first.graphs graph).entry n)
    (entry_eq : (first.graphs graph).entry = (second.graphs graph).entry)
    (exit_eq : (first.graphs graph).exit = (second.graphs graph).exit)
    (object_eq : ∀ n, live n →
      (first.nodes n).type = (second.nodes n).type ∧
        (first.nodes n).deviceUniqueId = (second.nodes n).deviceUniqueId ∧
          (first.nodes n).command = (second.nodes n).command) :
    SameGraph graph first second := by
  have liveIff := represents.live_iff entryLive spans
  have liveIff' :=
    represents'.live_iff (entry_eq ▸ entryLive)
      (fun n alive => entry_eq ▸ spans n alive)
  exact {
    reachable_iff := fun n => (liveIff n).trans (liveIff' n).symm
    successors_perm := by
      intro n reachable
      have alive := (liveIff n).mp reachable
      rw [List.perm_ext_iff_of_nodup (represents.successors_nodup n alive)
        (represents'.successors_nodup n alive)]
      intro next
      rw [represents.mem_successors n alive,
        represents'.mem_successors n alive]
    predecessors_perm := by
      intro n reachable
      have alive := (liveIff n).mp reachable
      rw [List.perm_ext_iff_of_nodup (represents.predecessors_nodup n alive)
        (represents'.predecessors_nodup n alive)]
      intro pred
      rw [represents.mem_predecessors n alive,
        represents'.mem_predecessors n alive]
    entry_eq := entry_eq
    exit_eq := exit_eq
    object_eq := fun n reachable => object_eq n ((liveIff n).mp reachable) }

/-! ## Kinds of imported ops -/

/-- Control nodes become `cg.empty` ops, which carry the flags of the ends. -/
theorem Imported.kind_cases {iterators : Iterators} {cg : Graph}
    (imported : Imported iterators cg) {op : OpId} (member : op ∈ cg.body) :
    ((iterators.heap.nodes (iterators.node op)).type = .empty ∧
        (cg.ops op).kind = .empty
          (iterators.node op =
            (iterators.heap.graphs iterators.graph).entry)
          (iterators.node op =
            (iterators.heap.graphs iterators.graph).exit)) ∨
      ((iterators.heap.nodes (iterators.node op)).type = .command ∧
        ∃ command,
          (iterators.heap.nodes (iterators.node op)).command =
              some command ∧
            (cg.ops op).kind = commandOpKind command) := by
  rw [imported.body_eq, List.mem_range] at member
  have created := (imported.encodes op member).created
  unfold createNodeOp at created
  split at created
  · rename_i type
    simp only [Option.some.injEq, Op.mk.injEq] at created
    exact Or.inl ⟨type, created.2.1.symm⟩
  · rename_i type
    obtain ⟨command, held, same⟩ := Option.map_eq_some_iff.mp created
    rw [Op.mk.injEq] at same
    exact Or.inr ⟨type, command, held, same.2.1.symm⟩
  · cases created
  · cases created

/-! ## Blocks that follow a heap -/

section Follows

/-- The op of a node of the graph of another heap. -/
def ReachableOp (iterators : Iterators) (cg : Graph) (state : Heap)
    (op : OpId) : Prop :=
  op ∈ cg.body ∧ state.Reachable iterators.graph (iterators.node op)

/-- A link of the other heap between the nodes of two ops. -/
def LinkOp (iterators : Iterators) (cg : Graph) (state : Heap)
    (pred op : OpId) : Prop :=
  pred ∈ cg.body ∧ op ∈ cg.body ∧
    state.Link iterators.graph (iterators.node pred) (iterators.node op)

/-- Paths between ops are paths between their nodes. -/
theorem Mirrors.transGen_linkOp_iff {heap : Heap} {iterators : Iterators}
    {cg : Graph} (mirrors : Mirrors heap iterators cg) {pred op : OpId}
    (predMember : pred ∈ cg.body) (member : op ∈ cg.body) :
    TransGen (LinkOp iterators cg heap) pred op ↔
      TransGen (heap.Link iterators.graph) (iterators.node pred)
        (iterators.node op) := by
  have placed : ∀ first second, LinkOp iterators cg heap first second →
      heap.Link iterators.graph (iterators.node first)
        (iterators.node second) := fun _ _ step => step.2.2
  constructor
  · exact TransGen.lift iterators.node placed pred op
  · intro path
    have found : ∀ {n}, TransGen (heap.Link iterators.graph)
        (iterators.node pred) n →
          ∃ last ∈ cg.body, iterators.node last = n ∧
            TransGen (LinkOp iterators cg heap) pred last := by
      intro n path
      induction path with
      | @single next link =>
          have inside := mirrors.index_mem link.reachable
          have nodeEq := mirrors.node_index link.reachable
          refine ⟨_, inside, nodeEq, TransGen.single ⟨predMember, inside, ?_⟩⟩
          rw [nodeEq]
          exact link
      | @tail middle next _ link induction =>
          obtain ⟨last, lastMember, rfl, before⟩ := induction
          have inside := mirrors.index_mem link.reachable
          have nodeEq := mirrors.node_index link.reachable
          refine ⟨_, inside, nodeEq, before.tail ⟨lastMember, inside, ?_⟩⟩
          rw [nodeEq]
          exact link
    obtain ⟨last, lastMember, same, before⟩ := found path
    rwa [mirrors.injective lastMember member same] at before

/-- What is left of an imported block represents the links of a heap. -/
structure Follows (iterators : Iterators) (cg : Graph) (state : Heap)
    (after : Graph) : Prop where
  pruned : Pruned cg after
  represents : after.Represents (ReachableOp iterators cg state)
    (LinkOp iterators cg state)

variable {heap : Heap} {iterators : Iterators} {cg : Graph}
  (formed : heap.WellFormed iterators.graph)
  (mirrors : Mirrors heap iterators cg)

include formed mirrors

/-- The imported block follows the heap that it was imported from. -/
theorem Mirrors.follows : Follows iterators cg heap cg where
  pruned := .refl cg
  represents := by
    refine (mirrors.represents formed).congr (fun op => ?_)
      (fun pred op => ?_)
    · exact and_iff_left_of_imp mirrors.reachable
    · constructor
      · rintro ⟨predMember, member, link⟩
        exact
          ⟨member,
            (mirrors.mem_operands formed member).mpr ⟨predMember, link⟩⟩
      · rintro ⟨member, uses⟩
        obtain ⟨predMember, link⟩ :=
          (mirrors.mem_operands formed member).mp uses
        exact ⟨predMember, member, link⟩

omit formed

variable {state : Heap} {after : Graph}
  (stateFormed : state.WellFormed iterators.graph)
  (inside : ∀ n, state.Reachable iterators.graph n →
    heap.Reachable iterators.graph n)
  (follows : Follows iterators cg state after)

include stateFormed inside follows

/-- The operands of an op are the ops of the predecessors of its node. -/
theorem Follows.operands_perm {op : OpId} (member : op ∈ cg.body)
    (reachable : state.Reachable iterators.graph (iterators.node op)) :
    ((after.operands op).map iterators.node).Perm
      (state.predecessors (iterators.node op)) := by
  have memOperands := follows.represents.mem_operands op ⟨member, reachable⟩
  have nodup : ((after.operands op).map iterators.node).Nodup := by
    apply (follows.represents.operands_nodup op ⟨member, reachable⟩).map_on
    intro first firstUses second secondUses
    exact
      mirrors.injective ((memOperands first).mp firstUses).1
        ((memOperands second).mp secondUses).1
  rw [List.perm_ext_iff_of_nodup nodup
    (stateFormed.predecessors_nodup _ reachable)]
  intro n
  rw [stateFormed.mem_predecessors _ reachable, List.mem_map]
  constructor
  · rintro ⟨pred, uses, rfl⟩
    exact ((memOperands pred).mp uses).2.2
  · intro link
    have before := inside n link.1
    refine ⟨iterators.index n, ?_, mirrors.node_index before⟩
    rw [memOperands, LinkOp, mirrors.node_index before]
    exact ⟨mirrors.index_mem before, member, link⟩

/-- The users of a token are the ops of the successors of its node. -/
theorem Follows.users_perm {op : OpId} (member : op ∈ cg.body)
    (reachable : state.Reachable iterators.graph (iterators.node op)) :
    ((after.users op).map iterators.node).Perm
      (state.successors (iterators.node op)) := by
  have nodup : ((after.users op).map iterators.node).Nodup := by
    apply (follows.represents.users_nodup op).map_on
    intro first firstUses second secondUses
    exact
      mirrors.injective (follows.represents.mem_users.mp firstUses).2.1
        (follows.represents.mem_users.mp secondUses).2.1
  rw [List.perm_ext_iff_of_nodup nodup
    (stateFormed.successors_nodup _ reachable)]
  intro n
  rw [List.mem_map]
  constructor
  · rintro ⟨user, uses, rfl⟩
    exact (follows.represents.mem_users.mp uses).2.2.2
  · intro isSucc
    have link : state.Link iterators.graph (iterators.node op) n :=
      ⟨reachable, isSucc⟩
    have before := inside n link.reachable
    refine ⟨iterators.index n, ?_, mirrors.node_index before⟩
    rw [follows.represents.mem_users, LinkOp, mirrors.node_index before]
    exact ⟨member, mirrors.index_mem before, link⟩

include formed

/-- Export of a block that follows a heap makes the graph of that heap. -/
theorem Follows.export_spec
    (entry_eq : (state.graphs iterators.graph).entry =
      (heap.graphs iterators.graph).entry)
    (exit_eq : (state.graphs iterators.graph).exit =
      (heap.graphs iterators.graph).exit)
    (object_eq : ∀ n, (state.nodes n).type = (heap.nodes n).type ∧
      (state.nodes n).deviceUniqueId = (heap.nodes n).deviceUniqueId ∧
        (state.nodes n).command = (heap.nodes n).command) :
    ∃ result,
      exportCommandGraph after iterators.heap iterators.graph = some result ∧
        SameGraph iterators.graph state result := by
  have entryNode := mirrors.node_index Heap.reachable_entry
  have exitNode := mirrors.node_index formed.reachable_exit
  have entryReachable : state.Reachable iterators.graph
      (heap.graphs iterators.graph).entry :=
    entry_eq ▸ Heap.reachable_entry
  have exitReachable : state.Reachable iterators.graph
      (heap.graphs iterators.graph).exit :=
    exit_eq ▸ stateFormed.reachable_exit
  obtain ⟨result, exports, same, represents⟩ :=
    mirrors.export_spec formed follows.pruned follows.represents
      ⟨mirrors.index_mem Heap.reachable_entry, entryNode.symm ▸ entryReachable⟩
      ⟨mirrors.index_mem formed.reachable_exit, exitNode.symm ▸ exitReachable⟩
      (by
        rintro pred ⟨-, -, link⟩
        rw [entryNode] at link
        have isPred :=
          (stateFormed.mem_predecessors _ link.reachable _).mpr link
        rw [← entry_eq, stateFormed.predecessors_entry] at isPred
        exact List.not_mem_nil isPred)
      (by
        rintro op ⟨-, -, link⟩
        rw [exitNode] at link
        have isSucc := link.2
        rw [← exit_eq, stateFormed.successors_exit] at isSucc
        exact List.not_mem_nil isSucc)
      rfl (fun op live => mirrors.written op live.1)
  have indexedEnds := Heap.unmarked_graphs mirrors.same iterators.graph
  have graphsEq := Heap.unlinked_graphs same
  refine ⟨result, exports, ?_⟩
  have represents' : result.Represents (state.Reachable iterators.graph)
      (state.Link iterators.graph) := by
    refine (represents.congr_edge fun source target => ?_).congr_live
      fun n => ?_
    · constructor
      · intro link
        have sourceIn := inside source link.1
        have targetIn := inside target link.reachable
        refine
          ⟨iterators.index source, iterators.index target,
            ⟨mirrors.index_mem sourceIn, mirrors.index_mem targetIn, ?_⟩,
            mirrors.node_index sourceIn, mirrors.node_index targetIn⟩
        rw [mirrors.node_index sourceIn, mirrors.node_index targetIn]
        exact link
      · rintro ⟨pred, op, ⟨-, -, link⟩, rfl, rfl⟩
        exact link
    · constructor
      · intro reachable
        have before := inside n reachable
        refine
          ⟨iterators.index n, ⟨mirrors.index_mem before, ?_⟩,
            mirrors.node_index before⟩
        rw [mirrors.node_index before]
        exact reachable
      · rintro ⟨op, ⟨-, reachable⟩, rfl⟩
        exact reachable
  apply SameGraph.of_represents stateFormed.represents represents'
    Heap.reachable_entry
  · intro n reachable
    exact (Heap.reachable_iff_links n).mp reachable
  · rw [entry_eq, graphsEq, indexedEnds.1]
  · rw [exit_eq, graphsEq, indexedEnds.2.1]
  · intro n _
    obtain ⟨type, device, command⟩ := object_eq n
    rw [type, device, command, Heap.unlinked_type same,
      Heap.unlinked_deviceUniqueId same, Heap.unlinked_command same,
      Heap.unmarked_type mirrors.same,
      Heap.unmarked_deviceUniqueId mirrors.same,
      Heap.unmarked_command mirrors.same]
    exact ⟨rfl, rfl, rfl⟩

end Follows

end Cgir.Mlir
