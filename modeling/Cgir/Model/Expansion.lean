import Cgir.Library.Digraph
import Cgir.Model.Walk

/-!
# Expanding batch nodes

A pass that groups nodes allocates a sub-graph for every group and holds it in
a batch node of the top level.  Expanding such a node puts the sub-graph in its
place: edges into the node enter the entry of the sub-graph, and edges out of
the node leave its exit.
-/

namespace Cgir.Model.Heap

open Cgir.Library

variable (before after : Heap)

/-- The graph was allocated between two heaps. -/
def Created (sub : GraphId) : Prop :=
  before.graphCount ≤ sub ∧ sub < after.graphCount

/-- The sub-graph of a batch node allocated between two heaps. -/
def createdSub (node : NodeId) : Option GraphId :=
  if node < before.nodeCount then
    none
  else
    match (after.nodes node).type, (after.nodes node).command with
    | .command, some (.batch sub) => some sub
    | _, _ => none

/-- Where the edges into a node lead. -/
def head (node : NodeId) : NodeId :=
  match createdSub before after node with
  | some sub => (after.graphs sub).entry
  | none => node

/-- Where the edges out of a node start. -/
def tail (node : NodeId) : NodeId :=
  match createdSub before after node with
  | some sub => (after.graphs sub).exit
  | none => node

/-- The edges of the sub-graphs allocated between two heaps. -/
def SubLink (source target : NodeId) : Prop :=
  ∃ sub, Created before after sub ∧ after.Link sub source target

/--
The edges of a graph in which every batch node allocated between two heaps is
replaced by its sub-graph.
-/
def Expanded (graph : GraphId) : NodeId → NodeId → Prop :=
  Digraph.Expand (after.Link graph) (SubLink before after)
    (head before after) (tail before after)

/--
A regrouping keeps every node, in one place: at the top level or in one of the
sub-graphs allocated in between, whose members have the device of the batch node
that holds it.
-/
structure Regroups (graph : GraphId) : Prop where
  kept : ∀ node, before.Reachable graph node →
    (after.nodes node).deviceUniqueId = (before.nodes node).deviceUniqueId ∧
      (after.nodes node).type = (before.nodes node).type ∧
        (after.nodes node).command = (before.nodes node).command
  placed : ∀ node, before.Reachable graph node →
    (after.Reachable graph node ∧
        ∀ sub, Created before after sub → ¬ after.Reachable sub node) ∨
      (¬ after.Reachable graph node ∧
        ∃! sub, Created before after sub ∧ after.Reachable sub node)
  top : ∀ node, after.Reachable graph node →
    before.Reachable graph node ∨
      ∃ sub, Created before after sub ∧
        createdSub before after node = some sub
  held : ∀ sub, Created before after sub →
    ∃! node, after.Reachable graph node ∧
      createdSub before after node = some sub
  device_eq : ∀ batch sub node, after.Reachable graph batch →
    createdSub before after batch = some sub →
      before.Reachable graph node → after.Reachable sub node →
        (after.nodes node).deviceUniqueId =
          (after.nodes batch).deviceUniqueId

/--
A regrouping that copies nodes gives every node an image with the same payload,
in one place: at the top level or in one of the sub-graphs allocated in between.
All other nodes of the result are batch nodes or control nodes at the ends of
sub-graphs.
-/
structure Rehouses (graph : GraphId) (image : NodeId → NodeId) : Prop where
  kept : ∀ node, before.Reachable graph node →
    (after.nodes (image node)).deviceUniqueId =
        (before.nodes node).deviceUniqueId ∧
      (after.nodes (image node)).type = (before.nodes node).type ∧
        ((before.nodes node).type = .command →
          (after.nodes (image node)).command = (before.nodes node).command)
  injective : ∀ node other, before.Reachable graph node →
    before.Reachable graph other → image node = image other → node = other
  placed : ∀ node, before.Reachable graph node →
    (after.Reachable graph (image node) ∧
        ∀ sub, Created before after sub →
          ¬ after.Reachable sub (image node)) ∨
      (¬ after.Reachable graph (image node) ∧
        ∃! sub, Created before after sub ∧ after.Reachable sub (image node))
  top : ∀ node, after.Reachable graph node →
    (∃ original, before.Reachable graph original ∧ image original = node) ∨
      ∃ sub, Created before after sub ∧
        createdSub before after node = some sub
  inside : ∀ sub node, Created before after sub → after.Reachable sub node →
    (∃ original, before.Reachable graph original ∧ image original = node) ∨
      ((node = (after.graphs sub).entry ∨ node = (after.graphs sub).exit) ∧
        (after.nodes node).type = .empty)
  held : ∀ sub, Created before after sub →
    ∃! node, after.Reachable graph node ∧
      createdSub before after node = some sub
  device_eq : ∀ batch sub node, after.Reachable graph batch →
    createdSub before after batch = some sub →
      before.Reachable graph node → after.Reachable sub (image node) →
        (after.nodes (image node)).deviceUniqueId =
          (after.nodes batch).deviceUniqueId

section Lemmas

variable {before after} {node : NodeId} {sub : GraphId}

theorem createdSub_old (old : node < before.nodeCount) :
    createdSub before after node = none :=
  if_pos old

theorem head_old (old : node < before.nodeCount) :
    head before after node = node := by
  rw [head, createdSub_old old]

theorem tail_old (old : node < before.nodeCount) :
    tail before after node = node := by
  rw [tail, createdSub_old old]

theorem head_created (created : createdSub before after node = some sub) :
    head before after node = (after.graphs sub).entry := by
  rw [head, created]

theorem tail_created (created : createdSub before after node = some sub) :
    tail before after node = (after.graphs sub).exit := by
  rw [tail, created]

/-- The batch node holds the sub-graph. -/
theorem createdSub_eq_some_iff :
    createdSub before after node = some sub ↔
      before.nodeCount ≤ node ∧ (after.nodes node).type = .command ∧
        (after.nodes node).command = some (.batch sub) := by
  unfold createdSub
  split
  · rename_i old
    simp [Nat.not_le.mpr old]
  · rename_i fresh
    rw [Nat.not_lt] at fresh
    simp only [fresh, true_and]
    split
    · rename_i isCommand isBatch
      rw [isCommand, isBatch]
      simp
    · rename_i other
      simp only [reduceCtorEq, false_iff, not_and]
      intro isCommand isBatch
      exact other sub isCommand isBatch

end Lemmas

end Cgir.Model.Heap
