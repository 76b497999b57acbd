import Cgir.Optimizer.LegacyIsolation

/-!
# The dialect stays in its graph

The ops of an imported block name nodes of the graph as their sources, and no pass
of the dialect names others.  Export writes the sources that are left and the
nodes that it allocates.
-/

namespace Cgir.Optimizer

open Cgir.Library
open Cgir.Mlir
open Cgir.Model
open Cgir.Model.Heap

/-! ## Sources of ops -/

/-- All source nodes of a block are allowed. -/
def Sourced (allowed : NodeId → Prop) (ops : OpId → Op) : Prop :=
  ∀ op n, (ops op).srcNode = some n → allowed n

section Sources

variable {allowed : NodeId → Prop} {cg : Mlir.Graph}

theorem Sourced.updateOp (sourced : Sourced allowed cg.ops) (id : OpId)
    (change : Op → Op)
    (srcNode : ∀ n, (change (cg.ops id)).srcNode = some n → allowed n) :
    Sourced allowed (cg.updateOp id change).ops := by
  intro op n held
  rw [Mlir.Graph.updateOp_ops] at held
  split at held
  · exact srcNode n held
  · exact sourced op n held

theorem Sourced.setOperands (sourced : Sourced allowed cg.ops) (id : OpId)
    (operands : List OpId) :
    Sourced allowed (cg.setOperands id operands).ops :=
  sourced.updateOp id _ fun n held => sourced id n held

theorem Sourced.mapOperands (sourced : Sourced allowed cg.ops)
    (test : OpId → Bool) (change : List OpId → List OpId) :
    Sourced allowed (cg.mapOperands test change).ops := by
  intro op n held
  simp only [Mlir.Graph.mapOperands] at held
  split at held
  · exact sourced op n held
  · exact sourced op n held

theorem Sourced.create (sourced : Sourced allowed cg.ops) {op : Op}
    (srcNode : ∀ n, op.srcNode = some n → allowed n) :
    Sourced allowed (cg.create op).2.ops := by
  intro other n held
  rw [Mlir.Graph.create_ops] at held
  split at held
  · exact srcNode n held
  · exact sourced other n held

theorem Sourced.eraseUnused (sourced : Sourced allowed cg.ops) {op : OpId}
    {after : Mlir.Graph} (ran : cg.eraseUnused op = some after) :
    Sourced allowed after.ops := by
  unfold Mlir.Graph.eraseUnused at ran
  split at ran
  · cases ran
    exact sourced
  · cases ran

/-- A loop over ops keeps the sources allowed. -/
theorem Sourced.foldl {Item : Type} (step : Mlir.Graph → Item → Mlir.Graph)
    (keeps : ∀ cg item, Sourced allowed cg.ops →
      Sourced allowed (step cg item).ops) (list : List Item)
    (sourced : Sourced allowed cg.ops) :
    Sourced allowed (list.foldl step cg).ops :=
  Loop.foldl_invariant step (fun _ cg => Sourced allowed cg.ops) list cg
    (fun _ item _ cg _ sourced => keeps cg item sourced) sourced

theorem Sourced.foldlM {Item State : Type}
    {step : State → Item → Option State} (graphOf : State → Mlir.Graph)
    (keeps : ∀ state item next, Sourced allowed (graphOf state).ops →
      step state item = some next → Sourced allowed (graphOf next).ops)
    {list : List Item} {first last : State}
    (sourced : Sourced allowed (graphOf first).ops)
    (ran : list.foldlM step first = some last) :
    Sourced allowed (graphOf last).ops :=
  Loop.foldlM_some_invariant
    (fun _ state => Sourced allowed (graphOf state).ops) ran
    (fun _ item _ state next _ sourced stepped =>
      keeps state item next sourced stepped) sourced

/-! ## Passes of the dialect -/

theorem reduceNode_sourced
    {getUsers : Mlir.Graph → OpId → List OpId} {after : Mlir.Graph}
    (sourced : Sourced allowed cg.ops)
    (ran : Mlir.ReduceNode.reduceNode getUsers cg = some after) :
    Sourced allowed after.ops := by
  refine Sourced.foldlM id ?_ sourced ran
  intro cg op next sourced stepped
  have bypassed : ∀ {next}, Mlir.ReduceNode.bypass getUsers cg op = some next →
      Sourced allowed next.ops := by
    intro next ran
    refine Sourced.eraseUnused ?_ ran
    exact
      Sourced.foldl _ (fun cg user sourced => sourced.setOperands user _) _
        sourced
  unfold Mlir.ReduceNode.reduceOp at stepped
  split at stepped
  · split at stepped
    · cases stepped
      exact sourced
    · dsimp only at stepped
      split at stepped
      · exact bypassed stepped
      · cases stepped
        exact sourced
  · cases stepped
    exact sourced

theorem reduceEdge_sourced
    {getUsers : Mlir.Graph → OpId → List OpId} {after : Mlir.Graph}
    (sourced : Sourced allowed cg.ops)
    (ran : Mlir.ReduceEdge.reduceEdge getUsers cg = some after) :
    Sourced allowed after.ops := by
  obtain ⟨order, -, ran⟩ := Option.bind_eq_some_iff.mp ran
  obtain ⟨size, -, same⟩ := Option.bind_eq_some_iff.mp ran
  cases same
  refine Sourced.foldl _ ?_ _ sourced
  intro cg i sourced
  refine Sourced.foldl _ ?_ _ sourced
  intro cg v sourced
  split
  · exact sourced.setOperands _ _
  · exact sourced

theorem copyNormalize_sourced {after : Mlir.Graph}
    (sourced : Sourced allowed cg.ops)
    (ran : Mlir.CopyNormalize.copyNormalize cg = some after) :
    Sourced allowed after.ops := by
  refine Sourced.foldlM id ?_ sourced ran
  intro cg op next sourced stepped
  simp only [Mlir.CopyNormalize.normalizeOp] at stepped
  split at stepped
  · split at stepped
    · refine Sourced.eraseUnused (Sourced.mapOperands ?_ _ _) stepped
      intro other n held
      simp only [Mlir.CopyNormalize.createBefore,
        Function.update_apply] at held
      split at held
      · exact sourced op n held
      · exact sourced other n held
    · cases stepped
      exact sourced.updateOp op _ fun n held => sourced op n held
  · cases stepped
    exact sourced

theorem copyFuse_sourced
    {getUsers : Mlir.Graph → OpId → List OpId} {after : Mlir.Graph}
    (sourced : Sourced allowed cg.ops)
    (ran : Mlir.copyFuse getUsers cg = some after) :
    Sourced allowed after.ops := by
  obtain ⟨state, loops, same⟩ := Option.bind_eq_some_iff.mp ran
  cases same
  have fused : ∀ {cg next : Mlir.Graph} {u v : OpId},
      Sourced allowed cg.ops → cg.tryFuse u v = some next →
        Sourced allowed next.ops := by
    intro cg next u v sourced ran
    unfold Mlir.Graph.tryFuse at ran
    split at ran
    · split at ran
      · cases ran
        refine
          Sourced.foldl _ (fun cg user sourced => sourced.setOperands user _)
            _ ?_
        exact sourced.updateOp u _ fun n held => sourced u n held
      · cases ran
    · cases ran
  have sibling : ∀ (list : List OpId) {state next : Fusing} {u : OpId},
      Sourced allowed state.cg.ops → fuseSibling state u list = some next →
        Sourced allowed next.cg.ops := by
    intro list
    induction list with
    | nil => exact fun _ ran => nomatch ran
    | cons v rest induction =>
        intro state next u sourced ran
        unfold fuseSibling at ran
        split at ran
        · exact induction sourced ran
        · split at ran
          · cases ran
            rename_i fuses
            exact fused sourced fuses
          · exact induction sourced ran
  have looped : ∀ (fuel : Nat) {state next : Fusing} {u : OpId},
      Sourced allowed state.cg.ops →
        fuseOp getUsers u fuel state = some next →
          Sourced allowed next.cg.ops := by
    intro fuel
    induction fuel with
    | zero => exact fun _ ran => nomatch ran
    | succ fuel induction =>
        intro state next u sourced ran
        unfold fuseOp at ran
        split at ran
        · cases ran
          exact sourced
        · split at ran
          · rename_i scanned
            exact induction (sibling _ sourced scanned) ran
          · cases ran
            exact sourced
  refine
    Sourced.foldl Mlir.Graph.erase (fun _ _ sourced => sourced) state.dead ?_
  refine Sourced.foldlM Fusing.cg ?_ sourced loops
  intro state u next sourced stepped
  unfold fuseNext at stepped
  split at stepped
  · cases stepped
    exact sourced
  · exact looped _ sourced stepped

theorem batchPass_sourced {after : Mlir.Graph}
    (sourced : Sourced allowed cg.ops)
    (ran : batchPass cg = some after) : Sourced allowed after.ops := by
  obtain ⟨scratch, -, same⟩ := Option.bind_eq_some_iff.mp ran
  cases same
  refine Sourced.foldl _ ?_ _ sourced
  intro cg group sourced
  unfold Mlir.Graph.materializeBatch
  have created : Sourced allowed
      (cg.create {
        duid := group.2
        kind := .batch []
        operands := cg.externalPreds group.1
        srcNode := none }).2.ops :=
    sourced.create fun n held => nomatch held
  have redirected : Sourced allowed
      (((cg.create {
        duid := group.2
        kind := .batch []
        operands := cg.externalPreds group.1
        srcNode := none }).2.redirectUses group.1 cg.opCount)).ops :=
    created.mapOperands _ _
  have moved :=
    redirected.updateOp cg.opCount
      (fun op => { op with kind := .batch group.1 })
      fun n held => redirected cg.opCount n held
  exact Sourced.mapOperands moved _ _

end Sources

/-! ## Import -/

section Import

variable {inside : NodeId → Prop} {graph : GraphId}
  {start base heap indexed : Heap} {cg : Mlir.Graph}

/-- Import names the nodes that its walk met. -/
theorem importCommandGraph_confined
    (confined : Confined inside graph start base heap)
    (ran : importCommandGraph heap graph = some (indexed, cg)) :
    Settles graph heap indexed ∧ Counts graph 1 heap indexed ∧
      Confined inside graph start indexed indexed ∧
        Sourced (Owned inside start indexed) cg.ops := by
  obtain ⟨⟨indexed', nodes⟩, iterates, rest⟩ :=
    Option.bind_eq_some_iff.mp ran
  obtain ⟨state, creates, wires⟩ := Option.bind_eq_some_iff.mp rest
  obtain ⟨wired, wireRan, same⟩ := Option.bind_eq_some_iff.mp wires
  cases same
  obtain ⟨first, owned⟩ := confined.createNodeIterators iterates
  refine
    ⟨.of_createNodeIterators iterates, .of_createNodeIterators iterates,
      first, ?_⟩
  have created : Sourced (Owned inside start indexed) state.graph.ops := by
    refine
      Loop.foldlM_some_invariant
        (fun _ state => Sourced (Owned inside start indexed) state.graph.ops)
        creates ?_ (fun op n held => nomatch held)
    intro done n rest state next split sourced stepped
    obtain ⟨op, -, same⟩ := Option.bind_eq_some_iff.mp stepped
    cases same
    apply sourced.create
    rintro m held
    cases held
    exact owned n (split ▸ by simp)
  refine Sourced.foldlM id ?_ created wireRan
  intro cg n next sourced stepped
  obtain ⟨op, -, rest⟩ := Option.bind_eq_some_iff.mp stepped
  obtain ⟨preds, -, same⟩ := Option.bind_eq_some_iff.mp rest
  cases same
  exact sourced.setOperands op preds

end Import

/-! ## Export -/

section Export

variable {inside : NodeId → Prop} {graph : GraphId}
  {start base heap after : Heap}
  (confined : Confined inside graph start base heap)

include confined

/-- What `update_node_from_op` writes is the device and the command. -/
theorem updateNodeFromOp_confined {n : NodeId}
    (owned : Owned inside start heap n) {op : Op}
    (ran : updateNodeFromOp heap n op = some after) :
    Confined inside graph start base after ∧
      after.nodeCount = heap.nodeCount := by
  obtain ⟨object, updates, rfl⟩ := Option.map_eq_some_iff.mp ran
  have kept : object.successors = (heap.nodes n).successors ∧
      object.predecessors = (heap.nodes n).predecessors ∧
        object.walkId = (heap.nodes n).walkId := by
    simp only [Op.updateNode] at updates
    split at updates
    · obtain ⟨command, -, rfl⟩ := Option.map_eq_some_iff.mp updates
      exact ⟨rfl, rfl, rfl⟩
    · obtain ⟨command, -, rfl⟩ := Option.map_eq_some_iff.mp updates
      exact ⟨rfl, rfl, rfl⟩
    · cases updates
      exact ⟨rfl, rfl, rfl⟩
  obtain ⟨successors, predecessors, mark⟩ := kept
  refine ⟨confined.updateNode_of_subset owned ?_ ?_ mark, rfl⟩
  · rw [successors]
    exact List.Subset.refl _
  · rw [predecessors]
    exact List.Subset.refl _

theorem clearLists_confined {n : NodeId}
    (owned : Owned inside start heap n) :
    Confined inside graph start base (clearLists heap n) :=
  confined.updateNode_of_subset owned (List.nil_subset _)
    (List.nil_subset _) rfl

theorem newCommandNode_confined (duid : DeviceUniqueId)
    (command : Command) :
    Confined inside graph start base (newCommandNode heap duid command).2 ∧
      Owned inside start (newCommandNode heap duid command).2
        (newCommandNode heap duid command).1 := by
  have created := confined.commandGraphNodeNew duid .command
  have owned := confined.owned_new duid .command
  exact ⟨created.setCommand owned command, owned⟩

/-- Ops are wired between the nodes that were made for them. -/
theorem relinkOps_confined {ops : OpId → Op} {out : OpId → Option NodeId}
    (owned : ∀ op n, out op = some n → Owned inside start heap n)
    {list : List OpId}
    (ran : list.foldlM (relinkOp ops out) heap = some after) :
    Confined inside graph start base after ∧
      after.nodeCount = heap.nodeCount := by
  refine confined.foldlM ?_ ran
  intro op _ heap' next kept same stepped
  obtain ⟨n, made, loops⟩ := Option.bind_eq_some_iff.mp stepped
  obtain ⟨kept', count⟩ :=
    kept.foldlM (by
      intro pred _ heap'' next kept' same' stepped
      obtain ⟨p, made', precedes⟩ := Option.bind_eq_some_iff.mp stepped
      cases precedes
      have here : ∀ {m}, Owned inside start heap m →
          Owned inside start heap'' m :=
        fun owned => Owned.of_le (same'.trans same).ge owned
      exact
        ⟨kept'.precedes (here (owned pred p made')) (here (owned op n made)),
          same'⟩) loops
  exact ⟨kept', count.trans same⟩

/-- A fresh node, as the callers of `create_pod_node_from_op` get it. -/
def Creates (inside : NodeId → Prop) (graph : GraphId) (start base : Heap)
    (create : Heap → Op → Option (NodeId × Heap)) : Prop :=
  ∀ heap op n after, Confined inside graph start base heap →
    create heap op = some (n, after) →
      Confined inside graph start base after ∧
        heap.nodeCount ≤ after.nodeCount ∧ Owned inside start after n

variable {create : Heap → Op → Option (NodeId × Heap)}
  (creates : Creates inside graph start base create)

include creates

theorem subNode_confined {member : Op} {n : NodeId}
    (ran : subNode create heap member = some (n, after)) :
    Confined inside graph start base after ∧
      heap.nodeCount ≤ after.nodeCount ∧ Owned inside start after n := by
  unfold subNode at ran
  split at ran
  · exact creates heap member n after confined ran
  · split at ran
    · rename_i command _ _
      obtain ⟨made, owned⟩ :=
        newCommandNode_confined confined member.getDuid command
      obtain ⟨result, updates, same⟩ := Option.map_eq_some_iff.mp ran
      cases same
      obtain ⟨kept, count⟩ := updateNodeFromOp_confined made owned updates
      exact
        ⟨kept, (Nat.le_succ _).trans count.ge,
          Owned.of_le count.ge owned⟩
    · cases ran
      exact
        ⟨confined.commandGraphNodeNew member.getDuid .empty, by simp,
          confined.owned_new member.getDuid .empty⟩
    · exact creates heap member n after confined ran

/-- The members of a region get fresh nodes. -/
theorem resolveMembers_confined {ops : OpId → Op} {region : List OpId}
    {last : SubState}
    (ran : region.foldlM (resolveMember ops create)
      { heap := heap, subNodes := fun _ => none } = some last) :
    Confined inside graph start base last.heap ∧
      heap.nodeCount ≤ last.heap.nodeCount ∧
        ∀ op n, last.subNodes op = some n →
          Owned inside start last.heap n := by
  refine
    Loop.foldlM_some_invariant
      (fun _ state => Confined inside graph start base state.heap ∧
        heap.nodeCount ≤ state.heap.nodeCount ∧
          ∀ op n, state.subNodes op = some n →
            Owned inside start state.heap n) ran ?_
      ⟨confined, le_rfl, fun op n made => nomatch made⟩
  rintro done member rest state next - ⟨kept, more, owned⟩ stepped
  obtain ⟨⟨n, made⟩, resolves, same⟩ := Option.bind_eq_some_iff.mp stepped
  cases same
  obtain ⟨kept', more', nOwned⟩ := subNode_confined kept creates resolves
  refine ⟨clearLists_confined kept' nOwned, more.trans more', ?_⟩
  intro op m held
  simp only [Function.update_apply] at held
  split at held
  · cases held
    exact nOwned
  · exact Owned.of_le more' (owned op m held)

omit creates in
theorem connectMembers_confined {subEntry subExit : NodeId}
    (entryOwned : Owned inside start heap subEntry)
    (exitOwned : Owned inside start heap subExit)
    {subNodes : OpId → Option NodeId}
    (owned : ∀ op n, subNodes op = some n → Owned inside start heap n)
    {region : List OpId}
    (ran : region.foldlM (Mlir.connectMember subEntry subExit subNodes) heap =
      some after) :
    Confined inside graph start base after ∧
      after.nodeCount = heap.nodeCount := by
  refine confined.foldlM ?_ ran
  intro op _ heap' next kept same stepped
  obtain ⟨n, made, connects⟩ := Option.bind_eq_some_iff.mp stepped
  cases connects
  have here : ∀ {m}, Owned inside start heap m →
      Owned inside start heap' m :=
    fun owned => Owned.of_le same.ge owned
  have nOwned := here (owned op n made)
  obtain ⟨first, count⟩ :=
    precedesIf_confined kept (heap'.predecessors n = []) (here entryOwned)
      nOwned
  obtain ⟨second, count'⟩ :=
    precedesIf_confined first
      ((if heap'.predecessors n = [] then heap'.precedes subEntry n
        else heap').successors n = [])
      (Owned.of_le count.ge nOwned)
      (Owned.of_le count.ge (here exitOwned))
  exact ⟨second, count'.trans (count.trans same)⟩

theorem buildBatchNode_confined (graphOld : graph < start.graphCount)
    {ops : OpId → Op} {duid : DeviceUniqueId} {region : List OpId}
    {n : NodeId}
    (ran : buildBatchNode ops create heap duid region = some (n, after)) :
    Confined inside graph start base after ∧
      heap.nodeCount ≤ after.nodeCount ∧ Owned inside start after n := by
  obtain ⟨cut, entryOwned, exitOwned⟩ := confined.newSubGraph graphOld
  obtain ⟨state, resolves, rest⟩ := Option.bind_eq_some_iff.mp ran
  obtain ⟨relinked, relinks, rest⟩ := Option.bind_eq_some_iff.mp rest
  obtain ⟨connected, connects, same⟩ := Option.bind_eq_some_iff.mp rest
  cases same
  obtain ⟨first, more, owned⟩ :=
    resolveMembers_confined cut creates resolves
  obtain ⟨second, count⟩ := relinkOps_confined first owned relinks
  have here : ∀ {m}, Owned inside start state.heap m →
      Owned inside start relinked m :=
    fun owned => Owned.of_le count.ge owned
  obtain ⟨third, count'⟩ :=
    connectMembers_confined second
      (here (Owned.of_le more entryOwned))
      (here (Owned.of_le more exitOwned))
      (fun op n made => here (owned op n made)) connects
  obtain ⟨made, nOwned⟩ := newCommandNode_confined third duid (.batch _)
  refine ⟨made, ?_, nOwned⟩
  have before : heap.nodeCount ≤ state.heap.nodeCount :=
    (Nat.le_add_right _ 2).trans more
  exact
    (before.trans (count'.trans count).ge).trans (Nat.le_succ _)

omit confined creates in
/-- The recursion follows the nesting of regions. -/
theorem createPodNodeFromOp_creates (graphOld : graph < start.graphCount)
    (ops : OpId → Op) (depth : Nat) :
    Creates inside graph start base (createPodNodeFromOp ops depth) := by
  have commands : ∀ {heap : Heap} {duid command n after},
      Confined inside graph start base heap →
        newCommandNode heap duid command = (n, after) →
          Confined inside graph start base after ∧
            heap.nodeCount ≤ after.nodeCount ∧
              Owned inside start after n := by
    intro heap duid command n after confined made
    obtain ⟨kept, owned⟩ := newCommandNode_confined confined duid command
    rw [made] at kept owned
    have more := congrArg (fun made => made.2.nodeCount) made
    exact ⟨kept, (Nat.le_succ _).trans more.le, owned⟩
  induction depth with
  | zero =>
      intro heap op n after confined ran
      unfold createPodNodeFromOp at ran
      split at ran
      · cases ran
        exact
          ⟨confined.commandGraphNodeNew _ _, by simp, confined.owned_new _ _⟩
      · obtain ⟨command, -, made⟩ := Option.map_eq_some_iff.mp ran
        exact commands confined made
      · obtain ⟨command, -, made⟩ := Option.map_eq_some_iff.mp ran
        exact commands confined made
      · exact commands confined (Option.some.inj ran)
      · cases ran
  | succ depth induction =>
      intro heap op n after confined ran
      unfold createPodNodeFromOp at ran
      split at ran
      · cases ran
        exact
          ⟨confined.commandGraphNodeNew _ _, by simp, confined.owned_new _ _⟩
      · obtain ⟨command, -, made⟩ := Option.map_eq_some_iff.mp ran
        exact commands confined made
      · obtain ⟨command, -, made⟩ := Option.map_eq_some_iff.mp ran
        exact commands confined made
      · exact commands confined (Option.some.inj ran)
      · exact buildBatchNode_confined confined induction graphOld ran

end Export

/-- The nodes that pass 1 of the export resolved are owned. -/
structure ResolvesOwned (inside : NodeId → Prop) (graph : GraphId)
    (start base heap : Heap) (state : ExportState) : Prop where
  confined : Confined inside graph start base state.heap
  nodeCount_le : heap.nodeCount ≤ state.heap.nodeCount
  out : ∀ op n, state.out op = some n → Owned inside start state.heap n
  entryNode : ∀ n, state.entryNode = some n →
    Owned inside start state.heap n
  exitNode : ∀ n, state.exitNode = some n →
    Owned inside start state.heap n

section Result

variable {inside : NodeId → Prop} {graph : GraphId}
  {start base heap after : Heap} {cg : Mlir.Graph}
  (confined : Confined inside graph start base heap)
  (graphOld : graph < start.graphCount)

include confined graphOld

theorem resolveOps_owned
    (sourced : Sourced (Owned inside start heap) cg.ops)
    {list : List OpId} {last : ExportState}
    (ran : list.foldlM (resolveOp cg)
      { heap := heap
        out := fun _ => none
        entryNode := none
        exitNode := none } = some last) :
    ResolvesOwned inside graph start base heap last := by
  refine
    Loop.foldlM_some_invariant
      (fun _ => ResolvesOwned inside graph start base heap) ran ?_
      { confined := confined
        nodeCount_le := le_rfl
        out := by simp
        entryNode := by simp
        exitNode := by simp }
  rintro done id rest state next - resolved stepped
  obtain ⟨⟨n, made⟩, resolves, same⟩ := Option.bind_eq_some_iff.mp stepped
  cases same
  have node : Confined inside graph start base made ∧
      state.heap.nodeCount ≤ made.nodeCount ∧
        Owned inside start made n := by
    unfold resolveNode at resolves
    split at resolves
    · rename_i held
      obtain ⟨result, updates, same⟩ := Option.map_eq_some_iff.mp resolves
      cases same
      have owned :=
        Owned.of_le resolved.nodeCount_le (sourced id n held)
      obtain ⟨kept, count⟩ :=
        updateNodeFromOp_confined resolved.confined owned updates
      exact
        ⟨kept, count.ge, Owned.of_le count.ge owned⟩
    · exact
        createPodNodeFromOp_creates graphOld cg.ops cg.opCount _ _ _ _
          resolved.confined resolves
  obtain ⟨kept, more, nOwned⟩ := node
  have grown : ∀ {m}, Owned inside start state.heap m →
      Owned inside start made m :=
    fun owned => Owned.of_le more owned
  exact {
    confined := clearLists_confined kept nOwned
    nodeCount_le := resolved.nodeCount_le.trans more
    out := by
      intro op m held
      simp only [Function.update_apply] at held
      split at held
      · cases held
        exact nOwned
      · exact grown (resolved.out op m held)
    entryNode := by
      intro m held
      dsimp only at held
      split at held
      · cases held
        exact nOwned
      · exact grown (resolved.entryNode m held)
    exitNode := by
      intro m held
      dsimp only at held
      split at held
      · cases held
        exact nOwned
      · exact grown (resolved.exitNode m held) }

/-- Export writes the sources of the ops and what it allocates. -/
theorem exportCommandGraph_confined
    (sourced : Sourced (Owned inside start heap) cg.ops)
    (ran : exportCommandGraph cg heap graph = some after) :
    Confined inside graph start base after := by
  obtain ⟨state, resolves, rest⟩ := Option.bind_eq_some_iff.mp ran
  obtain ⟨relinked, relinks, rest⟩ := Option.bind_eq_some_iff.mp rest
  obtain ⟨entry, entryHeld, rest⟩ := Option.bind_eq_some_iff.mp rest
  obtain ⟨exit, exitHeld, same⟩ := Option.bind_eq_some_iff.mp rest
  have resolved := resolveOps_owned confined graphOld sourced resolves
  obtain ⟨kept, count⟩ :=
    relinkOps_confined resolved.confined resolved.out relinks
  split at same
  · cases same
    exact
      kept.updateGraph_self
        (Owned.of_le count.ge
          (resolved.entryNode entry entryHeld))
        (Owned.of_le count.ge
          (resolved.exitNode exit exitHeld)) rfl
  · cases same

/-! ## Passes with import and export -/

/-- A pass that works on the block only. -/
theorem dialect_stays {pass : Mlir.Graph → Option Mlir.Graph}
    (keeps : ∀ {allowed : NodeId → Prop} {cg result : Mlir.Graph},
      Sourced allowed cg.ops → pass cg = some result →
        Sourced allowed result.ops)
    (ran : (do
      let (heap, cg) ← importCommandGraph heap graph
      let cg ← pass cg
      exportCommandGraph cg heap graph) = some after) :
    Stays inside graph start heap after := by
  obtain ⟨⟨indexed, cg⟩, imports, rest⟩ := Option.bind_eq_some_iff.mp ran
  obtain ⟨result, passes, exports⟩ := Option.bind_eq_some_iff.mp rest
  obtain ⟨settles, counts, kept, sourced⟩ :=
    importCommandGraph_confined confined imports
  exact
    ⟨indexed, 1, settles, counts, Nat.le_succ 1,
      exportCommandGraph_confined kept graphOld (keeps sourced passes)
        exports⟩

omit graphOld in
/-- The fused programs are written to the sources of their ops. -/
theorem progFuse_confined (fuse : List CommandProg → CommandProg)
    (sourced : Sourced (Owned inside start heap) cg.ops)
    {last : Mlir.ProgFuse.FuseState}
    (ran : Mlir.ProgFuse.progFuse fuse heap cg = some last) :
    Confined inside graph start base last.heap ∧
      last.heap.nodeCount = heap.nodeCount ∧
        Sourced (Owned inside start heap) last.cg.ops := by
  refine
    Loop.foldlM_some_invariant
      (fun _ state => Confined inside graph start base state.heap ∧
        state.heap.nodeCount = heap.nodeCount ∧
          Sourced (Owned inside start heap) state.cg.ops) ran ?_
      ⟨confined, rfl, sourced⟩
  rintro done u rest state next - ⟨kept, count, sourced⟩ stepped
  unfold Mlir.ProgFuse.fuseProg at stepped
  split at stepped
  · cases stepped
    exact ⟨kept, count, sourced⟩
  · split at stepped
    · rename_i un prog found _
      obtain ⟨chainOps, -, fuses⟩ := Option.bind_eq_some_iff.mp stepped
      split at fuses
      · cases fuses
        exact ⟨kept, count, sourced⟩
      · obtain ⟨replaced, erases, same⟩ := Option.bind_eq_some_iff.mp fuses
        cases same
        have unOwned : Owned inside start heap un := by
          unfold Mlir.ProgFuse.progSrcNode at found
          split at found
          · rename_i node held
            split at found
            · cases found
              exact sourced u _ held
            · cases found
          · cases found
        refine
          ⟨kept.setCommand (Owned.of_le count.ge unOwned) _, count,
            ?_⟩
        exact
          Sourced.foldlM id
            (fun cg op next sourced erased => sourced.eraseUnused erased)
            (sourced.mapOperands _ _) erases
    · cases stepped
      exact ⟨kept, count, sourced⟩

theorem optimizeProgFuse_stays (fuse : List CommandProg → CommandProg)
    {fused : List (List NodeId)}
    (ran : Mlir.ProgFuse.optimizeProgFuse fuse heap graph =
      some (after, fused)) :
    Stays inside graph start heap after := by
  obtain ⟨⟨indexed, cg⟩, imports, rest⟩ := Option.bind_eq_some_iff.mp ran
  obtain ⟨state, fuses, rest⟩ := Option.bind_eq_some_iff.mp rest
  obtain ⟨result, exports, same⟩ := Option.bind_eq_some_iff.mp rest
  cases same
  obtain ⟨settles, counts, kept, sourced⟩ :=
    importCommandGraph_confined confined imports
  obtain ⟨kept', count, sourced'⟩ := progFuse_confined kept fuse sourced fuses
  refine
    ⟨indexed, 1, settles, counts, Nat.le_succ 1,
      exportCommandGraph_confined kept' graphOld ?_ exports⟩
  intro op n held
  exact Owned.of_le count.ge (sourced' op n held)

end Result


end Cgir.Optimizer
