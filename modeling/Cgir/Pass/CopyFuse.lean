import Mathlib.Algebra.Group.Nat.Defs
import Cgir.Model.Numbered
import Cgir.Model.Walk

/-!
# The copy-fuse pass

`pass_copy_fuse` merges false-twin 1-D copies.  A merge removes the absorbed
node from the lists of its neighbours and leaves its own lists as they are; the
pass then still meets the absorbed node in its vector, and fuses its absorber
into it.
-/

namespace Cgir.Pass.CopyFuse

open Cgir.Model

section Source

/-! ## Copies -/

variable (u v : CommandCopy1D)

/-- `src_dst_bias`. -/
def bias : Address :=
  u.srcDeviceAddr - u.dstDeviceAddr

/-- The source segments overlap or are adjacent. -/
def touches : Bool :=
  u.srcDeviceAddr ≤ v.srcDeviceAddr + v.size &&
    v.srcDeviceAddr ≤ u.srcDeviceAddr + u.size

/-- The tests on two 1-D copies that are false twins. -/
def fusable : Bool :=
  u.srcDeviceUniqueId = v.srcDeviceUniqueId &&
    u.dstDeviceUniqueId = v.dstDeviceUniqueId &&
    bias u = bias v && touches u v

/-- The copy of the union of both segments. -/
def fusedCopy : CommandCopy1D :=
  let uEnd := u.srcDeviceAddr + u.size
  let vEnd := v.srcDeviceAddr + v.size
  let srcBgn :=
    if v.srcDeviceAddr < u.srcDeviceAddr then v.srcDeviceAddr
    else u.srcDeviceAddr
  let srcEnd := if uEnd < vEnd then vEnd else uEnd
  { u with
    srcDeviceAddr := srcBgn
    dstDeviceAddr := srcBgn - bias u
    size := srcEnd - srcBgn }

/-- The tests on two 2-D copies that end in `abort`. -/
def aborts2D (u v : CommandCopy2D) : Bool :=
  u.srcDeviceUniqueId = v.srcDeviceUniqueId &&
    u.dstDeviceUniqueId = v.dstDeviceUniqueId &&
    u.sizeofType * u.m = v.sizeofType * v.m &&
    u.sizeofType * u.srcLd = v.sizeofType * v.srcLd &&
    u.sizeofType * u.dstLd = v.sizeofType * v.dstLd &&
    u.srcAddr - u.dstAddr = v.srcAddr - v.dstAddr

/-! ## Nodes -/

/-- `are_false_twins`. -/
def areFalseTwins (heap : Heap) (u v : NodeId) : Bool :=
  (heap.predecessors u).isPerm (heap.predecessors v) &&
    (heap.successors u).isPerm (heap.successors v)

/-- `contract<FALSE_TWINS | INPLACE>(u, v)`. -/
def contractFalseTwins (heap : Heap) (u v : NodeId) : Heap :=
  let heap :=
    (heap.predecessors u).foldl
      (fun heap pred => heap.eraseSuccessor pred v) heap
  (heap.successors u).foldl
    (fun heap succ => heap.erasePredecessor succ v) heap

/--
`command_graph_pass_batch_try_fuse_copy`: `none` when it aborts, `some none`
when it returns false, and the heap when it fuses.
-/
def tryFuseCopy (heap : Heap) (u v : NodeId) : Option (Option Heap) :=
  if u ≠ v ∧ areFalseTwins heap u v ∧
      (heap.nodes u).type = .command ∧ (heap.nodes v).type = .command then
    match (heap.nodes u).command, (heap.nodes v).command with
    | none, _ | _, none => none
    | some (.copy1D direction uCopy), some (.copy1D _ vCopy) =>
        if fusable uCopy vCopy then
          some (some ((contractFalseTwins heap u v).setCommand u
            (.copy1D direction (fusedCopy uCopy vCopy))))
        else
          some none
    | some (.copy1D _ _), some (.copy2D _ _) => none
    | some (.copy2D _ _), some (.copy1D _ _) => none
    | some (.copy2D _ uCopy), some (.copy2D _ vCopy) =>
        if aborts2D uCopy vCopy then none else some none
    | some _, some _ => some none
  else
    some none

/-- The siblings of a node, in the order of the two nested loops. -/
def siblings (heap : Heap) (u : NodeId) : List NodeId :=
  (heap.predecessors u).flatMap heap.successors

/-- Try the siblings one by one until one is fused. -/
def scanSiblings (heap : Heap) (u : NodeId) :
    List NodeId → Option (Option Heap)
  | [] => some none
  | v :: rest =>
      match tryFuseCopy heap u v with
      | none => none
      | some (some fused) => some (some fused)
      | some none => scanSiblings heap u rest

/--
The label `retry_node`: scan again after every fusion.  Each fusion removes a
sibling, which bounds the number of scans.
-/
def retryNode (u : NodeId) : Nat → Heap → Option Heap
  | 0, _ => none
  | fuel + 1, heap =>
      match scanSiblings heap u (siblings heap u) with
      | none => none
      | some (some fused) => retryNode u fuel fused
      | some none => some heap

/-- One iteration of the pass; `contracted` is never set. -/
def fuseNode (heap : Heap) (u : NodeId) : Option Heap :=
  retryNode u ((siblings heap u).length + 1) heap

/-- `command_graph_t::pass_copy_fuse`. -/
def passCopyFuse (heap : Heap) (graph : GraphId) : Option Heap := do
  let (heap, nodes) ← heap.createNodeIterators graph false
  nodes.foldlM fuseNode heap

end Source

/-! ## Data movement -/

/-- One byte moved: source device and address, destination device and address. -/
abbrev Transfer := DeviceUniqueId × Address × DeviceUniqueId × Address

/-- The bytes a 1-D copy moves. -/
def CopyTransfers (copy : CommandCopy1D) (transfer : Transfer) : Prop :=
  ∃ offset < copy.size.toNat,
    transfer =
      (copy.srcDeviceUniqueId, copy.srcDeviceAddr + BitVec.ofNat 64 offset,
        copy.dstDeviceUniqueId, copy.dstDeviceAddr + BitVec.ofNat 64 offset)

/-- The bytes that the command nodes of a graph move. -/
def Transfers (heap : Heap) (graph : GraphId) (transfer : Transfer) : Prop :=
  ∃ node direction copy, heap.Reachable graph node ∧
    (heap.nodes node).type = .command ∧
    (heap.nodes node).command = some (.copy1D direction copy) ∧
    CopyTransfers copy transfer

/-- A copy whose segments end within the address space. -/
def Unwrapped (copy : CommandCopy1D) : Prop :=
  copy.srcDeviceAddr.toNat + copy.size.toNat < 2 ^ 64 ∧
    copy.dstDeviceAddr.toNat + copy.size.toNat < 2 ^ 64

instance (copy : CommandCopy1D) : Decidable (Unwrapped copy) :=
  inferInstanceAs (Decidable (_ ∧ _))

/-- A command node holds a command; a copy is 1-D and does not wrap. -/
def isCopy1DNode (node : CommandGraphNode) : Bool :=
  match node.command with
  | none => node.type ≠ .command
  | some (.copy1D _ copy) => decide (Unwrapped copy)
  | some (.copy2D _ _) => false
  | some _ => true

/-- All copies of the graph are 1-D and none wraps. -/
def Copies1D (heap : Heap) (graph : GraphId) : Prop :=
  ∀ node, heap.Reachable graph node → isCopy1DNode (heap.nodes node) = true

/-- The data movement of the pass is lossless. -/
structure Lossless (heap : Heap) (graph : GraphId) (after : Heap) : Prop where
  transfers_iff : ∀ transfer,
    Transfers after graph transfer ↔ Transfers heap graph transfer
  exit_reachable : after.Reachable graph (heap.graphs graph).exit
  reach_iff : ∀ source, heap.Reachable graph source →
    after.Reachable graph source →
      ∀ target, heap.Reachable graph target → after.Reachable graph target →
        (Library.MarkSearch.Reach after.successors source target ↔
          Library.MarkSearch.Reach heap.successors source target)

/-- Both commands are 1-D copies that pass the tests. -/
def fusableCommands : Option Command → Option Command → Bool
  | some (.copy1D _ u), some (.copy1D _ v) => fusable u v
  | _, _ => false

/-- Two nodes that the pass fuses: false twins with copies that touch. -/
def FusablePair (heap : Heap) (u v : NodeId) : Prop :=
  u ≠ v ∧ (heap.predecessors u).Perm (heap.predecessors v) ∧
    (heap.successors u).Perm (heap.successors v) ∧
    (heap.nodes u).type = .command ∧ (heap.nodes v).type = .command ∧
    fusableCommands (heap.nodes u).command (heap.nodes v).command = true

instance (heap : Heap) (u v : NodeId) : Decidable (FusablePair heap u v) :=
  inferInstanceAs (Decidable (_ ∧ _ ∧ _ ∧ _ ∧ _ ∧ _))

/-- No two nodes of the graph are fused. -/
def Apart (heap : Heap) (graph : GraphId) : Prop :=
  ∀ u v, heap.Reachable graph u → heap.Reachable graph v →
    ¬ FusablePair heap u v

/-! ## Without a fusable pair -/

section Apart

variable {heap : Heap} {graph : GraphId}

theorem Copies1D.congr {heap' : Heap} (copies : Copies1D heap graph)
    (same : heap'.unmarked = heap.unmarked) : Copies1D heap' graph := by
  intro node reachable
  rw [Heap.reachable_congr same] at reachable
  unfold isCopy1DNode
  rw [Heap.unmarked_type same, Heap.unmarked_command same]
  exact copies node reachable

theorem Apart.congr {heap' : Heap} (apart : Apart heap graph)
    (same : heap'.unmarked = heap.unmarked) : Apart heap' graph := by
  intro u v uReachable vReachable
  rw [Heap.reachable_congr same] at uReachable vReachable
  simp only [FusablePair, Heap.unmarked_predecessors same,
    Heap.unmarked_successors same, Heap.unmarked_type same,
    Heap.unmarked_command same]
  exact apart u v uReachable vReachable

/-- Two nodes that are no fusable pair are left alone. -/
theorem tryFuseCopy_apart (copies : Copies1D heap graph)
    {u v : NodeId} (uReachable : heap.Reachable graph u)
    (vReachable : heap.Reachable graph v)
    (apart : ¬ FusablePair heap u v) :
    tryFuseCopy heap u v = some none := by
  unfold tryFuseCopy
  split
  · rename_i tests
    obtain ⟨different, twins, uType, vType⟩ := tests
    rw [areFalseTwins, Bool.and_eq_true, List.isPerm_iff,
      List.isPerm_iff] at twins
    have uCopies := copies u uReachable
    have vCopies := copies v vReachable
    have distant : fusableCommands (heap.nodes u).command
        (heap.nodes v).command ≠ true := by
      intro close
      exact apart ⟨different, twins.1, twins.2, uType, vType, close⟩
    unfold isCopy1DNode at uCopies vCopies
    generalize (heap.nodes u).command = uCommand at *
    generalize (heap.nodes v).command = vCommand at *
    cases uCommand with
    | none => exact (of_decide_eq_true uCopies uType).elim
    | some uCommand =>
        cases vCommand with
        | none => exact (of_decide_eq_true vCopies vType).elim
        | some vCommand =>
            cases uCommand <;> cases vCommand <;>
              simp_all [fusableCommands]
  · rfl

theorem scanSiblings_apart (copies : Copies1D heap graph)
    (apart : Apart heap graph) {u : NodeId}
    (uReachable : heap.Reachable graph u) (list : List NodeId)
    (reachable : ∀ v ∈ list, heap.Reachable graph v) :
    scanSiblings heap u list = some none := by
  induction list with
  | nil => rfl
  | cons v rest induction =>
      have vReachable := reachable v (by simp)
      rw [scanSiblings, tryFuseCopy_apart copies uReachable vReachable
        (apart u v uReachable vReachable)]
      exact induction fun other member => reachable other (by simp [member])

theorem fuseNode_apart (formed : heap.WellFormed graph)
    (copies : Copies1D heap graph) (apart : Apart heap graph) {u : NodeId}
    (uReachable : heap.Reachable graph u) :
    fuseNode heap u = some heap := by
  rw [fuseNode, retryNode, scanSiblings_apart copies apart uReachable]
  intro v member
  obtain ⟨pred, isPred, isSuccessor⟩ := List.mem_flatMap.mp member
  have link := (formed.mem_predecessors u uReachable pred).mp isPred
  exact link.1.tail isSuccessor

theorem fuseNodes_apart (formed : heap.WellFormed graph)
    (copies : Copies1D heap graph) (apart : Apart heap graph)
    (nodes : List NodeId)
    (reachable : ∀ node ∈ nodes, heap.Reachable graph node) :
    nodes.foldlM fuseNode heap = some heap := by
  induction nodes with
  | nil => rfl
  | cons node rest induction =>
      rw [List.foldlM_cons,
        fuseNode_apart formed copies apart (reachable node (by simp))]
      exact induction fun other member => reachable other (by simp [member])

/-- Heaps that differ in marks only move the same data. -/
theorem lossless_of_unmarked {after : Heap}
    (formed : heap.WellFormed graph)
    (same : after.unmarked = heap.unmarked) :
    Lossless heap graph after where
  transfers_iff := by
    intro transfer
    simp only [Transfers, Heap.reachable_congr same, Heap.unmarked_type same,
      Heap.unmarked_command same]
  exit_reachable := by
    rw [Heap.reachable_congr same]
    exact formed.reachable_exit
  reach_iff := by
    intro source _ _ target _ _
    rw [Heap.unmarked_successors same]

/--
On a well-formed graph of 1-D copies without two false twins that touch, the
pass loses and invents no data movement.
-/
theorem passCopyFuse_lossless_of_apart (formed : heap.WellFormed graph)
    (ready : heap.WalkReady graph) (copies : Copies1D heap graph)
    (apart : Apart heap graph) :
    ∃ after, passCopyFuse heap graph = some after ∧
      Lossless heap graph after := by
  obtain ⟨indexed, nodes, listed, iterated⟩ :=
    Heap.createNodeIterators_spec formed.allocated ready false
  have same := iterated.unmarked_eq
  have fused : nodes.foldlM fuseNode indexed = some indexed := by
    apply fuseNodes_apart (formed.congr same) (copies.congr same)
      (apart.congr same)
    intro node member
    rw [Heap.reachable_congr same]
    exact ((iterated.mem_iff node).mp member).1
  refine ⟨indexed, ?_, lossless_of_unmarked formed same⟩
  simp only [passCopyFuse, listed]
  exact fused

end Apart

theorem copies1D_of_numbered {heap : Heap} {graph : GraphId}
    (numbered : heap.Numbered graph)
    (copies : ∀ node : Nat, node < heap.nodeCount →
      isCopy1DNode (heap.nodes node) = true) :
    Copies1D heap graph :=
  fun node reachable => copies node (numbered.lt_of_reachable reachable)

theorem apart_of_numbered {heap : Heap} {graph : GraphId}
    (numbered : heap.Numbered graph)
    (apart : ∀ u : Nat, u < heap.nodeCount →
      ∀ v : Nat, v < heap.nodeCount → ¬ FusablePair heap u v) :
    Apart heap graph :=
  fun u v uReachable vReachable =>
    apart u (numbered.lt_of_reachable uReachable) v
      (numbered.lt_of_reachable vReachable)

/-! ## Two adjacent halves -/

/-- A copy of 64 bytes from device 1 to device 2. -/
def halfCopy (offset : Address) : CommandCopy1D where
  srcDeviceUniqueId := 1
  dstDeviceUniqueId := 2
  srcDeviceAddr := 4096 + offset
  dstDeviceAddr := 8192 + offset
  size := 64

/-- Two copies side by side, the second at the given offset. -/
def halves (offset : Address) : Heap :=
  Heap.ofNodes
    [Heap.linkedNode unspecifiedDeviceUniqueId .empty [] [1, 2],
      { Heap.linkedNode 1 .command [0] [3] with
        command := some (.copy1D .d2d (halfCopy 0)) },
      { Heap.linkedNode 1 .command [0] [3] with
        command := some (.copy1D .d2d (halfCopy offset)) },
      Heap.linkedNode unspecifiedDeviceUniqueId .empty [1, 2] []]
    { entry := 0, exit := 3, walkId := 0, isSequence := false }

/-- Two adjacent halves are both lost: the exit is no longer reachable. -/
theorem passCopyFuse_loses_halves :
    (halves 64).WellFormed 0 ∧ (halves 64).WalkReady 0 ∧
      Copies1D (halves 64) 0 ∧
      ∃ after, passCopyFuse (halves 64) 0 = some after ∧
        ¬ Lossless (halves 64) 0 after := by
  have numbered : (halves 64).Numbered 0 := by decide
  refine
    ⟨numbered.wellFormed, numbered.walkReady (by decide),
      copies1D_of_numbered numbered (by decide), ?_⟩
  have ran : (passCopyFuse (halves 64) 0).map (fun after =>
      (after.successors 0, (after.graphs 0).entry)) = some ([], 0) := by
    decide
  obtain ⟨after, passed, observed⟩ := Option.map_eq_some_iff.mp ran
  obtain ⟨noSuccessors, entryEq⟩ := Prod.mk.inj observed
  refine ⟨after, passed, fun lossless => ?_⟩
  have path := lossless.exit_reachable
  unfold Heap.Reachable at path
  rw [entryEq] at path
  rcases Relation.ReflTransGen.cases_head path with same | ⟨next, edge, _⟩
  · exact absurd same (by decide)
  · have member : next ∈ after.successors 0 := edge
    rw [noSuccessors] at member
    exact List.not_mem_nil member

theorem passCopyFuse_lossless_of_apart_halves :
    ∃ after, passCopyFuse (halves 4096) 0 = some after ∧
      Lossless (halves 4096) 0 after := by
  have numbered : (halves 4096).Numbered 0 := by decide
  exact
    passCopyFuse_lossless_of_apart numbered.wellFormed
      (numbered.walkReady (by decide))
      (copies1D_of_numbered numbered (by decide))
      (apart_of_numbered numbered (by decide))

end Cgir.Pass.CopyFuse
