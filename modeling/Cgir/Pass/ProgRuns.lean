import Cgir.Model.Numbered
import Cgir.Pass.ProgFuse

/-!
# The runs that prog-fuse contracts

A run is a list of LLVM-IR programs in series with pairwise equal launch
parameters.  The chains of the pass are the maximal runs of the graph, and the
pass replaces each of them by its first node.
-/

namespace Cgir.Pass.ProgFuse

open Relation
open Cgir.Library
open Cgir.Model

/-! ## Maximal runs -/

/-- Both nodes have programs, with equal launch parameters. -/
def SameLaunch (heap : Heap) (u v : NodeId) : Prop :=
  ∃ prog prog', llvmirProg (heap.nodes u) = some prog ∧
    llvmirProg (heap.nodes v) = some prog' ∧
      commandProgLaunchParamsEqual prog prog' = true

/-- A list of LLVM-IR programs in series with pairwise equal launch parameters. -/
structure IsRun (heap : Heap) (graph : GraphId) (run : List NodeId) :
    Prop where
  programs : ∀ n ∈ run, heap.Reachable graph n ∧
    (llvmirProg (heap.nodes n)).isSome
  series : List.IsChain (Sole (heap.Link graph)) run
  launch : run.Pairwise (SameLaunch heap)

/-- A run of two or more programs that no longer run contains. -/
structure MaximalRun (heap : Heap) (graph : GraphId) (run : List NodeId) :
    Prop where
  isRun : IsRun heap graph run
  long : 2 ≤ run.length
  maximal : ∀ other, IsRun heap graph other → run <:+: other → other = run

section Runs

variable {heap : Heap} {graph : GraphId} {u v : NodeId} {run : List NodeId}

theorem SameLaunch.trans {w : NodeId} (first : SameLaunch heap u v)
    (second : SameLaunch heap v w) : SameLaunch heap u w := by
  obtain ⟨prog, middle, held, heldMiddle, launch⟩ := first
  obtain ⟨middle', prog', heldMiddle', held', launch'⟩ := second
  rw [heldMiddle, Option.some.injEq] at heldMiddle'
  subst heldMiddle'
  exact
    ⟨prog, prog', held, held', launchParamsEqual_congr launch ▸ launch'⟩

variable (formed : heap.WellFormed graph)

include formed

theorem fuseNext_iff_sole (reachable : heap.Reachable graph u) :
    fuseNext heap u = some v ↔
      Sole (heap.Link graph) u v ∧ SameLaunch heap u v := by
  rw [fuseNext_eq_some_iff, areSequence_iff_sole formed.represents reachable]
  rfl

/-- Neighbours in a run are steps of a chain. -/
theorem IsRun.steps (isRun : IsRun heap graph run) :
    List.IsChain (Steps (fuseNext heap)) run := by
  rw [List.isChain_iff_forall_rel_of_append_cons_cons]
  intro source target before after split
  have member : source ∈ run := by simp [split]
  have sole := List.isChain_iff_forall_rel_of_append_cons_cons.mp isRun.series
    split
  have launch := isRun.launch
  rw [split, List.pairwise_append] at launch
  have same :=
    (List.pairwise_cons.mp launch.2.1).1 target List.mem_cons_self
  exact
    (fuseNext_iff_sole formed (isRun.programs source member).1).mpr
      ⟨sole, same⟩

/-- Steps of a chain form a run. -/
theorem isRun_of_steps (steps : List.IsChain (Steps (fuseNext heap)) run)
    (programs : ∀ n ∈ run, heap.Reachable graph n ∧
      (llvmirProg (heap.nodes n)).isSome) : IsRun heap graph run where
  programs := programs
  series := by
    refine List.IsChain.imp_of_mem_imp ?_ steps
    intro source target member _ step
    exact sole_of_fuseNext formed (programs source member).1 step
  launch := by
    have trans : IsTrans NodeId (SameLaunch heap) :=
      ⟨fun _ _ _ => SameLaunch.trans⟩
    apply List.IsChain.pairwise
    refine List.IsChain.imp_of_mem_imp ?_ steps
    intro source target member _ step
    exact ((fuseNext_iff_sole formed (programs source member).1).mp step).2

/-- A longer chain of a head is a run. -/
theorem isRun_chainOf (reachable : heap.Reachable graph u)
    (long : 2 ≤ (chainOf heap u).length) :
    IsRun heap graph (chainOf heap u) := by
  have steps := follow_isChain _ (chainOf_ran formed reachable)
  apply isRun_of_steps formed steps
  intro n member
  refine ⟨reachable_of_mem_chainOf formed reachable member, ?_⟩
  obtain ⟨rest, chainEq⟩ := chainOf_cons formed reachable
  cases rest with
  | nil =>
      rw [chainEq] at long
      exact absurd long (by simp)
  | cons next rest =>
      rw [chainEq] at steps
      obtain ⟨-, prog, -, held, -⟩ :=
        fuseNext_eq_some_iff.mp (List.isChain_cons_cons.mp steps).1
      obtain ⟨prog', held', -⟩ :=
        launch_of_mem_chainOf formed reachable held member
      simp [held']

/-- Nothing continues a maximal run, at either end. -/
theorem MaximalRun.ends (maximal : MaximalRun heap graph run) :
    (∀ first, run.head? = some first → fusePrev heap first = none) ∧
      ∀ last, run.getLast? = some last → fuseNext heap last = none := by
  have steps := maximal.isRun.steps formed
  have programs := maximal.isRun.programs
  constructor
  · intro first isFirst
    by_contra some
    obtain ⟨before, step⟩ := Option.ne_none_iff_exists'.mp some
    have firstMem := List.mem_of_head? isFirst
    have link :=
      link_of_fusePrev formed (programs first firstMem).1 step
    have linked := fusePrev_eq_some_iff.mp step
    obtain ⟨-, prog, -, held, -⟩ := fuseNext_eq_some_iff.mp linked
    have longer : IsRun heap graph (before :: run) := by
      apply isRun_of_steps formed
      · rw [List.isChain_cons]
        refine ⟨?_, steps⟩
        intro next isNext
        rw [isFirst] at isNext
        cases isNext
        exact linked
      · intro n member
        rcases List.mem_cons.mp member with rfl | inside
        · exact ⟨link.1, by simp [held]⟩
        · exact programs n inside
    have same :=
      maximal.maximal _ longer (List.suffix_cons before run).isInfix
    exact absurd (congrArg List.length same) (by simp)
  · intro last isLast
    by_contra some
    obtain ⟨after, step⟩ := Option.ne_none_iff_exists'.mp some
    have lastMem := List.mem_of_getLast? isLast
    have sole := sole_of_fuseNext formed (programs last lastMem).1 step
    obtain ⟨-, -, prog, -, held, -⟩ := fuseNext_eq_some_iff.mp step
    have longer : IsRun heap graph (run ++ [after]) := by
      apply isRun_of_steps formed
      · rw [List.isChain_append]
        refine ⟨steps, by simp, ?_⟩
        intro x isX y isY
        rw [isLast] at isX
        cases isX
        cases isY
        exact step
      · intro n member
        rcases List.mem_append.mp member with inside | isAfter
        · exact programs n inside
        · rw [List.mem_singleton] at isAfter
          subst isAfter
          exact ⟨sole.step.reachable, by simp [held]⟩
    have same :=
      maximal.maximal _ longer (List.prefix_append run [after]).isInfix
    exact absurd (congrArg List.length same) (by simp)

/-- The maximal runs are the longer chains of heads. -/
theorem maximalRun_iff :
    MaximalRun heap graph run ↔ ∃ u, heap.Reachable graph u ∧
      headOf heap u = u ∧ 2 ≤ (chainOf heap u).length ∧
        run = chainOf heap u := by
  constructor
  · intro maximal
    obtain ⟨first, last⟩ := maximal.ends formed
    have steps := maximal.isRun.steps formed
    have long := maximal.long
    cases run with
    | nil => exact absurd long (by simp)
    | cons u rest =>
        have reachable :=
          (maximal.isRun.programs u List.mem_cons_self).1
        have chainEq :=
          follow_unique _ (chainOf_ran formed reachable) steps last
        exact
          ⟨u, reachable,
            (headOf_eq_self_iff formed reachable).mpr (first u rfl),
            chainEq ▸ long, chainEq.symm⟩
  · rintro ⟨u, reachable, isHead, long, rfl⟩
    refine ⟨isRun_chainOf formed reachable long, long, ?_⟩
    rintro other isRun ⟨before, after, rfl⟩
    -- A longer run would continue the chain at one of its ends.
    obtain ⟨rest, chainEq⟩ := chainOf_cons formed reachable
    obtain ⟨last, path, ends⟩ := chainOf_straight formed reachable
    have steps := isRun.steps formed
    have noBefore : before = [] := by
      by_contra some
      obtain ⟨front, p, rfl⟩ :=
        (List.eq_nil_or_concat' before).resolve_left some
      rw [chainEq, List.append_assoc, List.append_assoc,
        List.singleton_append, List.cons_append,
        List.isChain_append_cons_cons] at steps
      have step : Steps (fuseNext heap) p u := steps.2.1
      have none := (headOf_eq_self_iff formed reachable).mp isHead
      rw [fusePrev_eq_some_iff.mpr step] at none
      cases none
    subst noBefore
    have noAfter : after = [] := by
      cases after with
      | nil => rfl
      | cons w later =>
          rw [List.nil_append, List.isChain_append] at steps
          have step := steps.2.2 last path.getLast? w rfl
          rw [Steps, ends] at step
          cases step
    rw [noAfter, List.nil_append, List.append_nil]

end Runs

/-! ## What walks write -/

section Congruence

variable {heap heap' : Heap} (same : heap'.unmarked = heap.unmarked)

include same

theorem llvmirProg_congr (n : NodeId) :
    llvmirProg (heap'.nodes n) = llvmirProg (heap.nodes n) := by
  unfold llvmirProg
  rw [Heap.unmarked_type same, Heap.unmarked_command same]

theorem fuseNext_congr : fuseNext heap' = fuseNext heap := by
  funext u
  apply Option.ext
  intro v
  simp only [fuseNext_eq_some_iff, areSequence_iff, llvmirProg_congr same,
    Heap.unmarked_successors same, Heap.unmarked_predecessors same]

theorem fusePrev_congr : fusePrev heap' = fusePrev heap := by
  funext v
  apply Option.ext
  intro u
  rw [fusePrev_eq_some_iff, fusePrev_eq_some_iff, fuseNext_congr same]

theorem chainOf_congr : chainOf heap' = chainOf heap := by
  funext u
  rw [chainOf, chainOf, fuseNext_congr same, Heap.unmarked_nodeCount same]

theorem headOf_congr : headOf heap' = headOf heap := by
  funext v
  rw [headOf, headOf, fusePrev_congr same, Heap.unmarked_nodeCount same]

theorem progsOf_congr : progsOf heap' = progsOf heap := by
  funext chain
  unfold progsOf
  congr 1
  funext c
  exact llvmirProg_congr same c

end Congruence

/-! ## The whole pass -/

section Pass

variable {heap : Heap} {graph : GraphId}

/-- The ends of the graph are control nodes. -/
structure ControlEnds (heap : Heap) (graph : GraphId) : Prop where
  entry_empty : (heap.nodes (heap.graphs graph).entry).type = .empty
  exit_empty : (heap.nodes (heap.graphs graph).exit).type = .empty

instance (heap : Heap) (graph : GraphId) :
    Decidable (ControlEnds heap graph) :=
  decidable_of_iff
    ((heap.nodes (heap.graphs graph).entry).type = .empty ∧
      (heap.nodes (heap.graphs graph).exit).type = .empty)
    ⟨fun both => ⟨both.1, both.2⟩, fun ends =>
      ⟨ends.entry_empty, ends.exit_empty⟩⟩

theorem llvmirProg_of_empty {node : CommandGraphNode}
    (empty : node.type = .empty) : llvmirProg node = none := by
  simp [llvmirProg, empty]

theorem ControlEnds.not_end (ends : ControlEnds heap graph) {n : NodeId}
    (isProg : (llvmirProg (heap.nodes n)).isSome) :
    n ≠ (heap.graphs graph).entry ∧ n ≠ (heap.graphs graph).exit := by
  constructor
  · rintro rfl
    rw [llvmirProg_of_empty ends.entry_empty] at isProg
    cases isProg
  · rintro rfl
    rw [llvmirProg_of_empty ends.exit_empty] at isProg
    cases isProg

/-- Nodes in pre-order come after the node that they follow in sequence. -/
theorem ordered_of_preSorted (formed : heap.WellFormed graph)
    {visited : List NodeId}
    (sorted : MarkSearch.PreSorted heap.successors
      (heap.graphs graph).entry visited)
    (reachable : ∀ n ∈ visited, heap.Reachable graph n)
    {keep : NodeId → Bool} {earlier later : List NodeId} {u : NodeId}
    (split : visited.filter keep = earlier ++ u :: later) {p : NodeId}
    (sole : Sole (heap.Link graph) p u) (kept : keep p = true) :
    p ∈ earlier := by
  obtain ⟨front, back, rfl, frontEq, backEq⟩ :=
    List.filter_eq_append_iff.mp split
  obtain ⟨skipped, rest, rfl, dropped, -, -⟩ :=
    List.filter_eq_cons_iff.mp backEq
  have before := sorted (front ++ skipped) u rest (by simp)
  rcases before with isEntry | ⟨pred, member, edge⟩
  · have first := formed.predecessors_entry
    rw [← isEntry] at first
    have member :=
      (formed.mem_predecessors u sole.step.reachable p).mpr sole.step
    rw [first] at member
    exact (List.not_mem_nil member).elim
  · have link : heap.Link graph pred u :=
      ⟨reachable pred (by
        rcases List.mem_append.mp member with inside | inside
        · simp [inside]
        · simp [inside]), edge⟩
    have same := sole.only_prev pred link
    subst same
    rcases List.mem_append.mp member with inside | inside
    · rw [← frontEq]
      exact List.mem_filter.mpr ⟨inside, kept⟩
    · exact (dropped pred inside kept).elim

/-- The state of the pass when it returns. -/
structure FusedAll (fuse : List CommandProg → CommandProg) (heap : Heap)
    (graph : GraphId) (after : Heap) (fused : List (List NodeId)) : Prop where
  represents : after.Represents
    (fun n => heap.Reachable graph n ∧ headOf heap n = n)
    (Digraph.Contract (heap.Link graph) (headOf heap))
  graph_eq : (after.graphs graph).entry = (heap.graphs graph).entry ∧
    (after.graphs graph).exit = (heap.graphs graph).exit
  nodeCount_eq : after.nodeCount = heap.nodeCount
  graphCount_eq : after.graphCount = heap.graphCount
  kept : ∀ n, (after.nodes n).type = (heap.nodes n).type ∧
    (after.nodes n).deviceUniqueId = (heap.nodes n).deviceUniqueId
  command_eq : ∀ n, heap.Reachable graph n → (after.nodes n).command =
    if headOf heap n = n then fusedCommand fuse heap n
    else (heap.nodes n).command
  mem_fused : ∀ chain, chain ∈ fused ↔ MaximalRun heap graph chain

/-- A node that is in no longer chain keeps its command. -/
theorem fusedCommand_of_none {fuse : List CommandProg → CommandProg}
    (formed : heap.WellFormed graph) {n : NodeId}
    (reachable : heap.Reachable graph n)
    (notProg : llvmirProg (heap.nodes n) = none) :
    fusedCommand fuse heap n = (heap.nodes n).command := by
  rw [fusedCommand, if_pos (chainOf_length_lt formed reachable notProg)]

/-- The vector of the pass, which lists a node after the one that it follows. -/
structure Listing (heap : Heap) (graph : GraphId) (indexed : Heap)
    (nodes : List NodeId) : Prop where
  listed : heap.createNodeIterators graph false = some (indexed, nodes)
  iterated : heap.Iterated graph false indexed nodes
  ordered : ∀ earlier u later, nodes = earlier ++ u :: later →
    ∀ p, p ≠ (heap.graphs graph).entry →
      Sole (heap.Link graph) p u → p ∈ earlier

theorem exists_listing (formed : heap.WellFormed graph)
    (ready : heap.WalkReady graph) :
    ∃ indexed nodes, Listing heap graph indexed nodes := by
  obtain ⟨indexed, nodes, listed, iterated⟩ :=
    Heap.createNodeIterators_spec formed.allocated ready false
  obtain ⟨_, everything, listedAll, iteratedAll⟩ :=
    Heap.createNodeIterators_spec formed.allocated ready true
  obtain ⟨visited, all, inner, ranAll, ranInner, sorted⟩ :=
    Heap.createNodeIterators_order formed.allocated ready
  obtain ⟨-, nodesEq⟩ := Prod.mk.inj
    (Option.some.inj (listed.symm.trans ranInner))
  obtain ⟨-, visitedEq⟩ := Prod.mk.inj
    (Option.some.inj (listedAll.symm.trans ranAll))
  refine ⟨indexed, nodes, listed, iterated, ?_⟩
  intro earlier u later split p notEntry sole
  rw [nodesEq] at split
  apply ordered_of_preSorted formed sorted _ split sole
  · -- What precedes a node is not the exit, which precedes nothing.
    have notExit : p ≠ (heap.graphs graph).exit := by
      rintro rfl
      have member := sole.step.2
      rw [formed.successors_exit] at member
      exact List.not_mem_nil member
    simp [Heap.skipsNode, notEntry, notExit]
  · intro n member
    rw [← visitedEq] at member
    exact ((iteratedAll.mem_iff n).mp member).1

/-- The vector of the pass lists a program after the one that it follows. -/
theorem exists_visits (formed : heap.WellFormed graph)
    (ready : heap.WalkReady graph) (ends : ControlEnds heap graph) :
    ∃ indexed nodes, heap.createNodeIterators graph false =
        some (indexed, nodes) ∧
      heap.Iterated graph false indexed nodes ∧
        Visits indexed graph nodes := by
  obtain ⟨indexed, nodes, listed, iterated, ordered⟩ :=
    exists_listing formed ready
  have same := iterated.unmarked_eq
  have reachableEq : indexed.Reachable graph = heap.Reachable graph :=
    Heap.reachable_congr same
  refine ⟨indexed, nodes, listed, iterated, ?_⟩
  exact {
    nodup := iterated.nodup
    reachable := by
      intro n member
      rw [reachableEq]
      exact ((iterated.mem_iff n).mp member).1
    index_eq := iterated.index_eq
    listed := by
      intro n reachable isProg
      rw [reachableEq] at reachable
      rw [llvmirProg_congr same] at isProg
      exact
        (iterated.mem_iff n).mpr ⟨reachable, Or.inr (ends.not_end isProg)⟩
    ordered := by
      intro earlier u later split p sole isProg
      rw [Heap.link_congr same] at sole
      rw [llvmirProg_congr same] at isProg
      exact ordered earlier u later split p (ends.not_end isProg).1 sole }

/-- When all nodes are done, every node belongs to its head. -/
theorem holderAt_all (formed : heap.WellFormed graph) {nodes : List NodeId}
    (listed : ∀ n, heap.Reachable graph n →
      (llvmirProg (heap.nodes n)).isSome → n ∈ nodes) {n : NodeId}
    (reachable : heap.Reachable graph n) :
    holderAt heap nodes n = headOf heap n := by
  unfold holderAt
  split
  · rfl
  · rename_i absent
    rcases ReflTransGen.cases_head (steps_headOf formed reachable) with
      same | ⟨next, step, -⟩
    · exact same.symm
    · obtain ⟨-, prog, -, held, -⟩ := fuseNext_eq_some_iff.mp step
      exact
        (absent
          (listed _ (headOf_reachable formed reachable)
            (by simp [held]))).elim

/-- The state before the loop over the nodes. -/
theorem Fusing.initial {fuse : List CommandProg → CommandProg}
    {nodes : List NodeId} (formed : heap.WellFormed graph) :
    Fusing fuse heap graph nodes []
      { heap := heap, contracted := fun _ => false, fused := [] } := by
  have alone : ∀ n, holderAt heap [] n = n := fun n =>
    holderAt_of_fresh List.not_mem_nil
  constructor
  · constructor
    · intro n member
      exact (List.not_mem_nil member).elim
    · intro w member
      exact (List.not_mem_nil member).elim
    · congr 1
    · intro chain
      simp
  · refine
      (formed.represents.congr_edge fun source target => ?_).congr_live
        fun n => ?_
    · constructor
      · rintro ⟨-, upper, lower, link, upperEq, lowerEq⟩
        rw [List.map_nil, alone] at upperEq lowerEq
        exact upperEq ▸ lowerEq ▸ link
      · intro link
        refine ⟨?_, source, target, link, alone source, alone target⟩
        rintro rfl
        exact formed.acyclic source (TransGen.single link)
    · exact and_iff_left (alone n)
  · intro n _
    simp [alone]

/-- The pass returns, after the loop over the nodes. -/
theorem passProgFuse_fusing (fuse : List CommandProg → CommandProg)
    (formed : heap.WellFormed graph) (ready : heap.WalkReady graph)
    (ends : ControlEnds heap graph) :
    ∃ indexed nodes state, heap.Iterated graph false indexed nodes ∧
      Visits indexed graph nodes ∧
      passProgFuse fuse heap graph = some (state.heap, state.fused) ∧
      Fusing fuse indexed graph nodes nodes.zipIdx state := by
  obtain ⟨indexed, nodes, listed, iterated, visits⟩ :=
    exists_visits formed ready ends
  have formed' := formed.congr iterated.unmarked_eq
  obtain ⟨state, ran, fusing⟩ :=
    Loop.foldlM_invariant (fuseNode fuse nodes)
      (Fusing fuse indexed graph nodes) nodes.zipIdx
      { heap := indexed, contracted := fun _ => false, fused := [] }
      (by
        rintro done ⟨u, i⟩ rest state split fusing
        exact
          fuseNode_spec formed' visits.toSnapshot split fusing fun _ =>
            visits.inside formed' (mem_of_split split))
      (Fusing.initial formed')
  refine ⟨indexed, nodes, state, iterated, visits, ?_, fusing⟩
  simp only [passProgFuse, listed]
  exact congrArg (Option.bind · _) ran

/--
A heap in which the chains of all programs are fused, and whose lists record the
contraction.
-/
theorem FusedAll.of_progress {fuse : List CommandProg → CommandProg}
    {indexed after : Heap} {nodes : List NodeId} {fused : List (List NodeId)}
    (formed : heap.WellFormed graph) (same : indexed.unmarked = heap.unmarked)
    (listed : ∀ n, indexed.Reachable graph n →
      (llvmirProg (indexed.nodes n)).isSome → n ∈ nodes)
    (progress : Progress fuse indexed graph nodes after fused)
    (represents : after.Represents (LiveAt indexed graph nodes)
      (EdgeAt indexed graph nodes)) :
    FusedAll fuse heap graph after fused := by
  have formed' := formed.congr same
  have linkEq : indexed.Link graph = heap.Link graph :=
    Heap.link_congr same
  have reachableEq : indexed.Reachable graph = heap.Reachable graph :=
    Heap.reachable_congr same
  have holderEq : ∀ {n}, indexed.Reachable graph n →
      holderAt indexed nodes n = headOf heap n := by
    intro n reachable
    rw [holderAt_all formed' listed reachable, headOf_congr same]
  have unlinked := progress.unlinked_eq
  have graphsEq := Heap.unlinked_graphs unlinked
  constructor
  · refine (represents.congr_edge fun source target => ?_).congr_live
      fun n => ?_
    · rw [← linkEq]
      refine
        Digraph.contract_congr (fun upper lower link => ?_) source target
      exact ⟨(holderEq link.1).symm, (holderEq link.reachable).symm⟩
    · rw [← reachableEq]
      apply and_congr_right
      intro reachable
      rw [holderEq reachable]
  · have original := Heap.unmarked_graphs same graph
    rw [graphsEq]
    exact ⟨original.1, original.2.1⟩
  · exact progress.nodeCount_eq.trans (Heap.unmarked_nodeCount same)
  · have countEq : after.graphCount = indexed.graphCount :=
      (Heap.unlinked_graphCount unlinked).trans rfl
    exact countEq.trans (Heap.unmarked_graphCount same)
  · intro n
    exact
      ⟨(Heap.unlinked_type unlinked n).trans (Heap.unmarked_type same n),
        (Heap.unlinked_deviceUniqueId unlinked n).trans
          (Heap.unmarked_deviceUniqueId same n)⟩
  · intro n reachable
    have command : (after.nodes n).command =
        commandAt fuse indexed nodes n := Heap.unlinked_command unlinked n
    have fusedEq : fusedCommand fuse indexed n = fusedCommand fuse heap n := by
      simp only [fusedCommand, chainOf_congr same, progsOf_congr same,
        Heap.unmarked_command same]
    rw [command, commandAt, headOf_congr same, fusedEq,
      Heap.unmarked_command same]
    by_cases isHead : headOf heap n = n
    · by_cases member : n ∈ nodes
      · rw [if_pos ⟨member, isHead⟩, if_pos isHead]
      · rw [if_neg fun both => member both.1, if_pos isHead,
          fusedCommand_of_none formed reachable]
        -- A program would have been listed.
        by_contra isProg
        apply member
        apply listed n (reachableEq ▸ reachable)
        rw [llvmirProg_congr same]
        exact Option.isSome_iff_ne_none.mpr isProg
    · rw [if_neg fun both => isHead both.2, if_neg isHead]
  · intro chain
    rw [progress.mem_fused, maximalRun_iff formed, chainOf_congr same,
      headOf_congr same]
    constructor
    · rintro ⟨u, member, isHead, long, chainEq⟩
      exact
        ⟨u, reachableEq ▸ progress.reachable u member, isHead, long, chainEq⟩
    · rintro ⟨u, reachable, isHead, long, chainEq⟩
      refine ⟨u, ?_, isHead, long, chainEq⟩
      apply listed u (reachableEq ▸ reachable)
      rw [llvmirProg_congr same]
      by_contra notProg
      rw [Option.not_isSome_iff_eq_none] at notProg
      exact
        absurd (chainOf_length_lt formed reachable notProg)
          (Nat.not_lt.mpr long)

/-- The pass returns, and contracts every chain into its head. -/
theorem passProgFuse_spec (fuse : List CommandProg → CommandProg)
    (formed : heap.WellFormed graph) (ready : heap.WalkReady graph)
    (ends : ControlEnds heap graph) :
    ∃ after fused, passProgFuse fuse heap graph = some (after, fused) ∧
      FusedAll fuse heap graph after fused := by
  obtain ⟨indexed, nodes, state, iterated, visits, ran, fusing⟩ :=
    passProgFuse_fusing fuse formed ready ends
  have doneEq : (nodes.zipIdx).map Prod.fst = nodes := List.zipIdx_map_fst _ _
  obtain ⟨progress, represents, -⟩ := fusing
  rw [doneEq] at progress represents
  exact
    ⟨state.heap, state.fused, ran,
      FusedAll.of_progress formed iterated.unmarked_eq visits.listed progress
        represents⟩

/-- Every node of the graph carries the identifier of the pass's walk. -/
theorem passProgFuse_marks (fuse : List CommandProg → CommandProg)
    (formed : heap.WellFormed graph) (ready : heap.WalkReady graph)
    (ends : ControlEnds heap graph) {after : Heap}
    {fused : List (List NodeId)}
    (ran : passProgFuse fuse heap graph = some (after, fused)) :
    ∀ n, heap.Reachable graph n →
      (after.nodes n).walkId = (after.graphs graph).walkId := by
  obtain ⟨indexed, nodes, state, iterated, -, ran', fusing⟩ :=
    passProgFuse_fusing fuse formed ready ends
  rw [ran', Option.some.injEq, Prod.mk.injEq] at ran
  obtain ⟨rfl, -⟩ := ran
  have unlinked := fusing.progress.unlinked_eq
  intro n reachable
  have mark : (state.heap.nodes n).walkId = (indexed.nodes n).walkId :=
    Heap.unlinked_walkId unlinked n
  have graphsEq : state.heap.graphs = indexed.graphs :=
    (Heap.unlinked_graphs unlinked).trans rfl
  rw [mark, graphsEq, iterated.mark_reachable n reachable,
    iterated.walkId_eq]

/-! ## The graph after the pass -/

/-- The graph in which every maximal run is replaced by its first node. -/
structure RunsFused (fuse : List CommandProg → CommandProg) (heap : Heap)
    (graph : GraphId) (after : Heap) : Prop where
  formed : after.WellFormed graph
  graph_eq : (after.graphs graph).entry = (heap.graphs graph).entry ∧
    (after.graphs graph).exit = (heap.graphs graph).exit
  reachable_iff : ∀ n, after.Reachable graph n ↔
    heap.Reachable graph n ∧
      ∀ run, MaximalRun heap graph run → n ∉ run.tail
  link_iff : ∀ source target, after.Link graph source target ↔
    (∀ run, MaximalRun heap graph run →
        source ∉ run.tail ∧ target ∉ run.tail) ∧
      (heap.Link graph source target ∨
        ∃ run last, MaximalRun heap graph run ∧
          run.head? = some source ∧ run.getLast? = some last ∧
            heap.Link graph last target)
  kept : ∀ n, (after.nodes n).type = (heap.nodes n).type ∧
    (after.nodes n).deviceUniqueId = (heap.nodes n).deviceUniqueId
  command_run : ∀ run first, MaximalRun heap graph run →
    run.head? = some first →
      (after.nodes first).command = some (.prog (fuse (progsOf heap run)))
  command_other : ∀ n, heap.Reachable graph n →
    (∀ run, MaximalRun heap graph run → run.head? ≠ some n) →
      (after.nodes n).command = (heap.nodes n).command

section Contraction

variable (formed : heap.WellFormed graph)

include formed

/-- The nodes that are no head are the later members of maximal runs. -/
theorem headOf_eq_self_iff_runs {n : NodeId}
    (reachable : heap.Reachable graph n) :
    headOf heap n = n ↔
      ∀ run, MaximalRun heap graph run → n ∉ run.tail := by
  constructor
  · intro isHead run maximal member
    obtain ⟨u, uReachable, uHead, -, rfl⟩ := (maximalRun_iff formed).mp maximal
    obtain ⟨last, path, -⟩ := chainOf_straight formed uReachable
    have inside :=
      (mem_chainOf_headOf formed uReachable uHead reachable).mp
        (List.mem_of_mem_tail member)
    have nodup := path.nodup formed.acyclic
    obtain ⟨rest, chainEq⟩ := chainOf_cons formed uReachable
    rw [chainEq] at member nodup
    rw [isHead] at inside
    subst inside
    exact (List.nodup_cons.mp nodup).1 member
  · intro outside
    by_contra inner
    have headReachable := headOf_reachable formed reachable
    have headHead := headOf_headOf formed reachable
    have member :=
      (mem_chainOf_headOf formed headReachable headHead reachable).mpr rfl
    obtain ⟨rest, chainEq⟩ := chainOf_cons formed headReachable
    have inRest : n ∈ rest := by
      rw [chainEq, List.mem_cons] at member
      exact member.resolve_left fun same => inner same.symm
    have long : 2 ≤ (chainOf heap (headOf heap n)).length := by
      rw [chainEq, List.length_cons]
      exact Nat.succ_le_succ (List.length_pos_of_mem inRest)
    apply outside _
      ((maximalRun_iff formed).mpr
        ⟨_, headReachable, headHead, long, rfl⟩)
    rw [chainEq]
    exact inRest

/-- An edge of the contraction leaves the end of a chain and enters a head. -/
theorem contract_headOf_iff (source target : NodeId) :
    Digraph.Contract (heap.Link graph) (headOf heap) source target ↔
      headOf heap source = source ∧ headOf heap target = target ∧
        heap.Reachable graph source ∧
          ∃ last, (chainOf heap source).getLast? = some last ∧
            heap.Link graph last target := by
  constructor
  · rintro ⟨apart, upper, lower, link, rfl, rfl⟩
    have lowerHead : headOf heap lower = lower := by
      rw [headOf_eq_self_iff formed link.reachable]
      by_contra some
      obtain ⟨p, step⟩ := Option.ne_none_iff_exists'.mp some
      have linked := fusePrev_eq_some_iff.mp step
      have pLink := link_of_fusePrev formed link.reachable step
      have same :=
        (sole_of_fuseNext formed pLink.1 linked).only_prev upper link
      subst same
      exact apart (headOf_of_fuseNext formed link.1 linked).symm
    have headReachable := headOf_reachable formed link.1
    have headHead := headOf_headOf formed link.1
    have member :=
      (mem_chainOf_headOf formed headReachable headHead link.1).mpr rfl
    obtain ⟨last, path, -⟩ := chainOf_straight formed headReachable
    have upperLast : upper = last := by
      by_contra inner
      have inside := path.next_mem member inner link
      rw [mem_chainOf_headOf formed headReachable headHead link.reachable]
        at inside
      exact apart inside.symm
    refine
      ⟨headHead, headOf_headOf formed link.reachable, headReachable, last,
        path.getLast?, ?_⟩
    rw [lowerHead, ← upperLast]
    exact link
  · rintro ⟨sourceHead, targetHead, sourceReachable, last, isLast, link⟩
    have member := List.mem_of_getLast? isLast
    have lastHead :=
      (mem_chainOf_headOf formed sourceReachable sourceHead link.1).mp member
    refine ⟨?_, last, target, link, lastHead, targetHead⟩
    rintro rfl
    have path :=
      links_of_steps formed sourceReachable
        ((mem_chainOf_iff formed sourceReachable last).mp member)
    exact formed.acyclic source (TransGen.tail' path link)

/-- Contraction of the chains creates no cycle. -/
theorem acyclic_contract_headOf :
    Digraph.Acyclic (Digraph.Contract (heap.Link graph) (headOf heap)) := by
  have lifted : ∀ {source target},
      TransGen (Digraph.Contract (heap.Link graph) (headOf heap)) source
        target → TransGen (heap.Link graph) source target := by
    intro source target path
    have single : ∀ {source target},
        Digraph.Contract (heap.Link graph) (headOf heap) source target →
          TransGen (heap.Link graph) source target := by
      intro source target step
      obtain ⟨-, -, reachable, last, isLast, link⟩ :=
        (contract_headOf_iff formed source target).mp step
      have path :=
        links_of_steps formed reachable
          ((mem_chainOf_iff formed reachable last).mp
            (List.mem_of_getLast? isLast))
      exact TransGen.tail' path link
    induction path with
    | single step => exact single step
    | tail _ step induction => exact induction.trans (single step)
  intro vertex cycle
  exact formed.acyclic vertex (lifted cycle)

end Contraction

/-- A head is alone in its chain, or its chain is a maximal run. -/
theorem chainOf_cases (formed : heap.WellFormed graph) {u : NodeId}
    (reachable : heap.Reachable graph u) (isHead : headOf heap u = u) :
    chainOf heap u = [u] ∨
      (MaximalRun heap graph (chainOf heap u) ∧
        2 ≤ (chainOf heap u).length ∧ (chainOf heap u).head? = some u) := by
  obtain ⟨rest, chainEq⟩ := chainOf_cons formed reachable
  cases rest with
  | nil => exact Or.inl chainEq
  | cons next rest =>
      have long : 2 ≤ (chainOf heap u).length := by
        rw [chainEq]
        exact Nat.succ_le_succ (Nat.succ_le_succ (Nat.zero_le _))
      exact
        Or.inr
          ⟨(maximalRun_iff formed).mpr ⟨u, reachable, isHead, long, rfl⟩,
            long, by rw [chainEq]; rfl⟩

/-- A maximal run starts at the head of its chain. -/
theorem MaximalRun.eq_chainOf (formed : heap.WellFormed graph)
    {run : List NodeId} (maximal : MaximalRun heap graph run)
    {first : NodeId} (isFirst : run.head? = some first) :
    heap.Reachable graph first ∧ headOf heap first = first ∧
      2 ≤ (chainOf heap first).length ∧ run = chainOf heap first := by
  obtain ⟨u, reachable, isHead, long, rfl⟩ := (maximalRun_iff formed).mp maximal
  obtain ⟨rest, chainEq⟩ := chainOf_cons formed reachable
  rw [chainEq] at isFirst
  obtain rfl : u = first := Option.some.inj isFirst
  exact ⟨reachable, isHead, long, rfl⟩

/-- A control node is its own head. -/
theorem headOf_of_empty (formed : heap.WellFormed graph) {n : NodeId}
    (reachable : heap.Reachable graph n)
    (empty : (heap.nodes n).type = .empty) : headOf heap n = n := by
  rw [headOf_eq_self_iff formed reachable]
  by_contra some
  obtain ⟨p, step⟩ := Option.ne_none_iff_exists'.mp some
  obtain ⟨-, -, prog, -, held, -⟩ :=
    fuseNext_eq_some_iff.mp (fusePrev_eq_some_iff.mp step)
  rw [llvmirProg_of_empty empty] at held
  cases held

section Contracted

variable {fuse : List CommandProg → CommandProg} {after : Heap}
  {fused : List (List NodeId)} (formed : heap.WellFormed graph)
  (ends : ControlEnds heap graph)
  (all : FusedAll fuse heap graph after fused)

include formed ends all

theorem FusedAll.entry_live :
    heap.Reachable graph (after.graphs graph).entry ∧
      headOf heap (after.graphs graph).entry =
        (after.graphs graph).entry := by
  rw [all.graph_eq.1]
  exact
    ⟨Heap.reachable_entry,
      headOf_of_empty formed Heap.reachable_entry ends.entry_empty⟩

theorem FusedAll.from_entry (n : NodeId)
    (live : heap.Reachable graph n ∧ headOf heap n = n) :
    ReflTransGen (Digraph.Contract (heap.Link graph) (headOf heap))
      (after.graphs graph).entry n := by
  have path := @Digraph.reach_contract _ _ _ (headOf heap) _ _
    ((Heap.reachable_iff_links n).mp live.1)
  have entryHead :=
    headOf_of_empty formed Heap.reachable_entry ends.entry_empty
  rwa [entryHead, live.2, ← all.graph_eq.1] at path

/-- The edges that the pass leaves are those of the contraction. -/
theorem FusedAll.link_contract (source target : NodeId) :
    after.Link graph source target ↔
      Digraph.Contract (heap.Link graph) (headOf heap) source target :=
  all.represents.edge_iff (all.entry_live formed ends)
    (all.from_entry formed ends) source target

end Contracted

/-- What the pass leaves is the graph in which runs are fused. -/
theorem FusedAll.runsFused {fuse : List CommandProg → CommandProg}
    {after : Heap} {fused : List (List NodeId)}
    (formed : heap.WellFormed graph) (ends : ControlEnds heap graph)
    (all : FusedAll fuse heap graph after fused) :
    RunsFused fuse heap graph after := by
  obtain ⟨-, exitEq⟩ := all.graph_eq
  have exitHead :=
    headOf_of_empty formed formed.reachable_exit ends.exit_empty
  have entryLive := all.entry_live formed ends
  have fromEntry := all.from_entry formed ends
  have reachableIff := all.represents.live_iff entryLive fromEntry
  have linkIff := all.link_contract formed ends
  have keptIff : ∀ {n}, heap.Reachable graph n → (headOf heap n = n ↔ _) :=
    headOf_eq_self_iff_runs formed
  constructor
  · apply Heap.WellFormed.of_represents all.represents
    · rw [all.graphCount_eq]
      exact formed.graph_lt
    · rintro n ⟨reachable, -⟩
      rw [all.nodeCount_eq]
      exact formed.allocated n reachable
    · exact entryLive
    · exact fromEntry
    · rintro n ⟨reachable, isHead⟩
      have path := @Digraph.reach_contract _ _ _ (headOf heap) _ _
        (reachable.links (formed.reaches_exit n reachable))
      rwa [exitHead, isHead, ← exitEq] at path
    · exact acyclic_contract_headOf formed
  · exact all.graph_eq
  · intro n
    rw [reachableIff]
    exact and_congr_right fun reachable => keptIff reachable
  · intro source target
    rw [linkIff, contract_headOf_iff formed]
    constructor
    · rintro ⟨sourceHead, targetHead, reachable, last, isLast, link⟩
      refine
        ⟨fun run maximal =>
          ⟨(keptIff reachable).mp sourceHead run maximal,
            (keptIff link.reachable).mp targetHead run maximal⟩, ?_⟩
      rcases chainOf_cases formed reachable sourceHead with
        alone | ⟨maximal, -, isFirst⟩
      · rw [alone] at isLast
        obtain rfl : source = last := Option.some.inj isLast
        exact Or.inl link
      · exact Or.inr ⟨_, last, maximal, isFirst, isLast, link⟩
    · rintro ⟨outside, cases⟩
      have targetHead : heap.Reachable graph target →
          headOf heap target = target := fun reachable =>
        (keptIff reachable).mpr fun run maximal => (outside run maximal).2
      rcases cases with link | ⟨run, last, maximal, isFirst, isLast, link⟩
      · have sourceHead : headOf heap source = source :=
          (keptIff link.1).mpr fun run maximal => (outside run maximal).1
        refine
          ⟨sourceHead, targetHead link.reachable, link.1, source, ?_, link⟩
        rcases chainOf_cases formed link.1 sourceHead with
          alone | ⟨maximal, -, -⟩
        · rw [alone]
          rfl
        · -- The only edge out of a head with a longer chain is contracted.
          obtain ⟨rest, chainEq⟩ := chainOf_cons formed link.1
          obtain ⟨last, path, -⟩ := chainOf_straight formed link.1
          have isFirst : (chainOf heap source).head? = some source := by
            rw [chainEq]
            rfl
          by_cases atEnd : source = last
          · rw [atEnd]
            exact atEnd ▸ path.getLast?
          · have inside :=
              path.next_mem (List.mem_of_head? isFirst) atEnd link
            rw [chainEq, List.mem_cons] at inside
            rcases inside with same | inside
            · exact
                (formed.acyclic source
                  (TransGen.single (same ▸ link))).elim
            · have away := (outside _ maximal).2
              rw [chainEq] at away
              exact (away inside).elim
      · obtain ⟨reachable, isHead, -, rfl⟩ :=
          maximal.eq_chainOf formed isFirst
        exact
          ⟨isHead, targetHead link.reachable, reachable, last, isLast, link⟩
  · exact all.kept
  · intro run first maximal isFirst
    obtain ⟨reachable, isHead, long, rfl⟩ :=
      maximal.eq_chainOf formed isFirst
    rw [all.command_eq first reachable, if_pos isHead, fusedCommand,
      if_neg (Nat.not_lt.mpr long)]
  · intro n reachable outside
    rw [all.command_eq n reachable]
    split
    · rename_i isHead
      rcases chainOf_cases formed reachable isHead with
        alone | ⟨maximal, -, isFirst⟩
      · rw [fusedCommand, alone]
        exact if_pos Nat.one_lt_two
      · exact (outside _ maximal isFirst).elim
    · rfl

/--
On a well-formed graph with control ends, the pass hands exactly the maximal
runs to the fusion, and replaces each of them by its first node.
-/
theorem passProgFuse_fuses_runs (fuse : List CommandProg → CommandProg)
    (formed : heap.WellFormed graph) (ready : heap.WalkReady graph)
    (ends : ControlEnds heap graph) :
    ∃ after fused, passProgFuse fuse heap graph = some (after, fused) ∧
      (∀ run, run ∈ fused ↔ MaximalRun heap graph run) ∧
        RunsFused fuse heap graph after := by
  obtain ⟨after, fused, ran, all⟩ :=
    passProgFuse_spec fuse formed ready ends
  exact ⟨after, fused, ran, all.mem_fused, all.runsFused formed ends⟩

end Pass

/-! ## Two kernels in a row -/

/-- A kernel of an empty module with the given number of blocks. -/
def kernelProg (blocks : BitVec 32) : CommandProg :=
  { Heap.taskProg with
    source := { Heap.taskProg.source with raw := some (.module ⟨[]⟩) }
    launchMode := .direct
    grid := { x := blocks, y := 1, z := 1 } }

/-- A node with the given lists that runs a kernel. -/
def kernelNode (deviceUniqueId : DeviceUniqueId) (blocks : BitVec 32)
    (predecessors successors : List NodeId) : CommandGraphNode :=
  { Heap.linkedNode deviceUniqueId .command predecessors successors with
    command := some (.prog (kernelProg blocks)) }

/-- Three kernels in a row, the last one over another grid. -/
def kernelRow : Heap :=
  Heap.ofNodes
    [Heap.linkedNode unspecifiedDeviceUniqueId .empty [] [1],
      kernelNode 1 8 [0] [2],
      kernelNode 1 8 [1] [3],
      kernelNode 1 4 [2] [4],
      Heap.linkedNode unspecifiedDeviceUniqueId .empty [3] []]
    { entry := 0, exit := 4, walkId := 0, isSequence := false }

theorem passProgFuse_fuses_runs_kernelRow :
    ∃ after fused,
      passProgFuse (fun progs => progs.headD (kernelProg 1)) kernelRow 0 =
          some (after, fused) ∧
        (∀ run, run ∈ fused ↔ MaximalRun kernelRow 0 run) ∧
          RunsFused (fun progs => progs.headD (kernelProg 1)) kernelRow 0
            after := by
  have numbered : kernelRow.Numbered 0 := by decide
  apply passProgFuse_fuses_runs
  · exact numbered.wellFormed
  · exact numbered.walkReady (by decide)
  · decide

/-- The kernels over 8 blocks are fused, the one over 4 blocks stays. -/
example :
    (passProgFuse (fun progs => progs.headD (kernelProg 1)) kernelRow 0).map
        (fun result => (result.2, result.1.successors 0, result.1.successors 1,
          result.1.predecessors 3)) =
      some ([[1, 2]], [1], [3], [1]) := by
  decide

end Cgir.Pass.ProgFuse
