import Cgir.Pass.ProgRuns

/-!
# Programs at the ends of a graph

What `pass_prog_fuse` does to a graph whose entry or exit is a command node.  The
vector of the pass leaves both out, so that no chain starts at the entry; but a
chain may grow into the exit, which the pass then contracts away.  The pass keeps
the exit exactly when no program other than the entry is fused with it
(`keepsEnds_iff`).
-/

namespace Cgir.Pass.ProgFuse

open Relation
open Cgir.Library
open Cgir.Model

/-- The chain of a program other than the entry grows into the exit. -/
def ExitFused (heap : Heap) (graph : GraphId) : Prop :=
  ∃ p, heap.Reachable graph p ∧ p ≠ (heap.graphs graph).entry ∧
    fuseNext heap p = some (heap.graphs graph).exit

/--
The pass returns, with every index into its vector within bounds, and the exit is
still a node of the graph that every node reaches.
-/
def KeepsEnds (fuse : List CommandProg → CommandProg) (heap : Heap)
    (graph : GraphId) : Prop :=
  ∃ after fused, passProgFuse fuse heap graph = some (after, fused) ∧
    (after.graphs graph).entry = (heap.graphs graph).entry ∧
    (after.graphs graph).exit = (heap.graphs graph).exit ∧
    after.Reachable graph (after.graphs graph).exit ∧
    ∀ node, after.Reachable graph node →
      MarkSearch.Reach after.successors node (after.graphs graph).exit

/-! ## The pass without the command of the entry -/

section Without

/-- The heap in which a node holds no command. -/
def withoutCommand (heap : Heap) (id : NodeId) : Heap :=
  heap.updateNode id fun node => { node with command := none }

variable (heap : Heap) (id : NodeId)

@[simp]
theorem withoutCommand_successors :
    (withoutCommand heap id).successors = heap.successors := by
  funext n
  simp only [withoutCommand, Heap.successors, Heap.updateNode_nodes]
  split
  · rename_i same
    rw [same]
  · rfl

@[simp]
theorem withoutCommand_predecessors :
    (withoutCommand heap id).predecessors = heap.predecessors := by
  funext n
  simp only [withoutCommand, Heap.predecessors, Heap.updateNode_nodes]
  split
  · rename_i same
    rw [same]
  · rfl

@[simp]
theorem withoutCommand_iteratorIndex (n : NodeId) :
    ((withoutCommand heap id).nodes n).iteratorIndex =
      (heap.nodes n).iteratorIndex := by
  simp only [withoutCommand, Heap.updateNode_nodes]
  split
  · rename_i same
    rw [same]
  · rfl

theorem withoutCommand_llvmirProg (n : NodeId) :
    llvmirProg ((withoutCommand heap id).nodes n) =
      if n = id then none else llvmirProg (heap.nodes n) := by
  simp only [withoutCommand, Heap.updateNode_nodes]
  split
  · unfold llvmirProg
    cases (heap.nodes id).type <;> rfl
  · rfl

theorem withoutCommand_sameLinks (graph : GraphId) :
    Heap.SameLinks heap (withoutCommand heap id) graph where
  successors_eq := withoutCommand_successors heap id
  predecessors_eq := withoutCommand_predecessors heap id
  nodeCount_eq := rfl
  graphCount_eq := rfl
  entry_eq := rfl
  exit_eq := rfl

/-- The state of the pass in which a node holds no command. -/
def FuseState.withoutCommand (state : FuseState) (id : NodeId) : FuseState :=
  { state with heap := ProgFuse.withoutCommand state.heap id }

variable {heap id}

/-- The first node of a graph follows no program. -/
theorem nextOf_withoutCommand (first : heap.predecessors id = [])
    (head : CommandProg) (cur : NodeId) :
    nextOf (withoutCommand heap id) head cur = nextOf heap head cur := by
  have sequence : ∀ w, areSequence (withoutCommand heap id) cur w =
      areSequence heap cur w := by
    intro w
    rw [areSequence, withoutCommand_successors, withoutCommand_predecessors,
      areSequence]
  apply Option.ext
  intro w
  rw [nextOf_eq_some_iff, nextOf_eq_some_iff, sequence]
  apply and_congr_right
  intro inSequence
  have other : w ≠ id := by
    rintro rfl
    have listed := ((areSequence_iff heap cur w).mp inSequence).2
    rw [first] at listed
    cases listed
  rw [withoutCommand_llvmirProg, if_neg other]

/-- Every list operation commutes with taking a command out. -/
theorem withoutCommand_setPredecessors (n : NodeId) (list : List NodeId) :
    (withoutCommand heap id).setPredecessors n list =
      withoutCommand (heap.setPredecessors n list) id :=
  Heap.updateNode_comm fun _ _ => rfl

theorem withoutCommand_setSuccessors (n : NodeId) (list : List NodeId) :
    (withoutCommand heap id).setSuccessors n list =
      withoutCommand (heap.setSuccessors n list) id :=
  Heap.updateNode_comm fun _ _ => rfl

theorem withoutCommand_setCommand {n : NodeId} (other : n ≠ id)
    (command : Command) :
    (withoutCommand heap id).setCommand n command =
      withoutCommand (heap.setCommand n command) id :=
  Heap.updateNode_comm fun same => (other same.symm).elim

theorem contractSequence_withoutCommand (heap : Heap) (id u v : NodeId) :
    contractSequence (withoutCommand heap id) u v =
      (contractSequence heap u v).map (withoutCommand · id) := by
  have sequence : areSequence (withoutCommand heap id) u v =
      areSequence heap u v := by
    rw [areSequence, withoutCommand_successors, withoutCommand_predecessors,
      areSequence]
  have redirects : (heap.successors v).foldlM (redirectPredecessor u v)
        (withoutCommand heap id) =
      ((heap.successors v).foldlM (redirectPredecessor u v) heap).map
        (withoutCommand · id) := by
    apply Loop.foldlM_commutes (withoutCommand · id) (fun _ => True)
    · intro succ _ state _
      rw [redirectPredecessor, redirectPredecessor,
        withoutCommand_predecessors]
      split
      · rw [withoutCommand_setPredecessors]
        rfl
      · rfl
    · exact fun _ _ _ _ _ => trivial
    · trivial
  rw [contractSequence, contractSequence, sequence, withoutCommand_successors,
    redirects]
  split
  · cases (heap.successors v).foldlM (redirectPredecessor u v) heap with
    | none => rfl
    | some redirected =>
        simp only [Option.map_some, Option.bind_eq_bind, Option.bind_some,
          Option.pure_def, withoutCommand_setSuccessors]
  · rfl

theorem absorb_withoutCommand (nodes : List NodeId) (u : NodeId)
    (state : FuseState) (v : NodeId) :
    absorb nodes u (state.withoutCommand id) v =
      (absorb nodes u state v).map (FuseState.withoutCommand · id) := by
  simp only [absorb, FuseState.withoutCommand,
    contractSequence_withoutCommand]
  cases contractSequence state.heap u v with
  | none => rfl
  | some heap =>
      simp only [Option.map_some, Option.bind_eq_bind, Option.bind_some,
        withoutCommand_iteratorIndex]
      split
      · rfl
      · rfl

end Without

/-! ## What one contraction takes away -/

/-- A later heap of the pass: paths and predecessors are not added. -/
structure Shrinks (before after : Heap) : Prop where
  reach : ∀ source target, MarkSearch.Reach after.successors source target →
    MarkSearch.Reach before.successors source target
  first : ∀ n, before.predecessors n = [] → after.predecessors n = []

section Shrinking

variable {heap after : Heap} {u v : NodeId}

theorem Shrinks.refl (heap : Heap) : Shrinks heap heap :=
  ⟨fun _ _ path => path, fun _ first => first⟩

theorem Shrinks.trans {last : Heap} (one : Shrinks heap after)
    (two : Shrinks after last) : Shrinks heap last :=
  ⟨fun source target path => one.reach source target (two.reach _ _ path),
    fun n first => two.first n (one.first n first)⟩

/-- A contraction in place only takes paths away. -/
theorem contractSequence_shrinks
    (ran : contractSequence heap u v = some after) : Shrinks heap after := by
  obtain ⟨⟨-, sequence⟩, contracts⟩ := Option.ite_none_right_eq_some.mp ran
  obtain ⟨redirected, looped, same⟩ := Option.bind_eq_some_iff.mp contracts
  obtain rfl := Option.some.inj same
  obtain ⟨successors, predecessors⟩ :
      redirected.successors = heap.successors ∧
        ∀ n, heap.predecessors n = [] → redirected.predecessors n = [] := by
    apply Loop.foldlM_some_invariant (fun _ state =>
      state.successors = heap.successors ∧
        ∀ n, heap.predecessors n = [] → state.predecessors n = []) looped
    · rintro done succ rest state after - ⟨successors, predecessors⟩ stepped
      obtain ⟨-, same⟩ := Option.ite_none_right_eq_some.mp stepped
      obtain rfl := Option.some.inj same
      constructor
      · funext n
        rw [Heap.setPredecessors_successors, successors]
      · intro n first
        rw [Heap.setPredecessors_predecessors]
        split
        · rename_i same
          rw [← same, predecessors n first]
          rfl
        · exact predecessors n first
    · exact ⟨rfl, fun _ first => first⟩
  have onlyNext := ((areSequence_iff heap u v).mp sequence).1
  constructor
  · intro source target path
    induction path with
    | refl => exact ReflTransGen.refl
    | @tail middle last _ step induction =>
        unfold MarkSearch.Edge at step
        rw [Heap.setSuccessors_successors, Heap.setSuccessors_successors,
          successors] at step
        split at step
        · cases step
        · split at step
          · -- What now follows `u` is reached through `v`.
            rename_i isHead
            subst isHead
            have toSecond : v ∈ heap.successors middle := by
              rw [onlyNext]
              exact List.mem_cons_self
            exact (induction.tail toSecond).tail step
          · exact induction.tail step
  · intro n first
    rw [Heap.setSuccessors_predecessors, Heap.setSuccessors_predecessors]
    exact predecessors n first

variable {nodes : List NodeId} {fuse : List CommandProg → CommandProg}

theorem absorb_shrinks {state next : FuseState}
    (ran : absorb nodes u state v = some next) :
    Shrinks state.heap next.heap := by
  obtain ⟨heap, contracts, marked⟩ := Option.bind_eq_some_iff.mp ran
  obtain ⟨-, same⟩ := Option.ite_none_right_eq_some.mp marked
  obtain rfl := Option.some.inj same
  exact contractSequence_shrinks contracts

/-- So does an iteration of the pass. -/
theorem fuseNode_shrinks {state next : FuseState} {item : NodeId × Nat}
    (ran : fuseNode fuse nodes state item = some next) :
    Shrinks state.heap next.heap := by
  obtain ⟨u, i⟩ := item
  simp only [fuseNode] at ran
  split at ran
  · cases ran
    exact Shrinks.refl _
  · split at ran
    · cases ran
      exact Shrinks.refl _
    · obtain ⟨chain, -, fuses⟩ := Option.bind_eq_some_iff.mp ran
      split at fuses
      · cases fuses
        exact Shrinks.refl _
      · have start : Shrinks state.heap
            (state.heap.setCommand u
              (.prog (fuse (progsOf state.heap chain)))) := by
          have successors := funext fun n =>
            @Heap.setCommand_successors state.heap u n
              (.prog (fuse (progsOf state.heap chain)))
          constructor
          · intro source target path
            rwa [successors] at path
          · intro n first
            rw [Heap.setCommand_predecessors, first]
        apply Loop.foldlM_some_invariant
          (fun _ next => Shrinks state.heap next.heap) fuses
        · intro _ _ _ _ _ _ before stepped
          exact before.trans (absorb_shrinks stepped)
        · exact start

/-- So does the rest of a run. -/
theorem run_shrinks {state last : FuseState} {items : List (NodeId × Nat)}
    (ran : items.foldlM (fuseNode fuse nodes) state = some last) :
    Shrinks state.heap last.heap := by
  apply Loop.foldlM_some_invariant
    (fun _ next => Shrinks state.heap next.heap) ran
  · intro _ _ _ _ _ _ before stepped
    exact before.trans (fuseNode_shrinks stepped)
  · exact Shrinks.refl _

end Shrinking

/-! ## The run without the command of the entry -/

section Commutes

variable {state : FuseState} {id : NodeId}

/-- The loop that collects a chain does not come to the first node. -/
theorem ne_first_of_mem {heap : Heap} (first : heap.predecessors id = [])
    {head : CommandProg} {fuel : Nat} {u n : NodeId} {chain : List NodeId}
    (other : u ≠ id)
    (collected : follow (nextOf heap head) fuel u = some chain)
    (member : n ∈ chain) : n ≠ id := by
  rcases ReflTransGen.cases_tail
    ((mem_follow_iff _ collected n).mp member) with same | ⟨prev, -, step⟩
  · exact same ▸ other
  · rintro rfl
    have sequence := (nextOf_eq_some_iff.mp step).1
    have listed := ((areSequence_iff heap prev n).mp sequence).2
    rw [first] at listed
    cases listed

theorem absorbChain_withoutCommand (nodes : List NodeId) (u : NodeId)
    (rest : List NodeId) (state : FuseState) (id : NodeId) :
    rest.foldlM (absorb nodes u) (state.withoutCommand id) =
      (rest.foldlM (absorb nodes u) state).map
        (FuseState.withoutCommand · id) := by
  apply Loop.foldlM_commutes (FuseState.withoutCommand · id) (fun _ => True)
  · exact fun v _ state _ => absorb_withoutCommand nodes u state v
  · exact fun _ _ _ _ _ => trivial
  · trivial

/-- An iteration at another node, without the command of the first node. -/
theorem fuseNode_withoutCommand (fuse : List CommandProg → CommandProg)
    (nodes : List NodeId) (first : state.heap.predecessors id = [])
    {u : NodeId} (other : u ≠ id) (i : Nat) :
    fuseNode fuse nodes (state.withoutCommand id) (u, i) =
      (fuseNode fuse nodes state (u, i)).map
        (FuseState.withoutCommand · id) := by
  have progEq : llvmirProg ((withoutCommand state.heap id).nodes u) =
      llvmirProg (state.heap.nodes u) := by
    rw [withoutCommand_llvmirProg, if_neg other]
  have nextEq : ∀ head, nextOf (withoutCommand state.heap id) head =
      nextOf state.heap head :=
    fun head => funext (nextOf_withoutCommand first head)
  have countEq : (withoutCommand state.heap id).nodeCount =
      state.heap.nodeCount := rfl
  have heapEq : (state.withoutCommand id).heap =
      withoutCommand state.heap id := rfl
  have contractedEq : (state.withoutCommand id).contracted =
      state.contracted := rfl
  have fusedEq : (state.withoutCommand id).fused = state.fused := rfl
  simp only [fuseNode, heapEq, contractedEq, fusedEq, progEq, nextEq, countEq]
  cases state.contracted i with
  | true => rfl
  | false =>
      cases llvmirProg (state.heap.nodes u) with
      | none => rfl
      | some prog =>
          cases collected : follow (nextOf state.heap prog)
              (state.heap.nodeCount + 1) u with
          | none => simp [collected]
          | some chain =>
              have progs : progsOf (withoutCommand state.heap id) chain =
                  progsOf state.heap chain := by
                apply List.filterMap_congr
                intro n member
                rw [withoutCommand_llvmirProg,
                  if_neg (ne_first_of_mem first other collected member)]
              simp only [collected, Option.bind_eq_bind, Option.bind_some,
                Bool.false_eq_true, if_false, progs,
                withoutCommand_setCommand other]
              split
              · rfl
              · exact
                  absorbChain_withoutCommand nodes u chain.tail
                    (fuseStart fuse chain state u) id

/-- The run over other nodes, without the command of the first node. -/
theorem run_withoutCommand (fuse : List CommandProg → CommandProg)
    (nodes : List NodeId) (first : state.heap.predecessors id = [])
    {items : List (NodeId × Nat)} (others : ∀ item ∈ items, item.1 ≠ id) :
    items.foldlM (fuseNode fuse nodes) (state.withoutCommand id) =
      (items.foldlM (fuseNode fuse nodes) state).map
        (FuseState.withoutCommand · id) := by
  apply Loop.foldlM_commutes (FuseState.withoutCommand · id)
    (fun state => state.heap.predecessors id = [])
  · rintro ⟨u, i⟩ member state first
    exact fuseNode_withoutCommand fuse nodes first (others _ member) i
  · intro state item after first stepped
    exact (fuseNode_shrinks stepped).first id first
  · exact first

end Commutes

/-! ## The graph without a program at its entry -/

theorem mem_of_zip {nodes : List NodeId} {item : NodeId × Nat}
    (member : item ∈ nodes.zipIdx) : item.1 ∈ nodes := by
  have mapped := List.mem_map_of_mem (f := Prod.fst) member
  rwa [List.zipIdx_map_fst] at mapped

section Headless

variable {heap indexed : Heap} {graph : GraphId} {nodes : List NodeId}

/-- The heap in which the entry of a graph holds no command. -/
def headless (heap : Heap) (graph : GraphId) : Heap :=
  withoutCommand heap (heap.graphs graph).entry

variable (formed : heap.WellFormed graph)
  (listing : Listing heap graph indexed nodes)

include listing

theorem headless_sameLinks :
    Heap.SameLinks heap (headless indexed graph) graph :=
  (Heap.SameLinks.of_unmarked listing.iterated.unmarked_eq).trans
    (withoutCommand_sameLinks indexed _ graph)

/-- The nodes of the vector are the inner nodes of the graph. -/
theorem Listing.mem_iff (n : NodeId) :
    n ∈ nodes ↔ heap.Reachable graph n ∧ n ≠ (heap.graphs graph).entry ∧
      n ≠ (heap.graphs graph).exit := by
  rw [listing.iterated.mem_iff]
  simp

include formed

theorem headless_formed : (headless indexed graph).WellFormed graph :=
  (headless_sameLinks listing).wellFormed formed

theorem indexed_first :
    indexed.predecessors (indexed.graphs graph).entry = [] := by
  have same : Heap.SameLinks heap indexed graph :=
    Heap.SameLinks.of_unmarked listing.iterated.unmarked_eq
  rw [same.predecessors_eq, same.entry_eq]
  exact formed.predecessors_entry

/-- Without the program of the entry, the other programs are followed as before. -/
theorem fuseNext_headless {p w : NodeId} :
    fuseNext (headless indexed graph) p = some w ↔
      p ≠ (heap.graphs graph).entry ∧ fuseNext heap p = some w := by
  have unmarked := listing.iterated.unmarked_eq
  have same : Heap.SameLinks heap indexed graph :=
    Heap.SameLinks.of_unmarked unmarked
  have nextEq := nextOf_withoutCommand (indexed_first formed listing)
  rw [← fuseNext_congr unmarked, fuseNext, headless,
    withoutCommand_llvmirProg, same.entry_eq]
  rw [same.entry_eq] at nextEq
  by_cases isEntry : p = (heap.graphs graph).entry
  · simp [isEntry]
  · simp only [nextEq, fuseNext, isEntry, if_false, ne_eq, not_false_eq_true,
      true_and]

omit formed in
theorem headless_snapshot : Snapshot (headless indexed graph) graph nodes where
  nodup := listing.iterated.nodup
  reachable := by
    intro n member
    rw [(headless_sameLinks listing).reachable_eq]
    exact ((listing.mem_iff n).mp member).1
  index_eq := by
    intro n member
    rw [headless, withoutCommand_iteratorIndex]
    exact listing.iterated.index_eq n member
  ordered := by
    intro earlier u later split p sole isProg
    rw [(headless_sameLinks listing).link_eq] at sole
    apply listing.ordered earlier u later split p _ sole
    rintro rfl
    rw [headless, withoutCommand_llvmirProg,
      (Heap.SameLinks.of_unmarked listing.iterated.unmarked_eq).entry_eq,
      if_pos rfl] at isProg
    cases isProg

/-- A chain without the exit lies in the vector. -/
theorem chain_inside {u : NodeId} (member : u ∈ nodes)
    (noExit : (heap.graphs graph).exit ∉ chainOf (headless indexed graph) u)
    (n : NodeId) (inChain : n ∈ chainOf (headless indexed graph) u) :
    n ∈ nodes := by
  have formed' := headless_formed formed listing
  have same := headless_sameLinks listing
  have reachable := (headless_snapshot listing).reachable u member
  have nReachable := reachable_of_mem_chainOf formed' reachable inChain
  rw [same.reachable_eq] at nReachable
  rcases ReflTransGen.cases_tail
    ((mem_chainOf_iff formed' reachable n).mp inChain) with
    isHead | ⟨prev, -, step⟩
  · exact isHead ▸ member
  · refine (listing.mem_iff n).mpr ⟨nReachable, ?_, ?_⟩
    · rintro rfl
      have linked := ((fuseNext_headless formed listing).mp step).2
      have sequence := (fuseNext_eq_some_iff.mp linked).1
      have listed := ((areSequence_iff _ _ _).mp sequence).2
      rw [formed.predecessors_entry] at listed
      cases listed
    · rintro rfl
      exact noExit inChain

/-- The part of the run whose chains do not hold the exit. -/
theorem run_headless (fuse : List CommandProg → CommandProg)
    {done rest : List (NodeId × Nat)} (split : nodes.zipIdx = done ++ rest)
    (noExit : ∀ item ∈ done,
      headOf (headless indexed graph) item.1 = item.1 →
        (heap.graphs graph).exit ∉
          chainOf (headless indexed graph) item.1) :
    ∃ state, done.foldlM (fuseNode fuse nodes)
        { heap := headless indexed graph
          contracted := fun _ => false
          fused := [] } = some state ∧
      Fusing fuse (headless indexed graph) graph nodes done state := by
  have formed' := headless_formed formed listing
  have snapshot := headless_snapshot listing
  apply Loop.foldlM_invariant _
    (Fusing fuse (headless indexed graph) graph nodes)
  · rintro earlier ⟨u, i⟩ later state doneSplit fusing
    have whole : nodes.zipIdx = earlier ++ (u, i) :: (later ++ rest) := by
      rw [split, doneSplit, List.append_assoc, List.cons_append]
    apply fuseNode_spec formed' snapshot whole fusing
    intro isHead
    have member : (u, i) ∈ done := by simp [doneSplit]
    exact
      chain_inside formed listing (mem_of_split whole)
        (noExit (u, i) member isHead)
  · exact Fusing.initial formed'

/-- The run over the indexed heap, without the command of the entry. -/
theorem run_indexed (fuse : List CommandProg → CommandProg)
    {items : List (NodeId × Nat)} (part : ∀ item ∈ items, item.1 ∈ nodes) :
    items.foldlM (fuseNode fuse nodes)
        { heap := headless indexed graph
          contracted := fun _ => false
          fused := [] } =
      (items.foldlM (fuseNode fuse nodes)
        { heap := indexed
          contracted := fun _ => false
          fused := [] }).map
        (FuseState.withoutCommand · (indexed.graphs graph).entry) := by
  let start : FuseState :=
    { heap := indexed, contracted := fun _ => false, fused := [] }
  have first : start.heap.predecessors (indexed.graphs graph).entry = [] :=
    indexed_first formed listing
  apply run_withoutCommand fuse nodes first
  intro item member isEntry
  have inner := ((listing.mem_iff item.1).mp (part item member)).2.1
  rw [(Heap.SameLinks.of_unmarked listing.iterated.unmarked_eq).entry_eq]
    at isEntry
  exact inner isEntry

omit formed in
/-- What the pass returns is where its run over the indexed heap ends. -/
theorem passProgFuse_eq (fuse : List CommandProg → CommandProg) :
    passProgFuse fuse heap graph =
      (nodes.zipIdx.foldlM (fuseNode fuse nodes)
        { heap := indexed
          contracted := fun _ => false
          fused := [] }).map fun state => (state.heap, state.fused) := by
  simp only [passProgFuse, listing.listed]
  exact Option.map_eq_bind.symm

theorem headOf_entry :
    headOf (headless indexed graph) (heap.graphs graph).entry =
      (heap.graphs graph).entry := by
  have same := headless_sameLinks listing
  have formed' := headless_formed formed listing
  have reachable :
      (headless indexed graph).Reachable graph (heap.graphs graph).entry := by
    rw [same.reachable_eq]
    exact Heap.reachable_entry
  rw [headOf_eq_self_iff formed' reachable, fusePrev, same.predecessors_eq,
    formed.predecessors_entry]

end Headless

/-! ## When the exit stays -/

section Stays

variable {heap indexed : Heap} {graph : GraphId} {nodes : List NodeId}
  (formed : heap.WellFormed graph)
  (listing : Listing heap graph indexed nodes)

include formed listing

/-- The programs that the run follows into the exit. -/
theorem exitFused_of_step {p : NodeId}
    (reachable : (headless indexed graph).Reachable graph p)
    (step : fuseNext (headless indexed graph) p =
      some (heap.graphs graph).exit) : ExitFused heap graph := by
  rw [(headless_sameLinks listing).reachable_eq] at reachable
  obtain ⟨notEntry, linked⟩ := (fuseNext_headless formed listing).mp step
  exact ⟨p, reachable, notEntry, linked⟩

/-- Where no program is fused with the exit, no chain of the vector holds it. -/
theorem exit_not_mem (apart : ¬ ExitFused heap graph) {u : NodeId}
    (member : u ∈ nodes) :
    (heap.graphs graph).exit ∉ chainOf (headless indexed graph) u := by
  intro inChain
  have formed' := headless_formed formed listing
  have reachable := (headless_snapshot listing).reachable u member
  have path := (mem_chainOf_iff formed' reachable _).mp inChain
  rcases ReflTransGen.cases_tail path with isHead | ⟨prev, before, step⟩
  · exact ((listing.mem_iff u).mp member).2.2 isHead.symm
  · exact
      apart
        (exitFused_of_step formed listing
          (Heap.reachable_of_links reachable
            (links_of_steps formed' reachable before)) step)

theorem headOf_exit (apart : ¬ ExitFused heap graph) :
    headOf (headless indexed graph) (heap.graphs graph).exit =
      (heap.graphs graph).exit := by
  have same := headless_sameLinks listing
  have formed' := headless_formed formed listing
  have reachable :
      (headless indexed graph).Reachable graph (heap.graphs graph).exit := by
    rw [same.reachable_eq]
    exact formed.reaches_exit _ Heap.reachable_entry
  rw [headOf_eq_self_iff formed' reachable]
  by_contra follows
  obtain ⟨p, linked⟩ := Option.ne_none_iff_exists'.mp follows
  exact
    apart
      (exitFused_of_step formed listing
        (link_of_fusePrev formed' reachable linked).1
        (fusePrev_eq_some_iff.mp linked))

/-- Where no program is fused with the exit, the pass keeps it. -/
theorem keepsEnds_of_apart (fuse : List CommandProg → CommandProg)
    (apart : ¬ ExitFused heap graph) : KeepsEnds fuse heap graph := by
  have same := headless_sameLinks listing
  obtain ⟨state, ran, fusing⟩ :=
    run_headless formed listing fuse (List.append_nil nodes.zipIdx).symm
      (fun item member _ =>
        exit_not_mem formed listing apart (mem_of_zip member))
  rw [run_indexed formed listing fuse fun _ => mem_of_zip] at ran
  obtain ⟨last, ranLast, rfl⟩ := Option.map_eq_some_iff.mp ran
  have doneEq : nodes.zipIdx.map Prod.fst = nodes := List.zipIdx_map_fst _ _
  obtain ⟨progress, represents, -⟩ := fusing
  rw [doneEq] at progress represents
  have represents : last.heap.Represents
      (LiveAt (headless indexed graph) graph nodes)
      (EdgeAt (headless indexed graph) graph nodes) := by
    apply represents.congr_lists
    · intro n _
      exact congrFun (withoutCommand_successors last.heap _).symm n
    · intro n _
      exact congrFun (withoutCommand_predecessors last.heap _).symm n
  have graphsEq : last.heap.graphs = (headless indexed graph).graphs := by
    have unlinked := Heap.unlinked_graphs progress.unlinked_eq
    exact unlinked
  have entryEq : (last.heap.graphs graph).entry = (heap.graphs graph).entry := by
    rw [graphsEq]
    exact same.entry_eq
  have exitEq : (last.heap.graphs graph).exit = (heap.graphs graph).exit := by
    rw [graphsEq]
    exact same.exit_eq
  have itself : ∀ {n}, headOf (headless indexed graph) n = n →
      holderAt (headless indexed graph) nodes n = n := by
    intro n isHead
    rcases holderAt_cases (headless indexed graph) nodes n with
      alone | ⟨-, moved⟩
    · exact alone
    · exact moved.trans isHead
  have entrySelf := itself (headOf_entry formed listing)
  have exitSelf := itself (headOf_exit formed listing apart)
  have entryLive : LiveAt (headless indexed graph) graph nodes
      (last.heap.graphs graph).entry := by
    rw [entryEq]
    refine ⟨?_, entrySelf⟩
    rw [same.reachable_eq]
    exact Heap.reachable_entry
  -- Every node that is left has a path to the exit in the contraction.
  have toExit : ∀ n, LiveAt (headless indexed graph) graph nodes n →
      MarkSearch.Reach last.heap.successors n
        (last.heap.graphs graph).exit := by
    intro n live
    rw [represents.reach_iff live, exitEq]
    have reachable := live.1
    rw [same.reachable_eq] at reachable
    have path := reachable.links (formed.reaches_exit n reachable)
    rw [← same.link_eq] at path
    have contracted :=
      @Digraph.reach_contract _ _ _
        (holderAt (headless indexed graph) nodes) _ _ path
    rwa [live.2, exitSelf] at contracted
  refine
    ⟨last.heap, last.fused, ?_, entryEq, exitEq,
      toExit _ entryLive, ?_⟩
  · rw [passProgFuse_eq listing, ranLast]
    rfl
  · intro n reachable
    rcases ReflTransGen.cases_tail
      ((represents.reachable_iff entryLive n).mp reachable) with
      isEntry | ⟨prev, -, step⟩
    · rw [isEntry]
      exact toExit _ entryLive
    · exact toExit n (represents.inside prev n step).2

end Stays

/-! ## When the exit is contracted away -/

section Gone

variable {heap indexed : Heap} {graph : GraphId} {nodes : List NodeId}
  (formed : heap.WellFormed graph)
  (listing : Listing heap graph indexed nodes)

/-- The chain that holds the exit, and its head. -/
structure ExitChain (orig : Heap) (graph : GraphId) (u : NodeId)
    (prog : CommandProg) : Prop where
  isHead : headOf orig u = u
  ofExit : headOf orig (orig.graphs graph).exit = u
  ne_exit : u ≠ (orig.graphs graph).exit
  held : llvmirProg (orig.nodes u) = some prog
  long : 2 ≤ (chainOf orig u).length

include formed listing

theorem exists_exitChain (fused : ExitFused heap graph) :
    ∃ u prog, u ∈ nodes ∧ ExitChain (headless indexed graph) graph u prog := by
  have same := headless_sameLinks listing
  have formed' := headless_formed formed listing
  obtain ⟨p, pReachable, notEntry, linked⟩ := fused
  have exitEq : ((headless indexed graph).graphs graph).exit =
      (heap.graphs graph).exit := same.exit_eq
  have linked' : fuseNext (headless indexed graph) p =
      some ((headless indexed graph).graphs graph).exit := by
    rw [exitEq]
    exact (fuseNext_headless formed listing).mpr ⟨notEntry, linked⟩
  have pReachable' : (headless indexed graph).Reachable graph p := by
    rw [same.reachable_eq]
    exact pReachable
  have exitReachable :=
    (sole_of_fuseNext formed' pReachable' linked').step.reachable
  -- The exit follows a program, so that it is not the head of its chain.
  have notHead : headOf (headless indexed graph)
      ((headless indexed graph).graphs graph).exit ≠
        ((headless indexed graph).graphs graph).exit := by
    intro isHead
    rw [headOf_eq_self_iff formed' exitReachable,
      fusePrev_eq_some_iff.mpr linked'] at isHead
    cases isHead
  have headReachable := headOf_reachable formed' exitReachable
  have isHead := headOf_headOf formed' exitReachable
  have inChain :=
    (mem_chainOf_headOf formed' headReachable isHead exitReachable).mpr rfl
  rcases ReflTransGen.cases_head (steps_headOf formed' exitReachable) with
    alone | ⟨next, step, -⟩
  · exact (notHead alone).elim
  · obtain ⟨-, prog, -, held, -⟩ := fuseNext_eq_some_iff.mp step
    refine ⟨_, prog, ?_, isHead, rfl, notHead, held, ?_⟩
    · rw [same.reachable_eq] at headReachable
      refine (listing.mem_iff _).mpr ⟨headReachable, ?_, ?_⟩
      · exact ((fuseNext_headless formed listing).mp step).1
      · rw [← exitEq]
        exact notHead
    · obtain ⟨rest, chainEq⟩ := chainOf_cons formed' headReachable
      rw [chainEq, List.mem_cons] at inChain
      have member := inChain.resolve_left notHead.symm
      rw [chainEq, List.length_cons]
      exact Nat.succ_le_succ (List.length_pos_of_mem member)

/-- Where a program is fused with the exit, the pass does not keep it. -/
theorem not_keepsEnds (fuse : List CommandProg → CommandProg)
    (fused : ExitFused heap graph) : ¬ KeepsEnds fuse heap graph := by
  rintro ⟨after, chains, passed, entryEq, exitEq, exitReachable, -⟩
  have same := headless_sameLinks listing
  have formed' := headless_formed formed listing
  have snapshot := headless_snapshot listing
  obtain ⟨u, prog, member, chain⟩ := exists_exitChain formed listing fused
  have exitReachable' : (headless indexed graph).Reachable graph
      ((headless indexed graph).graphs graph).exit :=
    formed'.reaches_exit _ Heap.reachable_entry
  -- The run as it comes to the head of the chain of the exit.
  obtain ⟨i, listed⟩ : ∃ i, (u, i) ∈ nodes.zipIdx := by
    obtain ⟨i, position⟩ := List.getElem?_of_mem member
    exact ⟨i, List.mem_zipIdx_iff_getElem?.mpr position⟩
  obtain ⟨done, rest, split⟩ := List.append_of_mem listed
  obtain ⟨state, ranDone, fusing⟩ :=
    run_headless formed listing fuse split (by
      intro item inDone isHead inChain
      have itemMember : item ∈ nodes.zipIdx := by
        rw [split]
        exact List.mem_append_left _ inDone
      rw [← same.exit_eq, mem_chainOf_headOf formed'
        (snapshot.reachable _ (mem_of_zip itemMember)) isHead exitReachable',
        chain.ofExit] at inChain
      exact
        fresh_of_split snapshot split
          (List.mem_map.mpr ⟨item, inDone, inChain.symm⟩))
  rw [passProgFuse_eq listing] at passed
  obtain ⟨last, ranLast, ends⟩ := Option.map_eq_some_iff.mp passed
  obtain rfl : last.heap = after := congrArg Prod.fst ends
  have whole := run_indexed formed listing fuse fun _ => mem_of_zip
  rw [ranLast, split, List.foldlM_append, ranDone] at whole
  obtain ⟨state', returned, continued⟩ := Option.bind_eq_some_iff.mp whole
  obtain rfl := Option.some.inj returned
  rw [List.foldlM_cons] at continued
  obtain ⟨next, fuses, ranRest⟩ := Option.bind_eq_some_iff.mp continued
  -- The chain is contracted, the exit with it.
  have idle := idle_of_head snapshot split fusing chain.isHead
  rw [fuseNode_head formed' snapshot split fusing chain.isHead chain.held
    chain.long idle] at fuses
  have represents :=
    represents_of_absorbing formed' snapshot split fusing chain.isHead
      (absorbing_of_ran
        (absorbable_chain formed' snapshot split fusing chain.isHead) fuses)
  have exitGone : ¬ LiveAt (headless indexed graph) graph
      (done.map Prod.fst ++ [u]) (heap.graphs graph).exit := by
    rintro ⟨-, itself⟩
    rw [← same.exit_eq, holderAt, chain.ofExit, if_pos (by simp)] at itself
    exact chain.ne_exit itself
  have entryLive : LiveAt (headless indexed graph) graph
      (done.map Prod.fst ++ [u]) (heap.graphs graph).entry := by
    constructor
    · rw [same.reachable_eq]
      exact Heap.reachable_entry
    · rw [holderAt, headOf_entry formed listing, ite_self]
  -- What comes later does not bring the exit back.
  have path := exitReachable
  unfold Heap.Reachable at path
  rw [entryEq, exitEq, ← withoutCommand_successors last.heap] at path
  have before := (run_shrinks ranRest).reach _ _ path
  rw [represents.reach_iff entryLive] at before
  rcases ReflTransGen.cases_tail before with isEntry | ⟨prev, -, step⟩
  · exact exitGone (isEntry ▸ entryLive)
  · exact exitGone (represents.inside prev _ step).2

end Gone

/--
The pass keeps the exit, and stays within its vector, exactly when it fuses no
program other than the entry with the exit.
-/
theorem keepsEnds_iff (fuse : List CommandProg → CommandProg) {heap : Heap}
    {graph : GraphId} (formed : heap.WellFormed graph)
    (ready : heap.WalkReady graph) :
    KeepsEnds fuse heap graph ↔ ¬ ExitFused heap graph := by
  obtain ⟨indexed, nodes, listing⟩ := exists_listing formed ready
  constructor
  · intro keeps fused
    exact not_keepsEnds formed listing fuse fused keeps
  · exact keepsEnds_of_apart formed listing fuse

/-! ## Three kernels, two of them at the ends -/

/--
A row of three kernels as `pass_sequence` makes a sub-graph of it.  The last one
runs over the given blocks, and an earlier pass left an index in it.
-/
def kernelEnds (blocks : BitVec 32) (index : Nat) : Heap :=
  Heap.ofNodes
    [kernelNode 1 8 [] [1],
      kernelNode 1 8 [0] [2],
      { kernelNode 1 blocks [1] [] with iteratorIndex := index }]
    { entry := 0, exit := 2, walkId := 0, isSequence := true }

theorem keepsEnds_iff_kernelEnds :
    KeepsEnds (fun progs => progs.headD (kernelProg 1)) (kernelEnds 4 0) 0 := by
  have numbered : (kernelEnds 4 0).Numbered 0 := by decide
  apply (keepsEnds_iff _ numbered.wellFormed
    (numbered.walkReady (by decide))).mpr
  rintro ⟨p, reachable, -, linked⟩
  have unlinked : ∀ p : Nat, p < 3 → fuseNext (kernelEnds 4 0) p ≠ some 2 := by
    decide
  exact unlinked p (numbered.lt_of_reachable reachable) linked

/--
The kernel in the middle absorbs the exit.  With a small index the exit is lost;
with a larger one a flag is written beyond the vector of one iterator.
-/
theorem passProgFuse_loses_exit :
    (∀ index < 2, (kernelEnds 8 index).WellFormed 0 ∧
        (kernelEnds 8 index).WalkReady 0) ∧
      ¬ KeepsEnds (fun progs => progs.headD (kernelProg 1)) (kernelEnds 8 0)
        0 ∧
      passProgFuse (fun progs => progs.headD (kernelProg 1)) (kernelEnds 8 1)
        0 = none := by
  refine ⟨?_, ?_, by decide⟩
  · have numbered : ∀ index < 2, (kernelEnds 8 index).Numbered 0 := by decide
    have unwalked : ∀ index < 2, ∀ node < (kernelEnds 8 index).nodeCount,
        ((kernelEnds 8 index).nodes node).walkId ≠
          ((kernelEnds 8 index).graphs 0).walkId + 1 := by
      decide
    intro index bound
    exact
      ⟨(numbered index bound).wellFormed,
        (numbered index bound).walkReady (unwalked index bound)⟩
  · rintro ⟨after, fused, passed, -, -, exitReachable, -⟩
    have ran : (passProgFuse (fun progs => progs.headD (kernelProg 1))
        (kernelEnds 8 0) 0).map (fun result =>
          (result.1.successors 0, result.1.successors 1,
            (result.1.graphs 0).entry, (result.1.graphs 0).exit)) =
        some ([1], [], 0, 2) := by
      decide
    rw [passed, Option.map_some, Option.some.injEq] at ran
    simp only [Prod.mk.injEq] at ran
    obtain ⟨fromEntry, fromMiddle, entryEq, exitEq⟩ := ran
    have closed : ∀ n, after.Reachable 0 n → n = 0 ∨ n = 1 := by
      intro n path
      unfold Heap.Reachable at path
      rw [entryEq] at path
      induction path with
      | refl => exact Or.inl rfl
      | tail _ step induction =>
          unfold MarkSearch.Edge at step
          rcases induction with rfl | rfl
          · rw [fromEntry, List.mem_singleton] at step
            exact Or.inr step
          · rw [fromMiddle] at step
            cases step
    rw [exitEq] at exitReachable
    rcases closed 2 exitReachable with same | same
    · cases same
    · cases same

end Cgir.Pass.ProgFuse
