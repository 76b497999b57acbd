import Cgir.Library.Loop
import Cgir.Pass.ProgFused

/-!
# The prog-fuse pass

`pass_prog_fuse` visits the nodes in depth-first pre-order, collects the chain
that starts at a node, fuses its programs into the node and contracts the other
members into it one after another.

Pre-order matters: a node that follows a program in sequence is visited after
this program, so that the chain collected at a node that is still there is a
whole chain of the original graph.
-/

namespace Cgir.Pass.ProgFuse

open Relation
open Cgir.Library
open Cgir.Model

/-! ## The source functions -/

/-- One iteration over the successors of `v` in `contract`. -/
def redirectPredecessor (u v : NodeId) (heap : Heap) (succ : NodeId) :
    Option Heap :=
  if (heap.predecessors succ).count v = 1 ∧ succ ≠ u then
    -- the only occurrence of `v` is overwritten in place
    some (heap.setPredecessors succ
      ((heap.predecessors succ).map fun p => if p = v then u else p))
  else
    none

/--
`contract<U_V_SEQUENCE | INPLACE>(u, v)`, which fails where the source asserts.
The successor list of `v` is moved from.
-/
def contractSequence (heap : Heap) (u v : NodeId) : Option Heap := do
  if u ≠ v ∧ areSequence heap u v then
    let redirected ←
      (heap.successors v).foldlM (redirectPredecessor u v) heap
    return (redirected.setSuccessors u (heap.successors v)).setSuccessors v []
  else
    none

/--
The state of the pass: the heap, the flags `contracted` of the iterators, and
the chains that were handed to `command_graph_prog_fuse_llvmir` so far, which
the source does not keep.
-/
structure FuseState where
  heap : Heap
  contracted : Nat → Bool
  fused : List (List NodeId)

/-- Contract one member of a chain into its head `u`. -/
def absorb (nodes : List NodeId) (u : NodeId) (state : FuseState)
    (v : NodeId) : Option FuseState := do
  let heap ← contractSequence state.heap u v
  let index := (heap.nodes v).iteratorIndex
  if index < nodes.length then
    return {
      heap := heap
      contracted := Function.update state.contracted index true
      fused := state.fused }
  else
    none

/--
One iteration of the pass, at the node `u` of iterator `i`; `fuse` is
`command_graph_prog_fuse_llvmir`.
-/
def fuseNode (fuse : List CommandProg → CommandProg) (nodes : List NodeId)
    (state : FuseState) (item : NodeId × Nat) : Option FuseState :=
  let (u, i) := item
  if state.contracted i then
    some state
  else
    match llvmirProg (state.heap.nodes u) with
    | none => some state
    | some prog => do
        let chain ←
          follow (nextOf state.heap prog) (state.heap.nodeCount + 1) u
        if chain.length < 2 then
          return state
        else
          let fusedProg := fuse (progsOf state.heap chain)
          chain.tail.foldlM (absorb nodes u)
            { heap := state.heap.setCommand u (.prog fusedProg)
              contracted := state.contracted
              fused := state.fused ++ [chain] }

/--
`command_graph_t::pass_prog_fuse`, together with the chains that it fused, each
with the node that runs the fused program first.
-/
def passProgFuse (fuse : List CommandProg → CommandProg) (heap : Heap)
    (graph : GraphId) : Option (Heap × List (List NodeId)) := do
  let (heap, nodes) ← heap.createNodeIterators graph false
  let state ←
    nodes.zipIdx.foldlM (fuseNode fuse nodes)
      { heap := heap, contracted := fun _ => false, fused := [] }
  return (state.heap, state.fused)

/-! ## One contraction -/

section Contraction

variable {heap : Heap} {live : NodeId → Prop}
  {edge : NodeId → NodeId → Prop} {u v : NodeId}

/-- The heap after the loop over the successors of `v`. -/
structure Redirected (heap : Heap) (u v : NodeId) (done : List NodeId)
    (after : Heap) : Prop where
  unlinked_eq : after.unlinked = heap.unlinked
  successors_eq : after.successors = heap.successors
  predecessors_eq : ∀ n, after.predecessors n =
    if n ∈ done then
      (heap.predecessors n).map fun p => if p = v then u else p
    else heap.predecessors n

theorem redirectPredecessors_spec {list : List NodeId} (nodup : list.Nodup)
    (once : ∀ succ ∈ list, (heap.predecessors succ).count v = 1)
    (apart : ∀ succ ∈ list, succ ≠ u) :
    ∃ after, list.foldlM (redirectPredecessor u v) heap = some after ∧
      Redirected heap u v list after := by
  apply Loop.foldlM_invariant _ (Redirected heap u v)
  · intro done succ rest state split redirected
    have member : succ ∈ list := by simp [split]
    have absent : succ ∉ done := by
      rw [split] at nodup
      intro inside
      exact
        (List.nodup_append.mp nodup).2.2 succ inside succ (by simp) rfl
    have kept := redirected.predecessors_eq succ
    rw [if_neg absent] at kept
    refine
      ⟨state.setPredecessors succ
        ((heap.predecessors succ).map fun p => if p = v then u else p),
        ?_, ?_⟩
    · rw [redirectPredecessor, kept,
        if_pos ⟨once succ member, apart succ member⟩]
    · exact {
        unlinked_eq :=
          (Heap.setPredecessors_unlinked _ _).trans redirected.unlinked_eq
        successors_eq := by
          funext n
          rw [Heap.setPredecessors_successors, redirected.successors_eq]
        predecessors_eq := by
          intro n
          rw [Heap.setPredecessors_predecessors]
          by_cases isLast : n = succ
          · simp [isLast]
          · rw [if_neg isLast, redirected.predecessors_eq]
            simp [isLast] }
  · exact {
      unlinked_eq := rfl
      successors_eq := rfl
      predecessors_eq := fun n => by simp }

/-- The edges after `v` is contracted into `u`. -/
def Contracted (edge : NodeId → NodeId → Prop) (u v source target : NodeId) :
    Prop :=
  source ≠ v ∧ target ≠ v ∧
    (edge source target ∨ (source = u ∧ edge v target))

/-- Contracting a sole edge. -/
theorem contractSequence_spec (represents : heap.Represents live edge)
    (alive : live u) (sole : Sole edge u v) (different : u ≠ v)
    (back : ¬ edge v u) :
    ∃ after, contractSequence heap u v = some after ∧
      after.unlinked = heap.unlinked ∧
        after.Represents (fun n => live n ∧ n ≠ v) (Contracted edge u v) := by
  have sequence := (areSequence_iff_sole represents alive).mpr sole
  have vAlive := (represents.inside u v sole.step).2
  have memNext := represents.mem_successors v vAlive
  have noLoop : ¬ edge v v := fun loop =>
    different (sole.only_prev v loop).symm
  obtain ⟨middle, ran, redirected⟩ :=
    redirectPredecessors_spec (u := u) (v := v)
      (represents.successors_nodup v vAlive)
      (by
        intro succ member
        have step := (memNext succ).mp member
        have succAlive := (represents.inside v succ step).2
        exact
          List.count_eq_one_of_mem
            (represents.predecessors_nodup succ succAlive)
            ((represents.mem_predecessors succ succAlive v).mpr step))
      (by
        rintro succ member rfl
        exact back ((memNext succ).mp member))
  refine
    ⟨(middle.setSuccessors u (heap.successors v)).setSuccessors v [],
      ?_, ?_, ?_⟩
  · rw [contractSequence, if_pos ⟨different, sequence⟩, ran]
    rfl
  · rw [Heap.setSuccessors_unlinked, Heap.setSuccessors_unlinked,
      redirected.unlinked_eq]
  · have successorsEq : ∀ n, n ≠ v →
        ((middle.setSuccessors u (heap.successors v)).setSuccessors v
            []).successors n =
          if n = u then heap.successors v else heap.successors n := by
      intro n apart
      rw [Heap.setSuccessors_successors, if_neg apart,
        Heap.setSuccessors_successors, redirected.successors_eq]
    have predecessorsEq : ∀ n,
        ((middle.setSuccessors u (heap.successors v)).setSuccessors v
            []).predecessors n =
          if n ∈ heap.successors v then
            (heap.predecessors n).map fun p => if p = v then u else p
          else heap.predecessors n := by
      intro n
      rw [Heap.setSuccessors_predecessors, Heap.setSuccessors_predecessors,
        redirected.predecessors_eq]
    exact {
      successors_nodup := by
        rintro n ⟨nAlive, apart⟩
        rw [successorsEq n apart]
        split
        · exact represents.successors_nodup v vAlive
        · exact represents.successors_nodup n nAlive
      predecessors_nodup := by
        rintro n ⟨nAlive, apart⟩
        have nodup := represents.predecessors_nodup n nAlive
        rw [predecessorsEq]
        split
        · apply nodup.map_on
          intro p isPred q isPred' same
          have notU : ∀ {r}, r ∈ heap.predecessors n → r ≠ u := by
            rintro r member rfl
            exact
              apart
                (sole.only_next n
                  ((represents.mem_predecessors n nAlive r).mp member))
          split at same
          · rename_i pIs
            split at same
            · rename_i qIs
              rw [pIs, qIs]
            · exact (notU isPred' same.symm).elim
          · split at same
            · exact (notU isPred same).elim
            · exact same
        · exact nodup
      mem_successors := by
        rintro n ⟨nAlive, apart⟩ next
        rw [successorsEq n apart]
        split
        · rename_i isFirst
          subst isFirst
          rw [memNext]
          constructor
          · intro step
            refine ⟨apart, ?_, Or.inr ⟨rfl, step⟩⟩
            rintro rfl
            exact noLoop step
          · rintro ⟨-, nextNe, step | ⟨-, step⟩⟩
            · exact (nextNe (sole.only_next next step)).elim
            · exact step
        · rename_i notFirst
          rw [represents.mem_successors n nAlive]
          constructor
          · intro step
            refine ⟨apart, ?_, Or.inl step⟩
            rintro rfl
            exact notFirst (sole.only_prev n step)
          · rintro ⟨-, -, step | ⟨isFirst, -⟩⟩
            · exact step
            · exact (notFirst isFirst).elim
      mem_predecessors := by
        rintro n ⟨nAlive, apart⟩ pred
        have memPrev := represents.mem_predecessors n nAlive
        rw [predecessorsEq]
        split
        · rename_i listed
          have follows := (memNext n).mp listed
          rw [List.mem_map]
          constructor
          · rintro ⟨p, isPred, same⟩
            split at same
            · subst same
              exact ⟨different, apart, Or.inr ⟨rfl, follows⟩⟩
            · rename_i pNe
              subst same
              exact ⟨pNe, apart, Or.inl ((memPrev p).mp isPred)⟩
          · rintro ⟨predNe, -, step | ⟨rfl, -⟩⟩
            · exact ⟨pred, (memPrev pred).mpr step, if_neg predNe⟩
            · exact ⟨v, (memPrev v).mpr follows, if_pos rfl⟩
        · rename_i unlisted
          have apart' : ¬ edge v n := fun step =>
            unlisted ((memNext n).mpr step)
          rw [memPrev]
          constructor
          · intro step
            refine ⟨?_, apart, Or.inl step⟩
            rintro rfl
            exact apart' step
          · rintro ⟨-, -, step | ⟨-, step⟩⟩
            · exact step
            · exact (apart' step).elim
      inside := by
        rintro source target ⟨sourceNe, targetNe, step | ⟨rfl, step⟩⟩
        · obtain ⟨sourceLive, targetLive⟩ := represents.inside _ _ step
          exact ⟨⟨sourceLive, sourceNe⟩, targetLive, targetNe⟩
        · exact
            ⟨⟨alive, sourceNe⟩, (represents.inside _ _ step).2, targetNe⟩ }

end Contraction

/-! ## One chain -/

section Chain

variable {live : NodeId → Prop} {edge : NodeId → NodeId → Prop} {u : NodeId}
  {nodes rest : List NodeId} {start : FuseState}

/-- The edges after `u` absorbed some members, the last of which is `last`. -/
def Absorbed (edge : NodeId → NodeId → Prop) (u : NodeId)
    (gone : List NodeId) (last source target : NodeId) : Prop :=
  source ∉ gone ∧ target ∉ gone ∧
    (edge source target ∨ (source = u ∧ edge last target))

/-- The last member absorbed, or the head itself. -/
def lastOf (u : NodeId) (gone : List NodeId) : NodeId :=
  (u :: gone).getLast (List.cons_ne_nil u gone)

/-- The state after some members of a chain are absorbed. -/
structure Absorbing (live : NodeId → Prop) (edge : NodeId → NodeId → Prop)
    (u : NodeId) (start : FuseState) (gone : List NodeId)
    (state : FuseState) : Prop where
  unlinked_eq : state.heap.unlinked = start.heap.unlinked
  fused_eq : state.fused = start.fused
  contracted_iff : ∀ i, state.contracted i = true ↔
    start.contracted i = true ∨
      ∃ v ∈ gone, (start.heap.nodes v).iteratorIndex = i
  represents : state.heap.Represents (fun n => live n ∧ n ∉ gone)
    (Absorbed edge u gone (lastOf u gone))

/-- The last member absorbed and the next one are in sequence. -/
theorem sole_lastOf {gone later : List NodeId} {v : NodeId}
    (sequence : List.IsChain (Sole edge) (u :: (gone ++ v :: later))) :
    Sole edge (lastOf u gone) v := by
  rw [← List.cons_append, List.isChain_append] at sequence
  refine sequence.2.2 _ ?_ v rfl
  rw [lastOf, List.getLast?_eq_some_getLast (List.cons_ne_nil u gone)]
  rfl

/-- The next member is the only one that follows the head. -/
theorem sole_absorbed {gone later : List NodeId} {v : NodeId}
    (nodup : (u :: (gone ++ v :: later)).Nodup)
    (sequence : List.IsChain (Sole edge) (u :: (gone ++ v :: later))) :
    Sole (Absorbed edge u gone (lastOf u gone)) u v := by
  have sole := sole_lastOf sequence
  obtain ⟨uFresh, rest⟩ := List.nodup_cons.mp nodup
  have vFresh : v ∉ gone := by
    intro inside
    exact (List.nodup_append.mp rest).2.2 v inside v (by simp) rfl
  have uOut : u ∉ gone := fun inside =>
    uFresh (List.mem_append_left _ inside)
  exact {
    step := ⟨uOut, vFresh, Or.inr ⟨rfl, sole.step⟩⟩
    only_next := by
      rintro other ⟨-, otherOut, step | ⟨-, step⟩⟩
      · cases gone with
        | nil => exact sole.only_next other step
        | cons first gone =>
            have before := (List.isChain_cons_cons.mp sequence).1
            rw [before.only_next other step] at otherOut
            exact (otherOut List.mem_cons_self).elim
      · exact sole.only_next other step
    only_prev := by
      rintro other ⟨otherOut, -, step | ⟨same, -⟩⟩
      · have same := sole.only_prev other step
        have listed : other ∈ u :: gone := same ▸ List.getLast_mem _
        exact (List.mem_cons.mp listed).resolve_right otherOut
      · exact same }

/-- Contracting the next member as well. -/
theorem contracted_absorbed {gone later : List NodeId} {v : NodeId}
    (nodup : (u :: (gone ++ v :: later)).Nodup)
    (sequence : List.IsChain (Sole edge) (u :: (gone ++ v :: later)))
    (source target : NodeId) :
    Absorbed edge u (gone ++ [v]) v source target ↔
      Contracted (Absorbed edge u gone (lastOf u gone)) u v source target := by
  have sole := sole_lastOf sequence
  have absorbed := sole_absorbed nodup sequence
  have uNe : u ≠ v := by
    rintro rfl
    exact (List.nodup_cons.mp nodup).1 (by simp)
  simp only [Absorbed, Contracted, List.mem_append, List.mem_singleton,
    not_or]
  constructor
  · rintro ⟨⟨sourceOut, sourceNe⟩, ⟨targetOut, targetNe⟩, cases⟩
    refine ⟨sourceNe, targetNe, ?_⟩
    rcases cases with step | ⟨isHead, step⟩
    · exact Or.inl ⟨sourceOut, targetOut, Or.inl step⟩
    · exact
        Or.inr ⟨isHead, absorbed.step.2.1, targetOut, Or.inl step⟩
  · rintro ⟨sourceNe, targetNe,
      ⟨sourceOut, targetOut, step | ⟨-, step⟩⟩ |
        ⟨rfl, vOut, targetOut, step | ⟨same, -⟩⟩⟩
    · exact
        ⟨⟨sourceOut, sourceNe⟩, ⟨targetOut, targetNe⟩, Or.inl step⟩
    · exact (targetNe (sole.only_next target step)).elim
    · exact
        ⟨⟨absorbed.step.1, sourceNe⟩, ⟨targetOut, targetNe⟩,
          Or.inr ⟨rfl, step⟩⟩
    · exact (uNe same.symm).elim

/-- A chain whose members can be contracted into its head. -/
structure Absorbable (live : NodeId → Prop) (edge : NodeId → NodeId → Prop)
    (u : NodeId) (rest : List NodeId) (start : FuseState) : Prop where
  represents : start.heap.Represents live edge
  alive : live u
  nodup : (u :: rest).Nodup
  sequence : List.IsChain (Sole edge) (u :: rest)
  back : ∀ v ∈ rest, ¬ edge v u

theorem Absorbing.initial (absorbable : Absorbable live edge u rest start) :
    Absorbing live edge u start [] start where
  unlinked_eq := rfl
  fused_eq := rfl
  contracted_iff i := by simp
  represents := by
    refine
      (absorbable.represents.congr_edge fun source target => ?_).congr_live
        fun n => by simp
    simp only [Absorbed, lastOf, List.not_mem_nil, not_false_eq_true,
      true_and]
    constructor
    · rintro (step | ⟨rfl, step⟩)
      · exact step
      · exact step
    · exact Or.inl

/-- Contracting the next member of a chain. -/
theorem Absorbing.next {gone later : List NodeId} {v : NodeId}
    {state : FuseState} (absorbable : Absorbable live edge u rest start)
    (split : rest = gone ++ v :: later)
    (absorbing : Absorbing live edge u start gone state) :
    ∃ heap, contractSequence state.heap u v = some heap ∧
      (heap.nodes v).iteratorIndex = (start.heap.nodes v).iteratorIndex ∧
        Absorbing live edge u start (gone ++ [v]) {
          heap := heap
          contracted :=
            Function.update state.contracted
              (heap.nodes v).iteratorIndex true
          fused := state.fused } := by
  obtain ⟨-, alive, nodup, sequence, back⟩ := absorbable
  subst split
  have sole := sole_absorbed nodup sequence
  have member : v ∈ gone ++ v :: later := by simp
  have uNe : u ≠ v := by
    rintro rfl
    exact (List.nodup_cons.mp nodup).1 member
  obtain ⟨heap, ran, unlinked, contracted⟩ :=
    contractSequence_spec absorbing.represents ⟨alive, sole.step.1⟩ sole uNe
      (by
        rintro ⟨-, -, step | ⟨same, -⟩⟩
        · exact back v member step
        · exact uNe same.symm)
  have unlinkedEq := unlinked.trans absorbing.unlinked_eq
  have indexEq := Heap.unlinked_iteratorIndex unlinkedEq v
  refine ⟨heap, ran, indexEq, ?_⟩
  exact {
    unlinked_eq := unlinkedEq
    fused_eq := absorbing.fused_eq
    contracted_iff := by
      intro i
      simp only [Function.update_apply, indexEq]
      split
      · rename_i isIndex
        simp [isIndex]
      · rename_i other
        rw [absorbing.contracted_iff]
        apply or_congr_right
        constructor
        · rintro ⟨w, inside, same⟩
          exact ⟨w, List.mem_append_left _ inside, same⟩
        · rintro ⟨w, inside, same⟩
          rcases List.mem_append.mp inside with earlier | isLast
          · exact ⟨w, earlier, same⟩
          · rw [List.mem_singleton] at isLast
            exact (other (isLast ▸ same).symm).elim
    represents := by
      have last : lastOf u (gone ++ [v]) = v := by
        simp [lastOf]
      rw [last]
      refine
        (contracted.congr_edge
          (contracted_absorbed nodup sequence)).congr_live fun n => ?_
      simp only [List.mem_append, List.mem_singleton, not_or, and_assoc] }

/-- Contracting the members of a chain one after another. -/
theorem absorbChain_spec (nodes : List NodeId)
    (absorbable : Absorbable live edge u rest start)
    (listed : ∀ v ∈ rest,
      (start.heap.nodes v).iteratorIndex < nodes.length) :
    ∃ after, rest.foldlM (absorb nodes u) start = some after ∧
      Absorbing live edge u start rest after := by
  apply Loop.foldlM_invariant _ (Absorbing live edge u start)
  · intro gone v later state split absorbing
    obtain ⟨heap, ran, indexEq, next⟩ := absorbing.next absorbable split
    refine ⟨_, ?_, next⟩
    simp only [absorb, ran]
    exact if_pos (indexEq ▸ listed v (by simp [split]))
  · exact Absorbing.initial absorbable

/-- The state after the loop over the members, should all indices be valid. -/
theorem absorbing_of_ran (absorbable : Absorbable live edge u rest start)
    {after : FuseState}
    (ran : rest.foldlM (absorb nodes u) start = some after) :
    Absorbing live edge u start rest after := by
  apply Loop.foldlM_some_invariant (Absorbing live edge u start) ran
  · intro gone v later state next split absorbing stepped
    obtain ⟨heap, contracts, -, next⟩ := absorbing.next absorbable split
    simp only [absorb, contracts] at stepped
    obtain ⟨-, same⟩ := Option.ite_none_right_eq_some.mp stepped
    cases same
    exact next
  · exact Absorbing.initial absorbable

end Chain

/-! ## One iteration -/

/-- The vector of iterators of the pass, over the heap that holds the indices. -/
structure Snapshot (orig : Heap) (graph : GraphId) (nodes : List NodeId) :
    Prop where
  nodup : nodes.Nodup
  reachable : ∀ n ∈ nodes, orig.Reachable graph n
  index_eq : ∀ n ∈ nodes, nodes[(orig.nodes n).iteratorIndex]? = some n
  ordered : ∀ earlier u later, nodes = earlier ++ u :: later →
    ∀ p, Sole (orig.Link graph) p u →
      (llvmirProg (orig.nodes p)).isSome → p ∈ earlier

/-- A vector that holds every program. -/
structure Visits (orig : Heap) (graph : GraphId) (nodes : List NodeId) : Prop
    extends Snapshot orig graph nodes where
  listed : ∀ n, orig.Reachable graph n →
    (llvmirProg (orig.nodes n)).isSome → n ∈ nodes

/-- The state of the pass after some iterators. -/
structure Fusing (fuse : List CommandProg → CommandProg) (orig : Heap)
    (graph : GraphId) (nodes : List NodeId) (done : List (NodeId × Nat))
    (state : FuseState) : Prop where
  progress : Progress fuse orig graph (done.map Prod.fst) state.heap state.fused
  represents : state.heap.Represents
    (LiveAt orig graph (done.map Prod.fst))
    (EdgeAt orig graph (done.map Prod.fst))
  contracted_iff : ∀ n ∈ nodes,
    state.contracted (orig.nodes n).iteratorIndex = true ↔
      holderAt orig (done.map Prod.fst) n ≠ n

/-- The state when the chain of a head is about to be contracted. -/
def fuseStart (fuse : List CommandProg → CommandProg) (chain : List NodeId)
    (state : FuseState) (u : NodeId) : FuseState :=
  { heap := state.heap.setCommand u (.prog (fuse (progsOf state.heap chain)))
    contracted := state.contracted
    fused := state.fused ++ [chain] }

section Iteration

variable {fuse : List CommandProg → CommandProg} {orig : Heap}
  {graph : GraphId} {nodes : List NodeId} {state : FuseState}

/--
On a chain that is not done, the tests of the loop on what is left of the graph
find the next program of the original graph.
-/
theorem Progress.next_iff {done : List NodeId} {u : NodeId} {heap : Heap}
    {fused : List (List NodeId)} {prog : CommandProg}
    (formed : orig.WellFormed graph)
    (progress : Progress fuse orig graph done heap fused)
    (reachable : orig.Reachable graph u) (isHead : headOf orig u = u)
    (fresh : u ∉ done) (held : llvmirProg (orig.nodes u) = some prog)
    {cur : NodeId} (member : cur ∈ chainOf orig u) (w : NodeId) :
    (Sole (EdgeAt orig graph done) cur w ∧
        ∃ prog', llvmirProg (heap.nodes w) = some prog' ∧
          commandProgLaunchParamsEqual prog prog' = true) ↔
      fuseNext orig cur = some w := by
  have curReachable := reachable_of_mem_chainOf formed reachable member
  have curHead :=
    (mem_chainOf_headOf formed reachable isHead curReachable).mp member
  have curFresh : headOf orig cur ∉ done := curHead ▸ fresh
  obtain ⟨curProg, curHeld, launch⟩ :=
    launch_of_mem_chainOf formed reachable held member
  rw [fuseNext_eq_some_iff,
    areSequence_iff_sole formed.represents curReachable, EdgeAt,
    sole_contract_iff formed progress.closed curReachable curFresh
      (by simp [curHeld])]
  apply and_congr_right
  intro sole
  have wFresh : w ∉ done := by
    intro wDone
    exact
      not_mem_of_head_fresh formed progress.closed curReachable curFresh
        (progress.closed w wDone sole.step.reachable cur sole
          (by simp [curHeld]))
  rw [progress.llvmirProg_eq wFresh, launch]
  constructor
  · rintro ⟨prog', held', same⟩
    exact ⟨curProg, prog', curHeld, held', same⟩
  · rintro ⟨prog', prog'', held', held'', same⟩
    rw [curHeld, Option.some.injEq] at held'
    exact ⟨prog'', held'', held' ▸ same⟩

/-- The loop that collects a chain finds the whole chain of the original graph. -/
theorem collect_eq {done : List NodeId} {u : NodeId} {heap : Heap}
    {fused : List (List NodeId)} {prog : CommandProg}
    (formed : orig.WellFormed graph)
    (progress : Progress fuse orig graph done heap fused)
    (represents : heap.Represents (LiveAt orig graph done)
      (EdgeAt orig graph done))
    (reachable : orig.Reachable graph u) (isHead : headOf orig u = u)
    (fresh : u ∉ done) (held : llvmirProg (orig.nodes u) = some prog) :
    follow (nextOf heap prog) (heap.nodeCount + 1) u =
      some (chainOf orig u) := by
  have ran := chainOf_ran formed reachable
  rw [progress.nodeCount_eq]
  have mapped := @follow_map _ _ (fuseNext orig) (nextOf heap prog) id _ _ _ ran
  rw [List.map_id] at mapped
  apply mapped
  intro cur member
  rw [Option.map_id]
  have curReachable := reachable_of_mem_chainOf formed reachable member
  have curHead :=
    (mem_chainOf_headOf formed reachable isHead curReachable).mp member
  have alive : LiveAt orig graph done cur :=
    ⟨curReachable, holderAt_of_fresh (curHead ▸ fresh)⟩
  apply Option.ext
  intro w
  show nextOf heap prog cur = some w ↔ fuseNext orig cur = some w
  rw [nextOf_eq_some_iff, areSequence_iff_sole represents alive,
    progress.next_iff formed reachable isHead fresh held member]

/-- A node that follows a program of its chain is done with the chain. -/
theorem holderAt_inner {done : List NodeId} {u : NodeId}
    (formed : orig.WellFormed graph) (closed : Closed orig graph done)
    (reachable : orig.Reachable graph u)
    (known : ∀ p, Sole (orig.Link graph) p u →
      (llvmirProg (orig.nodes p)).isSome → p ∈ done)
    (inner : headOf orig u ≠ u) : holderAt orig done u ≠ u := by
  have earlier : headOf orig u ∈ done := by
    rcases ReflTransGen.cases_head (headOf_spec formed reachable).1 with
      same | ⟨p, step, -⟩
    · exact (inner same.symm).elim
    · have link := link_of_fusePrev formed reachable step
      have linked := fusePrev_eq_some_iff.mp step
      obtain ⟨-, prog, -, held, -⟩ := fuseNext_eq_some_iff.mp linked
      have pDone :=
        known p (sole_of_fuseNext formed link.1 linked) (by simp [held])
      rw [headOf_of_fuseNext formed link.1 linked]
      exact closed.head_mem formed link.1 pDone
  rw [holderAt, if_pos earlier]
  exact inner

/-- The chains of a vector of all programs lie in the vector. -/
theorem Visits.inside (visits : Visits orig graph nodes)
    (formed : orig.WellFormed graph) {u : NodeId} (member : u ∈ nodes)
    (n : NodeId) (inChain : n ∈ chainOf orig u) : n ∈ nodes := by
  have reachable := visits.reachable u member
  have path := (mem_chainOf_iff formed reachable n).mp inChain
  rcases ReflTransGen.cases_tail path with same | ⟨before, -, step⟩
  · exact same ▸ member
  · obtain ⟨-, -, prog, -, held, -⟩ := fuseNext_eq_some_iff.mp step
    exact
      visits.listed n (reachable_of_mem_chainOf formed reachable inChain)
        (by simp [held])

section Step

variable (formed : orig.WellFormed graph) (visits : Snapshot orig graph nodes)
  {done rest : List (NodeId × Nat)} {u : NodeId} {i : Nat}
  (split : nodes.zipIdx = done ++ (u, i) :: rest)
  (fusing : Fusing fuse orig graph nodes done state)

include split

theorem nodes_split :
    nodes = done.map Prod.fst ++ u :: rest.map Prod.fst := by
  have unzipped := congrArg (List.map Prod.fst) split
  rwa [List.zipIdx_map_fst, List.map_append, List.map_cons] at unzipped

theorem mem_of_split : u ∈ nodes := by
  rw [nodes_split split]
  simp

include visits

theorem fresh_of_split : u ∉ done.map Prod.fst := by
  have nodup := visits.nodup
  rw [nodes_split split] at nodup
  intro member
  exact (List.nodup_append.mp nodup).2.2 u member u (by simp) rfl

/-- The position of an iterator is the index of its node. -/
theorem index_of_zip : (orig.nodes u).iteratorIndex = i := by
  have listed : (u, i) ∈ nodes.zipIdx := by
    rw [split]
    simp
  have position := (List.mem_zipIdx_iff_getElem?).mp listed
  have known := visits.index_eq u (mem_of_split split)
  have bound := (List.getElem?_eq_some_iff.mp known).1
  rw [← position] at known
  exact (List.getElem?_inj bound visits.nodup).mp known

theorem known_of_split (p : NodeId) (sole : Sole (orig.Link graph) p u)
    (isProg : (llvmirProg (orig.nodes p)).isSome) :
    p ∈ done.map Prod.fst :=
  visits.ordered _ u _ (nodes_split split) p sole isProg

include formed fusing

/-- A node that is no head of a longer chain leaves the state as it is. -/
theorem Fusing.skip
    (short : headOf orig u = u → (chainOf orig u).length < 2) :
    Fusing fuse orig graph nodes (done ++ [(u, i)]) state := by
  have reachable := visits.reachable u (mem_of_split split)
  have fresh := fresh_of_split visits split
  have doneEq : (done ++ [(u, i)]).map Prod.fst =
      done.map Prod.fst ++ [u] := by simp
  obtain ⟨edges, live⟩ := edgeAt_skip formed reachable fresh short
  constructor
  · rw [doneEq]
    exact
      fusing.progress.skip reachable fresh (known_of_split visits split) short
  · rw [doneEq]
    exact (fusing.represents.congr_edge edges).congr_live live
  · intro n member
    rw [doneEq, fusing.contracted_iff n member,
      holderAt_skip formed reachable fresh short (visits.reachable n member)]

/-- A node that is not contracted is the head of its chain. -/
theorem headOf_of_not_contracted (idle : state.contracted i ≠ true) :
    headOf orig u = u := by
  have member := mem_of_split split
  have reachable := visits.reachable u member
  have holds := fusing.contracted_iff u member
  rw [index_of_zip visits split] at holds
  by_contra inner
  exact
    idle
      (holds.mpr
        (holderAt_inner formed fusing.progress.closed reachable
          (known_of_split visits split) inner))

section Head

variable {prog : CommandProg} (isHead : headOf orig u = u)
  (held : llvmirProg (orig.nodes u) = some prog)
  (long : 2 ≤ (chainOf orig u).length)

include isHead

/-- The programs of a chain that is not done are those of the original graph. -/
theorem progsOf_chain :
    progsOf state.heap (chainOf orig u) = progsOf orig (chainOf orig u) := by
  have reachable := visits.reachable u (mem_of_split split)
  obtain ⟨others, chainEq⟩ := chainOf_cons formed reachable
  obtain ⟨last, chain⟩ :=
    freshChain formed fusing.progress.closed reachable isHead
      (fresh_of_split visits split) chainEq
  apply List.filterMap_congr
  intro n inside
  rw [chainEq] at inside
  exact fusing.progress.llvmirProg_eq (chain.fresh n inside)

/-- The chain of a head that is not done can be contracted. -/
theorem absorbable_chain :
    Absorbable (LiveAt orig graph (done.map Prod.fst))
      (EdgeAt orig graph (done.map Prod.fst)) u (chainOf orig u).tail
      (fuseStart fuse (chainOf orig u) state u) := by
  have reachable := visits.reachable u (mem_of_split split)
  obtain ⟨others, chainEq⟩ := chainOf_cons formed reachable
  obtain ⟨last, chain⟩ :=
    freshChain formed fusing.progress.closed reachable isHead
      (fresh_of_split visits split) chainEq
  have tailEq : (chainOf orig u).tail = others := by
    rw [chainEq]
    rfl
  rw [tailEq]
  exact {
    represents := by
      apply fusing.represents.congr_lists
      · intro n _
        exact Heap.setCommand_successors _ _ _
      · intro n _
        exact Heap.setCommand_predecessors _ _ _
    alive := ⟨reachable, chain.self u (by simp)⟩
    nodup := chain.nodup
    sequence := chain.sequence
    back := by
      rintro v inside ⟨-, a, b, link, aEq, bEq⟩
      have inChain : v ∈ u :: others := List.mem_cons_of_mem u inside
      have aSame := chain.alone a (aEq ▸ inChain)
      have bSame := chain.alone b (bEq ▸ List.mem_cons_self)
      rw [aSame] at aEq
      rw [bSame] at bEq
      subst aEq bEq
      exact chain.path.not_edge_first formed.acyclic inChain link }

/-- The edges that are left when the chain of a head is contracted. -/
theorem represents_of_absorbing {after : FuseState}
    (absorbing : Absorbing (LiveAt orig graph (done.map Prod.fst))
      (EdgeAt orig graph (done.map Prod.fst)) u
      (fuseStart fuse (chainOf orig u) state u) (chainOf orig u).tail after) :
    after.heap.Represents (LiveAt orig graph (done.map Prod.fst ++ [u]))
      (EdgeAt orig graph (done.map Prod.fst ++ [u])) := by
  have reachable := visits.reachable u (mem_of_split split)
  have fresh := fresh_of_split visits split
  obtain ⟨others, chainEq⟩ := chainOf_cons formed reachable
  obtain ⟨last, chain⟩ :=
    freshChain formed fusing.progress.closed reachable isHead fresh chainEq
  obtain ⟨edges, live⟩ :=
    edgeAt_head formed reachable isHead fresh chainEq chain
  have lastEq : lastOf u others = last := by
    have isLast := chain.path.getLast?
    rwa [List.getLast?_eq_some_getLast (List.cons_ne_nil u others),
      Option.some.injEq] at isLast
  have represents := absorbing.represents
  rw [chainEq, List.tail_cons, lastEq] at represents
  exact (represents.congr_edge edges).congr_live live

include long

theorem fuseStart_unlinked :
    (fuseStart fuse (chainOf orig u) state u).heap.unlinked =
      (recommanded fuse orig (done.map Prod.fst ++ [u])).unlinked := by
  rw [fuseStart, progsOf_chain formed visits split fusing isHead]
  exact setCommand_recommanded fusing.progress.unlinked_eq isHead long

theorem fuseStart_index (n : NodeId) :
    ((fuseStart fuse (chainOf orig u) state u).heap.nodes n).iteratorIndex =
      (orig.nodes n).iteratorIndex :=
  Heap.unlinked_iteratorIndex
    (fuseStart_unlinked formed visits split fusing isHead long) n

/-- The state when the chain of a head is contracted. -/
theorem fusing_of_absorbing
    (inside : ∀ n ∈ chainOf orig u, n ∈ nodes) {after : FuseState}
    (absorbing : Absorbing (LiveAt orig graph (done.map Prod.fst))
      (EdgeAt orig graph (done.map Prod.fst)) u
      (fuseStart fuse (chainOf orig u) state u) (chainOf orig u).tail after) :
    Fusing fuse orig graph nodes (done ++ [(u, i)]) after := by
  have reachable := visits.reachable u (mem_of_split split)
  have fresh := fresh_of_split visits split
  have represents :=
    represents_of_absorbing formed visits split fusing isHead absorbing
  have doneEq : (done ++ [(u, i)]).map Prod.fst =
      done.map Prod.fst ++ [u] := by simp
  refine ⟨?_, ?_, ?_⟩
  · rw [doneEq, absorbing.fused_eq]
    have unlinked := absorbing.unlinked_eq
    rw [fuseStart, progsOf_chain formed visits split fusing isHead] at unlinked
    exact
      fusing.progress.fuseHead reachable (known_of_split visits split) isHead
        long unlinked
  · rw [doneEq]
    exact represents
  · intro n listed
    have nReachable := visits.reachable n listed
    obtain ⟨others, chainEq⟩ := chainOf_cons formed reachable
    obtain ⟨last, chain⟩ :=
      freshChain formed fusing.progress.closed reachable isHead fresh chainEq
    have indexEq := fuseStart_index formed visits split fusing isHead long
    have uOut : u ∉ others := (List.nodup_cons.mp chain.nodup).1
    rw [doneEq, absorbing.contracted_iff, fuseStart,
      fusing.contracted_iff n listed,
      holderAt_concat_head formed reachable isHead fresh chainEq nReachable]
    have tailEq : (chainOf orig u).tail = others := by
      rw [chainEq]
      rfl
    rw [tailEq]
    by_cases member : n ∈ others
    · rw [if_pos member]
      constructor
      · rintro - rfl
        exact uOut member
      · intro _
        exact Or.inr ⟨n, member, indexEq n⟩
    · rw [if_neg member]
      apply or_iff_left
      rintro ⟨v, vMember, same⟩
      have vListed : v ∈ nodes :=
        inside v (chainEq ▸ List.mem_cons_of_mem u vMember)
      have vKnown := visits.index_eq v vListed
      rw [← indexEq, fuseStart, same, visits.index_eq n listed,
        Option.some.injEq] at vKnown
      exact member (vKnown ▸ vMember)

include held

/-- What the pass does at the head of a longer chain. -/
theorem fuseNode_head (idle : state.contracted i = false) :
    fuseNode fuse nodes state (u, i) =
      (chainOf orig u).tail.foldlM (absorb nodes u)
        (fuseStart fuse (chainOf orig u) state u) := by
  have reachable := visits.reachable u (mem_of_split split)
  have fresh := fresh_of_split visits split
  have progEq := fusing.progress.llvmirProg_eq fresh
  have collected :=
    collect_eq formed fusing.progress fusing.represents reachable isHead
      fresh held
  simp only [fuseNode, idle, progEq, held, collected]
  exact if_neg (Nat.not_lt.mpr long)

end Head

omit formed in
/-- The head of a chain that is not done is not contracted. -/
theorem idle_of_head (isHead : headOf orig u = u) :
    state.contracted i = false := by
  rw [← Bool.not_eq_true]
  intro contracted
  have holds := fusing.contracted_iff u (mem_of_split split)
  rw [index_of_zip visits split] at holds
  have fresh := fresh_of_split visits split
  exact
    holds.mp contracted (holderAt_of_fresh (isHead.symm ▸ fresh))

/-- One iteration of the pass, on a chain that lies in the vector. -/
theorem fuseNode_spec
    (inside : headOf orig u = u → ∀ n ∈ chainOf orig u, n ∈ nodes) :
    ∃ after, fuseNode fuse nodes state (u, i) = some after ∧
      Fusing fuse orig graph nodes (done ++ [(u, i)]) after := by
  have reachable := visits.reachable u (mem_of_split split)
  have fresh := fresh_of_split visits split
  by_cases contracted : state.contracted i = true
  · refine ⟨state, ?_, ?_⟩
    · simp [fuseNode, contracted]
    · apply fusing.skip formed visits split
      intro isHead
      rw [idle_of_head visits split fusing isHead] at contracted
      cases contracted
  · have isHead :=
      headOf_of_not_contracted formed visits split fusing contracted
    have progEq := fusing.progress.llvmirProg_eq fresh
    rw [Bool.not_eq_true] at contracted
    cases held : llvmirProg (orig.nodes u) with
    | none =>
        refine ⟨state, ?_, ?_⟩
        · simp [fuseNode, contracted, progEq, held]
        · apply fusing.skip formed visits split
          intro _
          exact chainOf_length_lt formed reachable held
    | some prog =>
        by_cases short : (chainOf orig u).length < 2
        · have collected :=
            collect_eq formed fusing.progress fusing.represents reachable
              isHead fresh held
          refine ⟨state, ?_, ?_⟩
          · simp only [fuseNode, contracted, progEq, held, collected]
            exact if_pos short
          · apply fusing.skip formed visits split
            intro _
            exact short
        · rw [Nat.not_lt] at short
          obtain ⟨after, ran, absorbing⟩ :=
            absorbChain_spec nodes
              (absorbable_chain formed visits split fusing isHead)
              (by
                intro v member
                have listed := inside isHead v (List.mem_of_mem_tail member)
                rw [fuseStart_index formed visits split fusing isHead short]
                exact
                  (List.getElem?_eq_some_iff.mp
                    (visits.index_eq v listed)).1)
          refine ⟨after, ?_, ?_⟩
          · rw [fuseNode_head formed visits split fusing isHead held short
              contracted]
            exact ran
          · exact
              fusing_of_absorbing formed visits split fusing isHead short
                (inside isHead) absorbing

end Step

end Iteration

end Cgir.Pass.ProgFuse
