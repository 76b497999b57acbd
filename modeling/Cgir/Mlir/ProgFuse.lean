import Cgir.Mlir.Agreement
import Cgir.Pass.ProgRuns

/-!
# The prog-fuse pass of the dialect

`ProgFusePass` collects the chain that starts at each program of a snapshot of
the block, fuses its programs into the originating command of the first one and
erases the other ops back to front.

The graph and the heap of source commands after some programs are those of the
legacy pass (`Fusing`), so that export yields the same contraction.
-/

namespace Cgir.Mlir.ProgFuse

open Relation
open Cgir.Library
open Cgir.Model
open Cgir.Pass.ProgFuse

/-! ## The source functions -/

/-- The op is a `cg.generic` of the kind `COMMAND_TYPE_PROG`. -/
def isProg (op : Op) : Bool :=
  match op.kind with
  | .generic kind _ => kind = 0
  | _ => false

/-- `prog_src_node`. -/
def progSrcNode (heap : Heap) (op : Op) : Option NodeId :=
  match op.srcNode with
  | some node =>
      match (heap.nodes node).type, (heap.nodes node).command with
      | .command, some (.prog _) => some node
      | _, _ => none
  | none => none

/-- The program of the source node, if it is a non-null LLVM-IR program. -/
def llvmirSource (heap : Heap) (op : Op) : Option CommandProg :=
  (progSrcNode heap op).bind fun node => llvmirProg (heap.nodes node)

/--
The heap of the source nodes, the graph, `dead`, and the chains that were handed
to `command_graph_prog_fuse_llvmir` so far, which the source does not keep.
-/
structure FuseState where
  heap : Heap
  cg : Graph
  dead : List OpId
  fused : List (List NodeId)

/-- The op that the loop appends to a chain with the given head program. -/
def nextProg (state : FuseState) (head : CommandProg) (cur : OpId) :
    Option OpId :=
  match state.cg.users cur with
  | [w] =>
      if w ∈ state.dead then
        none
      else
        match llvmirSource state.heap (state.cg.ops cur),
          llvmirSource state.heap (state.cg.ops w) with
        | some _, some prog =>
            if isProg (state.cg.ops w) && state.cg.isSeries cur w &&
                commandProgLaunchParamsEqual head prog then
              some w
            else none
        | _, _ => none
  | _ => none

/-- Fuse a chain with the head `u`, whose source node is `un`. -/
def fuseChain (fuse : List CommandProg → CommandProg) (state : FuseState)
    (u : OpId) (un : NodeId) (chainOps : List OpId) : Option FuseState := do
  let chainNodes :=
    chainOps.filterMap fun op => progSrcNode state.heap (state.cg.ops op)
  let replaced := state.cg.replaceAllUsesWith (chainOps.getLastD u) u
  let cg ← chainOps.tail.reverse.foldlM Graph.eraseUnused replaced
  return {
    heap :=
      state.heap.setCommand un (.prog (fuse (progsOf state.heap chainNodes)))
    cg := cg
    dead := state.dead ++ chainOps.tail
    fused := state.fused ++ [chainNodes] }

/-- One op of `work`; `fuse` is `command_graph_prog_fuse_llvmir`. -/
def fuseProg (fuse : List CommandProg → CommandProg) (state : FuseState)
    (u : OpId) : Option FuseState :=
  if u ∈ state.dead then
    some state
  else
    match progSrcNode state.heap (state.cg.ops u),
      llvmirSource state.heap (state.cg.ops u) with
    | some un, some prog => do
        let chainOps ←
          follow (nextProg state prog) (state.cg.body.length + 1) u
        if chainOps.length < 2 then
          return state
        else
          fuseChain fuse state u un chainOps
    | _, _ => some state

/-- `ProgFusePass::runOnOperation`. -/
def progFuse (fuse : List CommandProg → CommandProg) (heap : Heap)
    (cg : Graph) : Option FuseState :=
  let work := cg.body.filter fun op => isProg (cg.ops op)
  work.foldlM (fuseProg fuse)
    { heap := heap, cg := cg, dead := [], fused := [] }

/-- `command_graph_optimize_mlir` with the prog-fuse pass, and its chains. -/
def optimizeProgFuse (fuse : List CommandProg → CommandProg) (heap : Heap)
    (graph : GraphId) : Option (Heap × List (List NodeId)) := do
  let (heap, cg) ← importCommandGraph heap graph
  let state ← progFuse fuse heap cg
  let after ← exportCommandGraph state.cg state.heap graph
  return (after, state.fused)

/-! ## Ops and their nodes -/

section Ops

variable {heap : Heap} {iterators : Iterators} {cg : Graph}

/-- The op of a live node. -/
def LiveOp (iterators : Iterators) (cg : Graph) (done : List NodeId)
    (op : OpId) : Prop :=
  op ∈ cg.body ∧
    LiveAt iterators.heap iterators.graph done (iterators.node op)

/-- An edge between the nodes of two ops. -/
def EdgeOp (iterators : Iterators) (cg : Graph) (done : List NodeId)
    (pred op : OpId) : Prop :=
  pred ∈ cg.body ∧ op ∈ cg.body ∧
    EdgeAt iterators.heap iterators.graph done (iterators.node pred)
      (iterators.node op)

theorem progSrcNode_eq {op : Op} {node : NodeId}
    (sourced : op.srcNode = some node) {prog : CommandProg}
    (held : llvmirProg (heap.nodes node) = some prog) :
    progSrcNode heap op = some node := by
  obtain ⟨type, command⟩ := command_of_llvmirProg held
  simp only [progSrcNode, sourced, type, command]

theorem llvmirSource_eq {op : Op} {node : NodeId}
    (sourced : op.srcNode = some node) :
    llvmirSource heap op = llvmirProg (heap.nodes node) := by
  cases held : llvmirProg (heap.nodes node) with
  | none =>
      rw [llvmirSource, Option.bind_eq_none_iff]
      intro other found
      rw [progSrcNode, sourced] at found
      dsimp only at found
      split at found
      · rw [← Option.some.inj found]
        exact held
      · cases found
  | some prog =>
      rw [llvmirSource, progSrcNode_eq sourced held]
      exact held

theorem nextProg_eq_some_iff {state : FuseState} {head : CommandProg}
    {cur w : OpId} :
    nextProg state head cur = some w ↔
      state.cg.isSeries cur w = true ∧ w ∉ state.dead ∧
        isProg (state.cg.ops w) = true ∧
          (llvmirSource state.heap (state.cg.ops cur)).isSome ∧
            ∃ prog, llvmirSource state.heap (state.cg.ops w) = some prog ∧
              commandProgLaunchParamsEqual head prog = true := by
  unfold nextProg
  constructor
  · intro found
    split at found
    · split at found
      · cases found
      · rename_i live
        split at found
        · rename_i curHeld held
          split at found
          · rename_i tests
            rw [Bool.and_eq_true, Bool.and_eq_true] at tests
            cases found
            exact
              ⟨tests.1.2, live, tests.1.1, by simp [curHeld], _, held,
                tests.2⟩
          · cases found
        · cases found
    · cases found
  · rintro ⟨series, live, kind, curSome, prog, held, launch⟩
    obtain ⟨curProg, curHeld⟩ := Option.isSome_iff_exists.mp curSome
    have only : state.cg.users cur = [w] := by
      rw [Graph.isSeries, Bool.and_eq_true, decide_eq_true_eq] at series
      exact series.1
    simp only [only, live, curHeld, held, kind, series, launch, if_false,
      Bool.and_self, if_true]

end Ops

/-! ## The state of the pass -/

/-- The state of the pass once the given nodes are done. -/
structure Fusing (fuse : List CommandProg → CommandProg)
    (iterators : Iterators) (cg : Graph) (done : List NodeId)
    (state : FuseState) : Prop where
  progress : Pass.ProgFuse.Progress fuse iterators.heap iterators.graph done
    state.heap state.fused
  pruned : Pruned cg state.cg
  represents : state.cg.Represents (LiveOp iterators cg done)
    (EdgeOp iterators cg done)
  dead_iff : ∀ op ∈ cg.body, op ∈ state.dead ↔
    holderAt iterators.heap done (iterators.node op) ≠ iterators.node op

section Imported

variable {heap : Heap} {iterators : Iterators} {cg : Graph}
  {done : List NodeId}

/-- A program is imported as a `cg.generic`. -/
theorem isProg_of_held (imported : Imported iterators cg) {op : OpId}
    (member : op ∈ cg.body) {prog : CommandProg}
    (held : llvmirProg (iterators.heap.nodes (iterators.node op)) =
      some prog) : isProg (cg.ops op) = true := by
  rw [imported.body_eq, List.mem_range] at member
  have encoded := encoded_created (imported.encodes op member).created
  obtain ⟨type, command⟩ := command_of_llvmirProg held
  rcases encoded.kind with empty | ⟨-, other, otherHeld, kind⟩
  · rw [type] at empty
    cases empty
  · rw [command, Option.some.injEq] at otherHeld
    subst otherHeld
    rw [isProg, kind]
    rfl

theorem EdgeAt.reachable (formed : heap.WellFormed iterators.graph)
    {source target : NodeId}
    (step : EdgeAt heap iterators.graph done source target) :
    heap.Reachable iterators.graph source ∧
      heap.Reachable iterators.graph target := by
  have inside : ∀ {n}, heap.Reachable iterators.graph n →
      heap.Reachable iterators.graph (holderAt heap done n) := by
    intro n reachable
    rcases holderAt_cases heap done n with alone | ⟨-, moved⟩
    · exact alone.symm ▸ reachable
    · exact moved.symm ▸ headOf_reachable formed reachable
  obtain ⟨-, upper, lower, link, rfl, rfl⟩ := step
  exact ⟨inside link.1, inside link.reachable⟩

variable (formed : iterators.heap.WellFormed iterators.graph)
  (mirrors : Mirrors heap iterators cg)

include mirrors

theorem node_reachable {op : OpId} (member : op ∈ cg.body) :
    iterators.heap.Reachable iterators.graph (iterators.node op) := by
  rw [Heap.reachable_congr mirrors.same]
  exact mirrors.reachable member

theorem node_of_index {n : NodeId}
    (reachable : iterators.heap.Reachable iterators.graph n) :
    iterators.index n ∈ cg.body ∧ iterators.node (iterators.index n) = n := by
  rw [Heap.reachable_congr mirrors.same] at reachable
  exact ⟨mirrors.index_mem reachable, mirrors.node_index reachable⟩

/-- An op is one of the ops of some nodes if its node is one of them. -/
theorem mem_map_index {nodes : List NodeId}
    (reachable : ∀ n ∈ nodes,
      iterators.heap.Reachable iterators.graph n) {op : OpId}
    (member : op ∈ cg.body) :
    op ∈ nodes.map iterators.index ↔ iterators.node op ∈ nodes := by
  rw [List.mem_map]
  constructor
  · rintro ⟨n, inside, rfl⟩
    rw [(node_of_index mirrors (reachable n inside)).2]
    exact inside
  · intro inside
    exact ⟨iterators.node op, inside, mirrors.index_node member⟩

include formed

/-- Sole edges between ops are those between their nodes. -/
theorem sole_edgeOp_iff {pred op : OpId} (predMember : pred ∈ cg.body)
    (member : op ∈ cg.body) :
    Sole (EdgeOp iterators cg done) pred op ↔
      Sole (EdgeAt iterators.heap iterators.graph done) (iterators.node pred)
        (iterators.node op) := by
  constructor
  · intro sole
    exact {
      step := sole.step.2.2
      only_next := by
        intro other step
        obtain ⟨otherMember, otherEq⟩ :=
          node_of_index mirrors (EdgeAt.reachable formed step).2
        rw [← otherEq] at step ⊢
        rw [sole.only_next _ ⟨predMember, otherMember, step⟩]
      only_prev := by
        intro other step
        obtain ⟨otherMember, otherEq⟩ :=
          node_of_index mirrors (EdgeAt.reachable formed step).1
        rw [← otherEq] at step ⊢
        rw [sole.only_prev _ ⟨otherMember, member, step⟩] }
  · intro sole
    exact {
      step := ⟨predMember, member, sole.step⟩
      only_next := fun other step =>
        mirrors.injective step.2.1 member (sole.only_next _ step.2.2)
      only_prev := fun other step =>
        mirrors.injective step.1 predMember (sole.only_prev _ step.2.2) }

end Imported

/-! ## One op -/

section Step

variable {fuse : List CommandProg → CommandProg} {heap : Heap}
  {iterators : Iterators} {cg : Graph} {done : List NodeId}
  {state : FuseState}

theorem Fusing.llvmirSource_eq (mirrors : Mirrors heap iterators cg)
    (fusing : Fusing fuse iterators cg done state) {op : OpId}
    (member : op ∈ cg.body) :
    (state.cg.ops op).srcNode = some (iterators.node op) ∧
      llvmirSource state.heap (state.cg.ops op) =
        llvmirProg (state.heap.nodes (iterators.node op)) := by
  have sourced : (state.cg.ops op).srcNode = some (iterators.node op) :=
    (congrArg Op.srcNode (fusing.pruned.ops_eq op) :).trans
      (mirrors.sourced op member)
  exact ⟨sourced, ProgFuse.llvmirSource_eq sourced⟩

variable (formed : iterators.heap.WellFormed iterators.graph)
  (mirrors : Mirrors heap iterators cg) (imported : Imported iterators cg)
  (fusing : Fusing fuse iterators cg done state)

include formed mirrors imported fusing

/-- The loop that collects a chain finds the whole chain of the original graph. -/
theorem Fusing.collect_eq {u : NodeId}
    (reachable : iterators.heap.Reachable iterators.graph u)
    (isHead : headOf iterators.heap u = u) (fresh : u ∉ done)
    {prog : CommandProg}
    (held : llvmirProg (iterators.heap.nodes u) = some prog) :
    follow (nextProg state prog) (state.cg.body.length + 1)
        (iterators.index u) =
      some ((chainOf iterators.heap u).map iterators.index) := by
  have inChain : ∀ {n}, n ∈ chainOf iterators.heap u →
      iterators.heap.Reachable iterators.graph n := fun member =>
    reachable_of_mem_chainOf formed reachable member
  have headEq : ∀ {n}, n ∈ chainOf iterators.heap u →
      headOf iterators.heap n = u := fun member =>
    (mem_chainOf_headOf formed reachable isHead (inChain member)).mp member
  have ran := chainOf_ran formed reachable
  have mapped :=
    @follow_map _ _ (Pass.ProgFuse.fuseNext iterators.heap) (nextProg state prog)
      iterators.index _ _ _ ran
  apply follow_of_length_le _ (mapped ?_)
  · -- the ops of a chain are ops of the block
    have nodup : ((chainOf iterators.heap u).map iterators.index).Nodup := by
      obtain ⟨last, path, -⟩ := chainOf_straight formed reachable
      apply (path.nodup formed.acyclic).map_on
      intro first firstIn second secondIn same
      rw [← (node_of_index mirrors (inChain firstIn)).2, same,
        (node_of_index mirrors (inChain secondIn)).2]
    apply Nat.le_succ_of_le
    apply (nodup.subperm _).length_le
    intro op listed
    obtain ⟨n, member, rfl⟩ := List.mem_map.mp listed
    obtain ⟨inBody, nodeEq⟩ := node_of_index mirrors (inChain member)
    rw [fusing.represents.mem_body]
    refine ⟨inBody, ?_⟩
    rw [nodeEq]
    exact
      ⟨inChain member, holderAt_of_fresh ((headEq member).symm ▸ fresh)⟩
  · intro cur member
    obtain ⟨curMember, curEq⟩ := node_of_index mirrors (inChain member)
    obtain ⟨curProg, curHeld, -⟩ :=
      launch_of_mem_chainOf formed reachable held member
    have curFresh : cur ∉ done :=
      not_mem_of_head_fresh formed fusing.progress.closed (inChain member)
        ((headEq member).symm ▸ fresh)
    have curSource :
        (llvmirSource state.heap
          (state.cg.ops (iterators.index cur))).isSome := by
      rw [(fusing.llvmirSource_eq mirrors curMember).2, curEq,
        fusing.progress.llvmirProg_eq curFresh, curHeld]
      rfl
    apply Option.ext
    intro w
    rw [nextProg_eq_some_iff, fusing.represents.isSeries_iff,
      Option.map_eq_some_iff]
    have next := fusing.progress.next_iff formed reachable isHead fresh held
      member
    constructor
    · rintro ⟨sole, -, -, -, prog', source, launch⟩
      have wMember := sole.step.2.1
      rw [(fusing.llvmirSource_eq mirrors wMember).2] at source
      rw [sole_edgeOp_iff formed mirrors curMember wMember, curEq] at sole
      exact
        ⟨iterators.node w, (next _).mp ⟨sole, prog', source, launch⟩,
          mirrors.index_node wMember⟩
    · rintro ⟨v, linked, rfl⟩
      obtain ⟨sole, prog', source, launch⟩ := (next v).mpr linked
      obtain ⟨vMember, vEq⟩ :=
        node_of_index mirrors (EdgeAt.reachable formed sole.step).2
      obtain ⟨-, -, origProg, -, origHeld, -⟩ :=
        fuseNext_eq_some_iff.mp linked
      have soleOp : Sole (EdgeOp iterators cg done) (iterators.index cur)
          (iterators.index v) := by
        rw [sole_edgeOp_iff formed mirrors curMember vMember, curEq, vEq]
        exact sole
      have alive := (fusing.represents.inside _ _ soleOp.step).2
      refine ⟨soleOp, ?_, ?_, curSource, prog', ?_, launch⟩
      · rw [fusing.dead_iff _ vMember]
        exact fun moved => moved alive.2.2
      · have kind : (state.cg.ops (iterators.index v)).kind =
            (cg.ops (iterators.index v)).kind :=
          (congrArg Op.kind (fusing.pruned.ops_eq _) :)
        rw [isProg, kind]
        exact isProg_of_held imported vMember (vEq.symm ▸ origHeld)
      · rw [(fusing.llvmirSource_eq mirrors vMember).2, vEq]
        exact source

omit imported

/-- A node that is no head of a longer chain leaves the state as it is. -/
theorem Fusing.skip {u : OpId} (member : u ∈ cg.body)
    (fresh : iterators.node u ∉ done)
    (known : ∀ p, Sole (iterators.heap.Link iterators.graph) p
        (iterators.node u) →
      (llvmirProg (iterators.heap.nodes p)).isSome → p ∈ done)
    (short : headOf iterators.heap (iterators.node u) = iterators.node u →
      (chainOf iterators.heap (iterators.node u)).length < 2) :
    Fusing fuse iterators cg (done ++ [iterators.node u]) state := by
  have reachable := node_reachable mirrors member
  obtain ⟨edges, live⟩ := edgeAt_skip formed reachable fresh short
  exact {
    progress := fusing.progress.skip reachable fresh known short
    pruned := fusing.pruned
    represents :=
      fusing.represents.congr
        (fun op => and_congr_right' (live (iterators.node op)))
        (fun pred op =>
          and_congr_right' (and_congr_right'
            (edges (iterators.node pred) (iterators.node op))))
    dead_iff := by
      intro op opMember
      rw [fusing.dead_iff op opMember,
        holderAt_skip formed reachable fresh short
          (node_reachable mirrors opMember)] }

/-- The chain of a head is contracted into it. -/
theorem Fusing.fuseHead {u : OpId} (member : u ∈ cg.body)
    (fresh : iterators.node u ∉ done)
    (known : ∀ p, Sole (iterators.heap.Link iterators.graph) p
        (iterators.node u) →
      (llvmirProg (iterators.heap.nodes p)).isSome → p ∈ done)
    (isHead : headOf iterators.heap (iterators.node u) = iterators.node u)
    {prog : CommandProg}
    (held : llvmirProg (iterators.heap.nodes (iterators.node u)) = some prog)
    (long : 2 ≤ (chainOf iterators.heap (iterators.node u)).length) :
    ∃ after, fuseChain fuse state u (iterators.node u)
        ((chainOf iterators.heap (iterators.node u)).map iterators.index) =
          some after ∧
      Fusing fuse iterators cg (done ++ [iterators.node u]) after := by
  have reachable := node_reachable mirrors member
  obtain ⟨others, chainEq⟩ := chainOf_cons formed reachable
  obtain ⟨last, chain⟩ :=
    freshChain formed fusing.progress.closed reachable isHead fresh chainEq
  have inChain : ∀ {n}, n ∈ chainOf iterators.heap (iterators.node u) →
      iterators.heap.Reachable iterators.graph n := fun inside =>
    reachable_of_mem_chainOf formed reachable inside
  have inOthers : ∀ n ∈ others,
      iterators.heap.Reachable iterators.graph n := fun n inside =>
    inChain (chainEq ▸ List.mem_cons_of_mem _ inside)
  -- the ops of the chain
  have opsEq : (chainOf iterators.heap (iterators.node u)).map
      iterators.index = u :: others.map iterators.index := by
    rw [chainEq, List.map_cons, mirrors.index_node member]
  have chainNodes :
      (u :: others.map iterators.index).filterMap
          (fun op => progSrcNode state.heap (state.cg.ops op)) =
        chainOf iterators.heap (iterators.node u) := by
    rw [← opsEq, List.filterMap_map]
    refine (List.filterMap_congr ?_).trans List.filterMap_some
    intro n inside
    obtain ⟨inBody, nodeEq⟩ := node_of_index mirrors (inChain inside)
    obtain ⟨nProg, nHeld, -⟩ :=
      launch_of_mem_chainOf formed reachable held inside
    have sourced := (fusing.llvmirSource_eq mirrors inBody).1
    rw [nodeEq] at sourced
    apply progSrcNode_eq sourced
    rw [fusing.progress.llvmirProg_eq (chain.fresh n (chainEq ▸ inside))]
    exact nHeld
  have progsEq :
      progsOf state.heap (chainOf iterators.heap (iterators.node u)) =
        progsOf iterators.heap (chainOf iterators.heap (iterators.node u)) := by
    apply List.filterMap_congr
    intro n inside
    exact fusing.progress.llvmirProg_eq (chain.fresh n (chainEq ▸ inside))
  have isLast : (u :: others.map iterators.index).getLast? =
      some (iterators.index last) := by
    rw [← opsEq, List.getLast?_map, chainEq, chain.path.getLast?]
    rfl
  have injective : ∀ first ∈ chainOf iterators.heap (iterators.node u),
      ∀ second ∈ chainOf iterators.heap (iterators.node u),
        iterators.index first = iterators.index second → first = second := by
    intro first firstIn second secondIn same
    rw [← (node_of_index mirrors (inChain firstIn)).2, same,
      (node_of_index mirrors (inChain secondIn)).2]
  have nodup : (u :: others.map iterators.index).Nodup := by
    rw [← opsEq]
    exact (chainEq ▸ chain.nodup : List.Nodup _).map_on injective
  have sequence : List.IsChain (Sole (EdgeOp iterators cg done))
      (u :: others.map iterators.index) := by
    rw [← opsEq, List.isChain_map, chainEq]
    refine chain.sequence.imp_of_mem_imp ?_
    intro first second firstIn secondIn sole
    obtain ⟨firstBody, firstEq⟩ :=
      node_of_index mirrors (inChain (chainEq ▸ firstIn))
    obtain ⟨secondBody, secondEq⟩ :=
      node_of_index mirrors (inChain (chainEq ▸ secondIn))
    rw [sole_edgeOp_iff formed mirrors firstBody secondBody, firstEq,
      secondEq]
    exact sole
  have alive : LiveOp iterators cg done u :=
    ⟨member, reachable, chain.self _ List.mem_cons_self⟩
  have nonempty : others.map iterators.index ≠ [] := by
    rintro nothing
    rw [List.map_eq_nil_iff] at nothing
    rw [chainEq, nothing] at long
    exact absurd long (by simp)
  obtain ⟨after, ran, erased, represents⟩ :=
    contractSeries_spec fusing.represents alive nodup sequence isLast nonempty
  obtain ⟨edges, live⟩ :=
    edgeAt_head formed reachable isHead fresh chainEq chain
  have lastBody : iterators.index last ∈ cg.body ∧
      iterators.node (iterators.index last) = last :=
    node_of_index mirrors (inChain (chainEq ▸ chain.path.last_mem))
  refine ⟨{
    heap := state.heap.setCommand (iterators.node u)
      (.prog (fuse (progsOf iterators.heap
        (chainOf iterators.heap (iterators.node u)))))
    cg := after
    dead := state.dead ++ others.map iterators.index
    fused := state.fused ++ [chainOf iterators.heap (iterators.node u)] },
    ?_, ?_⟩
  · rw [fuseChain, opsEq, chainNodes, progsEq]
    rw [List.getLastD_eq_getLast?, isLast, Option.getD_some, List.tail_cons,
      ran]
    rfl
  · exact {
      progress :=
        fusing.progress.fuseHead reachable known isHead long rfl
      pruned :=
        (fusing.pruned.trans (pruned_replaceAllUsesWith _ _ _)).trans
          erased.pruned
      represents := by
        refine represents.congr (fun op => ?_) (fun pred op => ?_)
        · constructor
          · rintro ⟨opMember, alive'⟩
            have both := (live _).mp alive'
            rw [mem_map_index mirrors inOthers opMember]
            exact ⟨⟨opMember, both.1⟩, both.2⟩
          · rintro ⟨⟨opMember, alive'⟩, outside⟩
            rw [mem_map_index mirrors inOthers opMember] at outside
            exact ⟨opMember, (live _).mpr ⟨alive', outside⟩⟩
        · constructor
          · rintro ⟨predMember, opMember, step⟩
            obtain ⟨predOut, opOut, cases⟩ := (edges _ _).mp step
            rw [← mem_map_index mirrors inOthers predMember] at predOut
            rw [← mem_map_index mirrors inOthers opMember] at opOut
            refine ⟨predOut, opOut, ?_⟩
            rcases cases with step | ⟨isFirst, step⟩
            · exact Or.inl ⟨predMember, opMember, step⟩
            · refine
                Or.inr ⟨mirrors.injective predMember member isFirst,
                  lastBody.1, opMember, ?_⟩
              rw [lastBody.2]
              exact step
          · rintro ⟨predOut, opOut,
              ⟨predMember, opMember, step⟩ | ⟨rfl, -, opMember, step⟩⟩
            · rw [mem_map_index mirrors inOthers predMember] at predOut
              rw [mem_map_index mirrors inOthers opMember] at opOut
              exact
                ⟨predMember, opMember,
                  (edges _ _).mpr ⟨predOut, opOut, Or.inl step⟩⟩
            · rw [mem_map_index mirrors inOthers member] at predOut
              rw [mem_map_index mirrors inOthers opMember] at opOut
              rw [lastBody.2] at step
              exact
                ⟨member, opMember,
                  (edges _ _).mpr ⟨predOut, opOut, Or.inr ⟨rfl, step⟩⟩⟩
      dead_iff := by
        intro op opMember
        rw [List.mem_append, fusing.dead_iff op opMember,
          mem_map_index mirrors inOthers opMember,
          holderAt_concat_head formed reachable isHead fresh chainEq
            (node_reachable mirrors opMember)]
        by_cases inside : iterators.node op ∈ others
        · rw [if_pos inside]
          refine iff_of_true (Or.inr inside) ?_
          intro same
          exact (List.nodup_cons.mp chain.nodup).1 (same ▸ inside)
        · rw [if_neg inside]
          exact or_iff_left inside }

include imported

/-- One op of the snapshot. -/
theorem fuseProg_spec {u : OpId} (member : u ∈ cg.body)
    (fresh : iterators.node u ∉ done)
    (known : ∀ p, Sole (iterators.heap.Link iterators.graph) p
        (iterators.node u) →
      (llvmirProg (iterators.heap.nodes p)).isSome → p ∈ done) :
    ∃ after, fuseProg fuse state u = some after ∧
      Fusing fuse iterators cg (done ++ [iterators.node u]) after := by
  have reachable := node_reachable mirrors member
  have closed := fusing.progress.closed
  have skip := fusing.skip formed mirrors member fresh known
  by_cases dead : u ∈ state.dead
  · refine ⟨state, if_pos dead, skip ?_⟩
    intro isHead
    exact
      absurd (holderAt_of_fresh (isHead.symm ▸ fresh))
        ((fusing.dead_iff u member).mp dead)
  · have isHead : headOf iterators.heap (iterators.node u) =
        iterators.node u := by
      by_contra inner
      exact
        dead
          ((fusing.dead_iff u member).mpr
            (holderAt_inner formed closed reachable known inner))
    obtain ⟨sourced, source⟩ := fusing.llvmirSource_eq mirrors member
    have now := fusing.progress.llvmirProg_eq fresh
    cases held : llvmirProg
        (iterators.heap.nodes (iterators.node u)) with
    | none =>
        rw [now, held] at source
        refine ⟨state, ?_, skip fun _ =>
          chainOf_length_lt formed reachable held⟩
        simp only [fuseProg, if_neg dead, source]
        cases progSrcNode state.heap (state.cg.ops u) with
        | none => rfl
        | some un => rfl
    | some prog =>
        have srcNode := progSrcNode_eq sourced (now.trans held)
        rw [now, held] at source
        have collected :=
          fusing.collect_eq formed mirrors imported reachable isHead fresh
            held
        rw [mirrors.index_node member] at collected
        by_cases short :
            (chainOf iterators.heap (iterators.node u)).length < 2
        · refine ⟨state, ?_, skip fun _ => short⟩
          rw [← List.length_map iterators.index] at short
          simp only [fuseProg, if_neg dead, srcNode, source, collected]
          exact if_pos short
        · obtain ⟨after, ran, next⟩ :=
            fusing.fuseHead formed mirrors member fresh known isHead held
              (Nat.not_lt.mp short)
          refine ⟨after, ?_, next⟩
          rw [← List.length_map iterators.index] at short
          simp only [fuseProg, if_neg dead, srcNode, source, collected]
          exact (if_neg short).trans ran

end Step

/-! ## The whole pass -/

section Pass

variable {fuse : List CommandProg → CommandProg} {heap : Heap}
  {iterators : Iterators} {cg : Graph}

/-- The snapshot of the pass. -/
def work (cg : Graph) : List OpId :=
  cg.body.filter fun op => isProg (cg.ops op)

/-- Nothing is done at first. -/
theorem fusing_nil (formed : iterators.heap.WellFormed iterators.graph)
    (mirrors : Mirrors heap iterators cg) :
    Fusing fuse iterators cg []
      { heap := iterators.heap, cg := cg, dead := [], fused := [] } := by
  have alone : ∀ n, holderAt iterators.heap [] n = n := fun n =>
    holderAt_of_fresh List.not_mem_nil
  have formed' : heap.WellFormed iterators.graph :=
    formed.congr mirrors.same.symm
  have linkEq : iterators.heap.Link iterators.graph =
      heap.Link iterators.graph := Heap.link_congr mirrors.same
  exact {
    progress := {
      reachable := fun n member => (List.not_mem_nil member).elim
      closed := fun w member => (List.not_mem_nil member).elim
      unlinked_eq := by congr 1
      mem_fused := fun chain => by simp }
    pruned := .refl cg
    represents := by
      refine (mirrors.represents formed').congr (fun op => ?_)
        (fun pred op => ?_)
      · rw [LiveOp, LiveAt, alone]
        exact
          ⟨fun live => live.1, fun member =>
            ⟨member, node_reachable mirrors member, rfl⟩⟩
      · rw [OpEdge, EdgeOp]
        constructor
        · rintro ⟨predMember, member, -, upper, lower, link, upperEq,
            lowerEq⟩
          rw [alone] at upperEq lowerEq
          rw [upperEq, lowerEq, linkEq] at link
          exact
            ⟨member,
              (mirrors.mem_operands formed' member).mpr ⟨predMember, link⟩⟩
        · rintro ⟨member, uses⟩
          obtain ⟨predMember, link⟩ :=
            (mirrors.mem_operands formed' member).mp uses
          rw [← linkEq] at link
          refine
            ⟨predMember, member, ?_, _, _, link, alone _, alone _⟩
          intro same
          rw [same] at link
          exact formed.acyclic _ (TransGen.single link)
    dead_iff := fun op _ => by simp [alone] }

/-- The pass returns once every program of the snapshot is done. -/
theorem progFuse_spec (formed : iterators.heap.WellFormed iterators.graph)
    (mirrors : Mirrors heap iterators cg) (imported : Imported iterators cg)
    (ordered : ∀ earlier u later, work cg = earlier ++ u :: later →
      ∀ p, Sole (iterators.heap.Link iterators.graph) p (iterators.node u) →
        (llvmirProg (iterators.heap.nodes p)).isSome →
          p ∈ earlier.map iterators.node) :
    ∃ state, progFuse fuse iterators.heap cg = some state ∧
      Fusing fuse iterators cg ((work cg).map iterators.node) state := by
  have nodup : (cg.body.filter fun op => isProg (cg.ops op)).Nodup :=
    mirrors.body_nodup.filter _
  apply Loop.foldlM_invariant (fuseProg fuse)
    (fun done state =>
      Fusing fuse iterators cg (done.map iterators.node) state)
  · intro done u rest state split fusing
    have listed : ∀ {op}, op ∈ done ++ u :: rest → op ∈ cg.body := by
      intro op inside
      rw [← split] at inside
      exact (List.mem_filter.mp inside).1
    have member : u ∈ cg.body := listed (by simp)
    have fresh : iterators.node u ∉ done.map iterators.node := by
      intro inside
      obtain ⟨op, earlier, same⟩ := List.mem_map.mp inside
      have equal :=
        mirrors.injective (listed (List.mem_append_left _ earlier)) member
          same
      rw [split] at nodup
      exact
        (List.nodup_append.mp nodup).2.2 op earlier u (by simp) equal
    rw [List.map_append, List.map_singleton]
    exact
      fuseProg_spec formed mirrors imported fusing member fresh
        (ordered done u rest split)
  · exact fusing_nil formed mirrors

/-- Every program is done with the snapshot. -/
theorem listed_work (mirrors : Mirrors heap iterators cg)
    (imported : Imported iterators cg) {n : NodeId}
    (reachable : iterators.heap.Reachable iterators.graph n)
    (isSome : (llvmirProg (iterators.heap.nodes n)).isSome) :
    n ∈ (work cg).map iterators.node := by
  obtain ⟨prog, held⟩ := Option.isSome_iff_exists.mp isSome
  obtain ⟨member, nodeEq⟩ := node_of_index mirrors reachable
  refine
    List.mem_map.mpr
      ⟨iterators.index n, List.mem_filter.mpr ⟨member, ?_⟩, nodeEq⟩
  exact isProg_of_held imported member (nodeEq.symm ▸ held)

/-- The snapshot lists a program after the one that it follows. -/
theorem ordered_work (formed : heap.WellFormed iterators.graph)
    (mirrors : Mirrors heap iterators cg) (imported : Imported iterators cg)
    (sorted : MarkSearch.PreSorted heap.successors
      (heap.graphs iterators.graph).entry iterators.nodes)
    {earlier later : List OpId} {u : OpId}
    (split : work cg = earlier ++ u :: later) (p : NodeId)
    (sole : Sole (iterators.heap.Link iterators.graph) p (iterators.node u))
    (isSome : (llvmirProg (iterators.heap.nodes p)).isSome) :
    p ∈ earlier.map iterators.node := by
  rw [Heap.link_congr mirrors.same] at sole
  rw [llvmirProg_congr mirrors.same] at isSome
  have nodesEq : iterators.nodes.filter
      (fun n => isProg (cg.ops (iterators.index n))) =
        (work cg).map iterators.node := by
    rw [← mirrors.places, List.filter_map, work]
    congr 1
    apply List.filter_congr
    intro op member
    simp only [Function.comp_apply, mirrors.index_node member]
  have split' : iterators.nodes.filter
      (fun n => isProg (cg.ops (iterators.index n))) =
        earlier.map iterators.node ++
          iterators.node u :: later.map iterators.node := by
    rw [nodesEq, split, List.map_append, List.map_cons]
  apply ordered_of_preSorted formed sorted
    (fun n => (mirrors.mem_nodes n).mp) split' sole
  have reachable := sole.step.1
  rw [← llvmirProg_congr mirrors.same] at isSome
  rw [← Heap.reachable_congr mirrors.same] at reachable
  obtain ⟨op, member, rfl⟩ :=
    List.mem_map.mp (listed_work mirrors imported reachable isSome)
  obtain ⟨inBody, kind⟩ := List.mem_filter.mp member
  rw [mirrors.index_node inBody]
  exact kind

end Pass

/-! ## Export -/

/-- An op writes into a node what the node holds, programs apart. -/
theorem updateNode_of_written {op : Op} {node node' : CommandGraphNode}
    (written : op.updateNode node = some node)
    (device : node'.deviceUniqueId = node.deviceUniqueId)
    (kept : isProg op = true ∨ node'.command = node.command) :
    op.updateNode node' = some node' := by
  obtain ⟨device', _, _, _, _, _, command'⟩ := node'
  obtain ⟨device₀, _, _, _, _, _, command⟩ := node
  obtain ⟨duid, kind, operands, srcNode⟩ := op
  dsimp only at device kept
  subst device
  cases kind with
  | generic kind blob =>
      cases command <;> cases command' <;>
        simp_all [Op.updateNode, Op.getDuid]
  | empty isEntry isExit =>
      cases command <;> cases command' <;>
        simp_all [Op.updateNode, Op.getDuid]
  | batch region =>
      cases command <;> cases command' <;>
        simp_all [Op.updateNode, Op.getDuid]
  | copy1D attrs =>
      have same : command' = command := by simpa [isProg] using kept
      subst same
      cases command' <;> simp_all [Op.updateNode, Op.getDuid]
  | copy2D attrs =>
      have same : command' = command := by simpa [isProg] using kept
      subst same
      cases command' <;> simp_all [Op.updateNode, Op.getDuid]

section Result

variable {fuse : List CommandProg → CommandProg} {heap : Heap}
  {iterators : Iterators} {cg : Graph} {state : FuseState}
  (formed : heap.WellFormed iterators.graph)
  (mirrors : Mirrors heap iterators cg)

/-- A control node stands for itself alone. -/
theorem holderAt_control {orig : Heap} {graph : GraphId}
    {done : List NodeId} (formed : orig.WellFormed graph) {n : NodeId}
    (reachable : orig.Reachable graph n)
    (control : (orig.nodes n).type = .empty) {m : NodeId}
    (mReachable : orig.Reachable graph m) :
    holderAt orig done m = n ↔ m = n := by
  have isHead := headOf_of_empty formed reachable control
  constructor
  · intro same
    rcases holderAt_cases orig done m with alone | ⟨-, moved⟩
    · exact alone.symm.trans same
    · have member : m ∈ chainOf orig n :=
        (mem_chainOf_headOf formed reachable isHead mReachable).mpr
          (moved.symm.trans same)
      rcases chainOf_cases formed reachable isHead with
        alone | ⟨-, long, -⟩
      · rw [alone] at member
        exact List.mem_singleton.mp member
      · exact
          absurd
            (chainOf_length_lt formed reachable
              (llvmirProg_of_empty control))
            (Nat.not_lt.mpr long)
  · rintro rfl
    rcases holderAt_cases orig done m with alone | ⟨-, moved⟩
    · exact alone
    · exact moved.trans isHead

include formed mirrors

/-- Export returns the graph whose chains are contracted. -/
theorem Fusing.export_spec (imported : Imported iterators cg)
    (ends : ControlEnds heap iterators.graph)
    (fusing : Fusing fuse iterators cg ((work cg).map iterators.node) state) :
    ∃ after,
      exportCommandGraph state.cg state.heap iterators.graph = some after ∧
        FusedAll fuse heap iterators.graph after state.fused := by
  let orig := iterators.heap
  let graph := iterators.graph
  have formed' : orig.WellFormed graph := formed.congr mirrors.same
  have graphsEq := Heap.unmarked_graphs mirrors.same graph
  have unlinked := fusing.progress.unlinked_eq
  have entryControl :
      (orig.nodes (heap.graphs graph).entry).type = .empty := by
    rw [Heap.unmarked_type mirrors.same]
    exact ends.entry_empty
  have exitControl : (orig.nodes (heap.graphs graph).exit).type = .empty := by
    rw [Heap.unmarked_type mirrors.same]
    exact ends.exit_empty
  have entryReachable : orig.Reachable graph (heap.graphs graph).entry := by
    rw [Heap.reachable_congr mirrors.same]
    exact Heap.reachable_entry
  have exitReachable : orig.Reachable graph (heap.graphs graph).exit := by
    rw [Heap.reachable_congr mirrors.same]
    exact formed.reachable_exit
  obtain ⟨entryMember, entryEq⟩ := node_of_index mirrors entryReachable
  obtain ⟨exitMember, exitEq⟩ := node_of_index mirrors exitReachable
  obtain ⟨after, exports, same, represents⟩ :=
    mirrors.export_spec formed fusing.pruned fusing.represents
      ⟨entryMember, entryEq.symm ▸ entryReachable, by
        rw [entryEq, holderAt_control formed' entryReachable entryControl
          entryReachable]⟩
      ⟨exitMember, exitEq.symm ▸ exitReachable, by
        rw [exitEq, holderAt_control formed' exitReachable exitControl
          exitReachable]⟩
      (by
        rintro pred ⟨-, -, -, upper, lower, link, -, lowerEq⟩
        rw [entryEq, holderAt_control formed' entryReachable entryControl
          link.reachable] at lowerEq
        rw [lowerEq] at link
        have isPred :=
          (formed'.mem_predecessors _ link.reachable upper).mpr link
        rw [← graphsEq.1, formed'.predecessors_entry] at isPred
        exact List.not_mem_nil isPred)
      (by
        rintro op ⟨-, -, -, upper, lower, link, upperEq, -⟩
        rw [exitEq, holderAt_control formed' exitReachable exitControl
          link.1] at upperEq
        have isSucc := link.2
        rw [upperEq, ← graphsEq.2.1, formed'.successors_exit] at isSucc
        exact List.not_mem_nil isSucc)
      ((Heap.unlinked_graphs unlinked).trans rfl)
      (by
        rintro op ⟨member, -⟩
        apply updateNode_of_written (mirrors.written op member)
          (Heap.unlinked_deviceUniqueId unlinked _)
        by_cases kind : isProg (cg.ops op) = true
        · exact Or.inl kind
        · refine Or.inr ((Heap.unlinked_command unlinked _).trans ?_)
          apply if_neg
          rintro ⟨listed, -⟩
          obtain ⟨other, inWork, nodeEq⟩ := List.mem_map.mp listed
          obtain ⟨inBody, otherKind⟩ := List.mem_filter.mp inWork
          exact
            kind (mirrors.injective inBody member nodeEq ▸ otherKind))
  refine ⟨after, exports, ?_⟩
  apply FusedAll.of_progress formed mirrors.same
    (fun n => listed_work mirrors imported)
  · exact {
      reachable := fusing.progress.reachable
      closed := fusing.progress.closed
      unlinked_eq := same.trans unlinked
      mem_fused := fusing.progress.mem_fused }
  · refine (represents.congr_edge fun source target => ?_).congr_live
      fun n => ?_
    · constructor
      · intro step
        obtain ⟨sourceReachable, targetReachable⟩ :=
          EdgeAt.reachable formed' step
        obtain ⟨sourceMember, sourceEq⟩ :=
          node_of_index mirrors sourceReachable
        obtain ⟨targetMember, targetEq⟩ :=
          node_of_index mirrors targetReachable
        refine
          ⟨_, _, ⟨sourceMember, targetMember, ?_⟩, sourceEq, targetEq⟩
        rw [sourceEq, targetEq]
        exact step
      · rintro ⟨pred, op, ⟨-, -, step⟩, rfl, rfl⟩
        exact step
    · constructor
      · intro live
        obtain ⟨member, nodeEq⟩ := node_of_index mirrors live.1
        exact ⟨_, ⟨member, nodeEq.symm ▸ live⟩, nodeEq⟩
      · rintro ⟨op, ⟨-, live⟩, rfl⟩
        exact live

end Result

/-- Import, the pass and export return, and contract every chain. -/
theorem optimizeProgFuse_spec (fuse : List CommandProg → CommandProg)
    {heap : Heap} {graph : GraphId} (formed : heap.WellFormed graph)
    (ready : heap.WalkReady graph) (plain : Plain heap graph) :
    ∃ after fused, optimizeProgFuse fuse heap graph = some (after, fused) ∧
      FusedAll fuse heap graph after fused := by
  obtain ⟨indexed, nodes, cg, imports, listed, iterated, imported⟩ :=
    importCommandGraph_listed formed ready plain.importable
  obtain ⟨visited, all, inner, ran, -, sorted⟩ :=
    Heap.createNodeIterators_order formed.allocated ready
  obtain ⟨-, rfl⟩ := Prod.mk.inj (Option.some.inj (listed.symm.trans ran))
  have mirrors := imported.mirrors plain iterated
  let iterators : Iterators :=
    { heap := indexed, graph := graph, nodes := nodes }
  have formed' : iterators.heap.WellFormed graph :=
    formed.congr iterated.unmarked_eq
  obtain ⟨state, fuses, fusing⟩ :
      ∃ state, progFuse fuse iterators.heap cg = some state ∧
        Fusing fuse iterators cg ((work cg).map iterators.node) state :=
    progFuse_spec formed' mirrors imported
      fun earlier u later split p sole isSome =>
        ordered_work formed mirrors imported sorted split p sole isSome
  obtain ⟨after, exports, all⟩ :=
    fusing.export_spec formed mirrors imported
      ⟨plain.entry_empty, plain.exit_empty⟩
  refine ⟨after, state.fused, ?_, all⟩
  have fuses' : progFuse fuse indexed cg = some state := fuses
  have exports' : exportCommandGraph state.cg state.heap graph =
      some after := exports
  simp only [optimizeProgFuse, imports, Option.bind_eq_bind, Option.bind_some,
    fuses', exports', Option.pure_def]

/-! ## Agreement -/

/-- Two heaps in which the same runs of programs are fused hold one graph. -/
theorem sameGraph_of_fusedAll {fuse : List CommandProg → CommandProg}
    {heap : Heap} {graph : GraphId} (formed : heap.WellFormed graph)
    (ends : ControlEnds heap graph) {first second : Heap}
    {fused fused' : List (List NodeId)}
    (all : FusedAll fuse heap graph first fused)
    (all' : FusedAll fuse heap graph second fused') :
    SameGraph graph first second := by
  apply SameGraph.of_represents all.represents all'.represents
    (all.entry_live formed ends) (all.from_entry formed ends)
    (all.graph_eq.1.trans all'.graph_eq.1.symm)
    (all.graph_eq.2.trans all'.graph_eq.2.symm)
  intro n live
  obtain ⟨type, device⟩ := all.kept n
  obtain ⟨type', device'⟩ := all'.kept n
  refine ⟨type.trans type'.symm, device.trans device'.symm, ?_⟩
  rw [all.command_eq n live.1, all'.command_eq n live.1]

/--
Import, the pass of the dialect and export make the graph that the legacy pass
makes.
-/
theorem optimizeProgFuse_agrees (fuse : List CommandProg → CommandProg)
    {heap : Heap} {graph : GraphId} (formed : heap.WellFormed graph)
    (ready : heap.WalkReady graph) (plain : Plain heap graph) :
    ∃ legacy fused result fused',
      Pass.ProgFuse.passProgFuse fuse heap graph = some (legacy, fused) ∧
        optimizeProgFuse fuse heap graph = some (result, fused') ∧
          SameGraph graph legacy result := by
  have ends : ControlEnds heap graph :=
    { entry_empty := plain.entry_empty, exit_empty := plain.exit_empty }
  obtain ⟨legacy, fused, ran, all⟩ :=
    passProgFuse_spec fuse formed ready ends
  obtain ⟨result, fused', ran', all'⟩ :=
    optimizeProgFuse_spec fuse formed ready plain
  exact
    ⟨legacy, fused, result, fused', ran, ran',
      sameGraph_of_fusedAll formed ends all all'⟩

end Cgir.Mlir.ProgFuse
