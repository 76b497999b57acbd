import Cgir.Pass.ProgChains

/-!
# The fused graph

What both prog-fuse passes make of a graph: every chain of two or more programs
is contracted into its head, which runs the fusion of their programs.
`Progress` describes the nodes once some heads are done; the edges are those of
the contraction of the graph by `holderAt`.
-/

namespace Cgir.Pass.ProgFuse

open Relation
open Cgir.Library
open Cgir.Model

variable (fuse : List CommandProg → CommandProg)

/-- The command of a head once its chain is fused. -/
def fusedCommand (heap : Heap) (u : NodeId) : Option Command :=
  if (chainOf heap u).length < 2 then (heap.nodes u).command
  else some (.prog (fuse (progsOf heap (chainOf heap u))))

/-- The command of a node once the chains of the given heads are fused. -/
def commandAt (heap : Heap) (done : List NodeId) (n : NodeId) :
    Option Command :=
  if n ∈ done ∧ headOf heap n = n then fusedCommand fuse heap n
  else (heap.nodes n).command

/-- A heap with the commands of the fused chains. -/
def recommanded (heap : Heap) (done : List NodeId) : Heap :=
  { heap with
    nodes := fun n =>
      { heap.nodes n with command := commandAt fuse heap done n } }

/-- The heap and the fused chains, once the given nodes are done. -/
structure Progress (orig : Heap) (graph : GraphId) (done : List NodeId)
    (heap : Heap) (fused : List (List NodeId)) : Prop where
  reachable : ∀ n ∈ done, orig.Reachable graph n
  closed : Closed orig graph done
  unlinked_eq : heap.unlinked = (recommanded fuse orig done).unlinked
  mem_fused : ∀ chain, chain ∈ fused ↔ ∃ u ∈ done, headOf orig u = u ∧
    2 ≤ (chainOf orig u).length ∧ chain = chainOf orig u

section Lemmas

variable {fuse} {orig : Heap} {graph : GraphId} {done : List NodeId}
  {u : NodeId}

/-- A chain starts at its node. -/
theorem chainOf_cons (formed : orig.WellFormed graph)
    (reachable : orig.Reachable graph u) :
    ∃ rest, chainOf orig u = u :: rest :=
  follow_head? (chainOf_ran formed reachable)

theorem holderAt_concat (n : NodeId) :
    holderAt orig (done ++ [u]) n =
      if headOf orig n = u then u else holderAt orig done n := by
  unfold holderAt
  by_cases isHead : headOf orig n = u
  · simp [isHead]
  · simp [isHead]

/-- A node that is no head stands for nothing. -/
theorem holderAt_concat_inner (formed : orig.WellFormed graph)
    (inner : headOf orig u ≠ u) {n : NodeId}
    (reachable : orig.Reachable graph n) :
    holderAt orig (done ++ [u]) n = holderAt orig done n := by
  rw [holderAt_concat, if_neg]
  rintro rfl
  exact inner (headOf_headOf formed reachable)

/-- A chain of one program changes nothing. -/
theorem holderAt_concat_single (formed : orig.WellFormed graph)
    (uReachable : orig.Reachable graph u) (fresh : u ∉ done)
    (short : (chainOf orig u).length < 2) {n : NodeId}
    (reachable : orig.Reachable graph n) :
    holderAt orig (done ++ [u]) n = holderAt orig done n := by
  rw [holderAt_concat]
  split
  · rename_i isHead
    obtain ⟨rest, chainEq⟩ := chainOf_cons formed uReachable
    have uHead : headOf orig u = u := by
      rw [← isHead]
      exact headOf_headOf formed reachable
    have member :=
      (mem_chainOf_headOf formed uReachable uHead reachable).mpr isHead
    have alone : rest = [] := by
      rw [chainEq, List.length_cons] at short
      exact List.eq_nil_of_length_eq_zero (by omega)
    rw [chainEq, alone, List.mem_singleton] at member
    subst member
    rw [holderAt_of_fresh (by rwa [uHead])]
  · rfl

/-- The other members of the chain move to its head. -/
theorem holderAt_concat_head (formed : orig.WellFormed graph)
    (uReachable : orig.Reachable graph u) (isHead : headOf orig u = u)
    (fresh : u ∉ done) {rest : List NodeId}
    (chainEq : chainOf orig u = u :: rest) {n : NodeId}
    (reachable : orig.Reachable graph n) :
    holderAt orig (done ++ [u]) n =
      if n ∈ rest then u else holderAt orig done n := by
  have memIff := mem_chainOf_headOf formed uReachable isHead reachable
  rw [chainEq, List.mem_cons] at memIff
  rw [holderAt_concat]
  by_cases inside : n ∈ rest
  · rw [if_pos inside, if_pos (memIff.mp (Or.inr inside))]
  · rw [if_neg inside]
    split
    · rename_i same
      rcases memIff.mpr same with rfl | member
      · exact (holderAt_of_fresh (by rwa [isHead])).symm
      · exact (inside member).elim
    · rfl

theorem Closed.concat (closed : Closed orig graph done)
    (known : ∀ p, Sole (orig.Link graph) p u →
      (llvmirProg (orig.nodes p)).isSome → p ∈ done) :
    Closed orig graph (done ++ [u]) := by
  intro w member reachable p sole isProg
  rcases List.mem_append.mp member with earlier | isLast
  · exact
      List.mem_append_left _ (closed w earlier reachable p sole isProg)
  · rw [List.mem_singleton] at isLast
    subst isLast
    exact List.mem_append_left _ (known p sole isProg)

theorem commandAt_concat_ne {n : NodeId} (different : n ≠ u) :
    commandAt fuse orig (done ++ [u]) n = commandAt fuse orig done n := by
  simp [commandAt, different]

/-- Only a head with a longer chain gets another command. -/
theorem recommanded_concat (fresh : u ∉ done)
    (same : headOf orig u = u → (chainOf orig u).length < 2) :
    recommanded fuse orig (done ++ [u]) = recommanded fuse orig done := by
  unfold recommanded
  congr 1
  funext n
  by_cases isLast : n = u
  · subst isLast
    have before : commandAt fuse orig done n = (orig.nodes n).command := by
      simp [commandAt, fresh]
    have after : commandAt fuse orig (done ++ [n]) n =
        (orig.nodes n).command := by
      unfold commandAt
      split
      · rename_i isHead
        rw [fusedCommand, if_pos (same isHead.2)]
      · rfl
    rw [before, after]
  · rw [commandAt_concat_ne isLast]

/-- Setting the fused command of a head. -/
theorem setCommand_recommanded {heap : Heap}
    (unlinked : heap.unlinked = (recommanded fuse orig done).unlinked)
    (isHead : headOf orig u = u) (long : 2 ≤ (chainOf orig u).length) :
    (heap.setCommand u
        (.prog (fuse (progsOf orig (chainOf orig u))))).unlinked =
      (recommanded fuse orig (done ++ [u])).unlinked := by
  have nodesEq : ∀ n, ((heap.setCommand u
      (.prog (fuse (progsOf orig (chainOf orig u))))).nodes n).unlinked =
        ((recommanded fuse orig (done ++ [u])).nodes n).unlinked := by
    intro n
    have same := Heap.unlinked_nodes unlinked n
    by_cases isLast : n = u
    · subst isLast
      have command : commandAt fuse orig (done ++ [n]) n =
          some (.prog (fuse (progsOf orig (chainOf orig n)))) := by
        rw [commandAt, if_pos ⟨by simp, isHead⟩, fusedCommand,
          if_neg (Nat.not_lt.mpr long)]
      simp only [Heap.setCommand, Heap.updateNode_nodes, if_pos, recommanded,
        command, CommandGraphNode.unlinked, CommandGraphNode.mk.injEq] at same ⊢
      simp_all
    · simp only [Heap.setCommand, Heap.updateNode_nodes, if_neg isLast]
      rw [same]
      simp only [recommanded, commandAt_concat_ne isLast]
  have countEq := Heap.unlinked_nodeCount unlinked
  have graphsEq := Heap.unlinked_graphs unlinked
  have graphCountEq := Heap.unlinked_graphCount unlinked
  unfold Heap.unlinked
  rw [Heap.mk.injEq]
  exact ⟨funext nodesEq, countEq, graphsEq, graphCountEq⟩

namespace Progress

variable {heap : Heap} {fused : List (List NodeId)}

/-- A node that is not done still has its program. -/
theorem llvmirProg_eq (progress : Progress fuse orig graph done heap fused)
    {n : NodeId} (fresh : n ∉ done) :
    llvmirProg (heap.nodes n) = llvmirProg (orig.nodes n) := by
  have type := Heap.unlinked_type progress.unlinked_eq n
  have command := Heap.unlinked_command progress.unlinked_eq n
  have kept : commandAt fuse orig done n = (orig.nodes n).command := by
    simp [commandAt, fresh]
  unfold llvmirProg
  rw [type, command]
  simp only [recommanded, kept]

theorem nodeCount_eq (progress : Progress fuse orig graph done heap fused) :
    heap.nodeCount = orig.nodeCount :=
  (Heap.unlinked_nodeCount progress.unlinked_eq).trans rfl

/-- A node that is no head of a longer chain is passed over. -/
theorem skip (progress : Progress fuse orig graph done heap fused)
    (reachable : orig.Reachable graph u) (fresh : u ∉ done)
    (known : ∀ p, Sole (orig.Link graph) p u →
      (llvmirProg (orig.nodes p)).isSome → p ∈ done)
    (short : headOf orig u = u → (chainOf orig u).length < 2) :
    Progress fuse orig graph (done ++ [u]) heap fused where
  reachable := by
    intro n member
    rcases List.mem_append.mp member with earlier | isLast
    · exact progress.reachable n earlier
    · exact List.mem_singleton.mp isLast ▸ reachable
  closed := progress.closed.concat known
  unlinked_eq := by
    rw [recommanded_concat fresh short]
    exact progress.unlinked_eq
  mem_fused := by
    intro chain
    rw [progress.mem_fused]
    constructor
    · rintro ⟨head, member, rest⟩
      exact ⟨head, List.mem_append_left _ member, rest⟩
    · rintro ⟨head, member, isHead, long, chainEq⟩
      rcases List.mem_append.mp member with earlier | isLast
      · exact ⟨head, earlier, isHead, long, chainEq⟩
      · rw [List.mem_singleton] at isLast
        subst isLast
        exact absurd (short isHead) (Nat.not_lt.mpr long)

/-- A head with a longer chain gets the fused program. -/
theorem fuseHead (progress : Progress fuse orig graph done heap fused)
    (reachable : orig.Reachable graph u)
    (known : ∀ p, Sole (orig.Link graph) p u →
      (llvmirProg (orig.nodes p)).isSome → p ∈ done)
    (isHead : headOf orig u = u) (long : 2 ≤ (chainOf orig u).length)
    {heap' : Heap}
    (unlinked : heap'.unlinked = (heap.setCommand u
      (.prog (fuse (progsOf orig (chainOf orig u))))).unlinked) :
    Progress fuse orig graph (done ++ [u]) heap'
      (fused ++ [chainOf orig u]) where
  reachable := by
    intro n member
    rcases List.mem_append.mp member with earlier | isLast
    · exact progress.reachable n earlier
    · exact List.mem_singleton.mp isLast ▸ reachable
  closed := progress.closed.concat known
  unlinked_eq :=
    unlinked.trans (setCommand_recommanded progress.unlinked_eq isHead long)
  mem_fused := by
    intro chain
    rw [List.mem_append, progress.mem_fused, List.mem_singleton]
    constructor
    · rintro (⟨head, member, rest⟩ | rfl)
      · exact ⟨head, List.mem_append_left _ member, rest⟩
      · exact ⟨u, by simp, isHead, long, rfl⟩
    · rintro ⟨head, member, isHead', long', chainEq⟩
      rcases List.mem_append.mp member with earlier | isLast
      · exact Or.inl ⟨head, earlier, isHead', long', chainEq⟩
      · rw [List.mem_singleton] at isLast
        exact Or.inr (isLast ▸ chainEq)

end Progress

/-! ## The edges -/

/-- The edges of the contraction of the chains done so far. -/
abbrev EdgeAt (orig : Heap) (graph : GraphId) (done : List NodeId) :
    NodeId → NodeId → Prop :=
  Digraph.Contract (orig.Link graph) (holderAt orig done)

/-- The nodes that stand for themselves. -/
def LiveAt (orig : Heap) (graph : GraphId) (done : List NodeId)
    (n : NodeId) : Prop :=
  orig.Reachable graph n ∧ holderAt orig done n = n

/-- Passing over a node moves no node. -/
theorem holderAt_skip (formed : orig.WellFormed graph)
    (reachable : orig.Reachable graph u) (fresh : u ∉ done)
    (short : headOf orig u = u → (chainOf orig u).length < 2) {n : NodeId}
    (nReachable : orig.Reachable graph n) :
    holderAt orig (done ++ [u]) n = holderAt orig done n := by
  by_cases isHead : headOf orig u = u
  · exact
      holderAt_concat_single formed reachable fresh (short isHead) nReachable
  · exact holderAt_concat_inner formed isHead nReachable

/-- Passing over a node keeps the edges. -/
theorem edgeAt_skip (formed : orig.WellFormed graph)
    (reachable : orig.Reachable graph u) (fresh : u ∉ done)
    (short : headOf orig u = u → (chainOf orig u).length < 2) :
    (∀ source target, EdgeAt orig graph (done ++ [u]) source target ↔
        EdgeAt orig graph done source target) ∧
      ∀ n, LiveAt orig graph (done ++ [u]) n ↔ LiveAt orig graph done n := by
  constructor
  · apply Digraph.contract_congr
    intro source target link
    exact
      ⟨holderAt_skip formed reachable fresh short link.1,
        holderAt_skip formed reachable fresh short link.reachable⟩
  · intro n
    apply and_congr_right
    intro nReachable
    rw [holderAt_skip formed reachable fresh short nReachable]

/-- The chain of a head that is not done. -/
structure FreshChain (orig : Heap) (graph : GraphId) (done : List NodeId)
    (u last : NodeId) (rest : List NodeId) : Prop where
  path : StraightPath (orig.Link graph) u last (u :: rest)
  nodup : (u :: rest).Nodup
  self : ∀ n ∈ u :: rest, holderAt orig done n = n
  alone : ∀ n, holderAt orig done n ∈ u :: rest → holderAt orig done n = n
  sequence : List.IsChain (Sole (EdgeAt orig graph done)) (u :: rest)
  fresh : ∀ n ∈ u :: rest, n ∉ done

/-- In a chain that is not done, every member is as it was. -/
theorem freshChain (formed : orig.WellFormed graph)
    (closed : Closed orig graph done)
    (reachable : orig.Reachable graph u) (isHead : headOf orig u = u)
    (fresh : u ∉ done) {rest : List NodeId}
    (chainEq : chainOf orig u = u :: rest) :
    ∃ last, FreshChain orig graph done u last rest := by
  obtain ⟨last, path, -⟩ := chainOf_straight formed reachable
  rw [chainEq] at path
  have member : ∀ {n}, n ∈ u :: rest →
      orig.Reachable graph n ∧ headOf orig n ∉ done := by
    intro n inside
    rw [← chainEq] at inside
    have nReachable := reachable_of_mem_chainOf formed reachable inside
    rw [mem_chainOf_headOf formed reachable isHead nReachable] at inside
    exact ⟨nReachable, inside ▸ fresh⟩
  refine ⟨last, ?_⟩
  exact {
    path := path
    nodup := path.nodup formed.acyclic
    self := fun n inside => holderAt_of_fresh (member inside).2
    alone := by
      intro n inside
      obtain ⟨nReachable, nFresh⟩ := member inside
      exact
        (eq_of_holderAt_eq formed closed nReachable nFresh rfl).symm
    sequence := by
      have steps := follow_isChain _ (chainOf_ran formed reachable)
      rw [chainEq] at steps
      refine List.IsChain.imp_of_mem_imp ?_ steps
      intro source target sourceIn _ step
      obtain ⟨sourceReachable, sourceFresh⟩ := member sourceIn
      obtain ⟨-, prog, -, held, -⟩ := fuseNext_eq_some_iff.mp step
      exact
        (sole_contract_iff formed closed sourceReachable sourceFresh
          (by simp [held])).mpr
          (sole_of_fuseNext formed sourceReachable step)
    fresh := fun n inside =>
      not_mem_of_head_fresh formed closed (member inside).1
        (member inside).2 }

/-- Every member of a chain has a program with the launch parameters of the head. -/
theorem launch_of_mem_chainOf (formed : orig.WellFormed graph)
    (reachable : orig.Reachable graph u) {prog : CommandProg}
    (held : llvmirProg (orig.nodes u) = some prog) {n : NodeId}
    (member : n ∈ chainOf orig u) :
    ∃ prog', llvmirProg (orig.nodes n) = some prog' ∧
      commandProgLaunchParamsEqual prog = commandProgLaunchParamsEqual prog' := by
  have path := (mem_chainOf_iff formed reachable n).mp member
  clear member
  induction path with
  | refl => exact ⟨prog, held, rfl⟩
  | tail _ step induction =>
      obtain ⟨prog', held', same⟩ := induction
      obtain ⟨-, before, after, heldBefore, heldAfter, launch⟩ :=
        fuseNext_eq_some_iff.mp step
      rw [held', Option.some.injEq] at heldBefore
      subst heldBefore
      exact
        ⟨after, heldAfter, same.trans (launchParamsEqual_congr launch)⟩

/-- A program alone in its chain. -/
theorem chainOf_length_lt (formed : orig.WellFormed graph)
    (reachable : orig.Reachable graph u)
    (notProg : llvmirProg (orig.nodes u) = none) :
    (chainOf orig u).length < 2 := by
  have last : fuseNext orig u = none := by
    rw [fuseNext, notProg]
    rfl
  have ran := chainOf_ran formed reachable
  rw [follow, last, Option.some.injEq] at ran
  rw [← ran]
  exact Nat.one_lt_two

/-- Contracting a chain into its head. -/
theorem edgeAt_head (formed : orig.WellFormed graph)
    (reachable : orig.Reachable graph u) (isHead : headOf orig u = u)
    (fresh : u ∉ done) {last : NodeId} {rest : List NodeId}
    (chainEq : chainOf orig u = u :: rest)
    (chain : FreshChain orig graph done u last rest) :
    (∀ source target, EdgeAt orig graph (done ++ [u]) source target ↔
        source ∉ rest ∧ target ∉ rest ∧
          (EdgeAt orig graph done source target ∨
            (source = u ∧ EdgeAt orig graph done last target))) ∧
      ∀ n, LiveAt orig graph (done ++ [u]) n ↔
        LiveAt orig graph done n ∧ n ∉ rest := by
  have notRest : u ∉ rest := (List.nodup_cons.mp chain.nodup).1
  have moved : ∀ {n}, orig.Reachable graph n →
      holderAt orig (done ++ [u]) n =
        if n ∈ rest then u else holderAt orig done n :=
    holderAt_concat_head formed reachable isHead fresh chainEq
  constructor
  · intro source target
    refine
      (Digraph.contract_congr
        (fun source target link =>
          ⟨moved link.1, moved link.reachable⟩) source target).trans ?_
    exact
      chain.path.contract_absorb_iff formed.acyclic notRest chain.alone
        chain.self (fun _ => rfl) source target
  · intro n
    rw [LiveAt, LiveAt, and_assoc]
    apply and_congr_right
    intro nReachable
    rw [moved nReachable]
    by_cases inside : n ∈ rest
    · rw [if_pos inside]
      simp only [inside, not_true_eq_false, and_false, iff_false]
      rintro rfl
      exact notRest inside
    · rw [if_neg inside]
      simp [inside]

end Lemmas

end Cgir.Pass.ProgFuse
