import Cgir.Library.Follow
import Cgir.Model.Adjacency

/-!
# Chains of programs

The tests of the prog-fuse passes, and the chains of LLVM-IR programs in series
that they define on a graph.  Every node of a chain belongs to the chain of one
head, so that the chains partition the nodes of the graph.
-/

namespace Cgir.Pass.ProgFuse

open Relation
open Cgir.Library
open Cgir.Model

/-! ## The tests -/

/-- The program of a node for which `node_is_llvmir_prog` holds. -/
def llvmirProg (node : CommandGraphNode) : Option CommandProg :=
  match node.type, node.command with
  | .command, some (.prog prog) =>
      if prog.source.type = .llvmir ∧ prog.source.raw.isSome then some prog
      else none
  | _, _ => none

/-- `command_prog_launch_params_equal`. -/
def commandProgLaunchParamsEqual (a b : CommandProg) : Bool :=
  a.launchMode = b.launchMode &&
    (a.grid.x = b.grid.x && a.grid.y = b.grid.y && a.grid.z = b.grid.z) &&
    (a.block.x = b.block.x && a.block.y = b.block.y && a.block.z = b.block.z)

/-- `are_sequence`. -/
def areSequence (heap : Heap) (u v : NodeId) : Bool :=
  heap.successors u = [v] && heap.predecessors v = [u]

/-- The node that the loop appends to a chain with the given head program. -/
def nextOf (heap : Heap) (head : CommandProg) (cur : NodeId) :
    Option NodeId :=
  match heap.successors cur with
  | [w] =>
      match llvmirProg (heap.nodes w) with
      | some prog =>
          if areSequence heap cur w &&
              commandProgLaunchParamsEqual head prog then
            some w
          else none
      | none => none
  | _ => none

/-! ## Chains -/

/-- The next program of a chain, by its own launch parameters. -/
def fuseNext (heap : Heap) (u : NodeId) : Option NodeId :=
  (llvmirProg (heap.nodes u)).bind fun prog => nextOf heap prog u

/-- The previous program of a chain. -/
def fusePrev (heap : Heap) (v : NodeId) : Option NodeId :=
  match heap.predecessors v with
  | [u] => if fuseNext heap u = some v then some u else none
  | _ => none

/-- The members of the chain from a node on. -/
def chainOf (heap : Heap) (u : NodeId) : List NodeId :=
  (follow (fuseNext heap) (heap.nodeCount + 1) u).getD [u]

/-- The first member of the chain through a node. -/
def headOf (heap : Heap) (v : NodeId) : NodeId :=
  ((follow (fusePrev heap) (heap.nodeCount + 1) v).getD [v]).getLastD v

/-- The programs of the members of a chain. -/
def progsOf (heap : Heap) (chain : List NodeId) : List CommandProg :=
  chain.filterMap fun c => llvmirProg (heap.nodes c)

/-- An LLVM-IR program is the command of a command node. -/
theorem command_of_llvmirProg {node : CommandGraphNode} {prog : CommandProg}
    (held : llvmirProg node = some prog) :
    node.type = .command ∧ node.command = some (.prog prog) := by
  unfold llvmirProg at held
  split at held
  · rename_i type command
    split at held
    · rw [type, command, Option.some.inj held]
      exact ⟨rfl, rfl⟩
    · cases held
  · cases held

theorem launchParamsEqual_iff (a b : CommandProg) :
    commandProgLaunchParamsEqual a b = true ↔
      (a.launchMode, a.grid, a.block) = (b.launchMode, b.grid, b.block) := by
  obtain ⟨-, -, -, -, -, -, -, mode, ⟨_, _, _⟩, ⟨_, _, _⟩⟩ := a
  obtain ⟨-, -, -, -, -, -, -, mode', ⟨_, _, _⟩, ⟨_, _, _⟩⟩ := b
  simp [commandProgLaunchParamsEqual, and_assoc]

/-- Programs with equal launch parameters accept the same members. -/
theorem launchParamsEqual_congr {a b : CommandProg}
    (same : commandProgLaunchParamsEqual a b = true) :
    commandProgLaunchParamsEqual a = commandProgLaunchParamsEqual b := by
  funext c
  rw [Bool.eq_iff_iff, launchParamsEqual_iff, launchParamsEqual_iff,
    (launchParamsEqual_iff a b).mp same]

theorem areSequence_iff (heap : Heap) (u v : NodeId) :
    areSequence heap u v = true ↔
      heap.successors u = [v] ∧ heap.predecessors v = [u] := by
  simp [areSequence]

theorem nextOf_eq_some_iff {heap : Heap} {head : CommandProg}
    {cur w : NodeId} :
    nextOf heap head cur = some w ↔
      areSequence heap cur w = true ∧
        ∃ prog, llvmirProg (heap.nodes w) = some prog ∧
          commandProgLaunchParamsEqual head prog = true := by
  unfold nextOf
  constructor
  · intro found
    split at found
    · split at found
      · rename_i prog held
        split at found
        · rename_i tests
          rw [Bool.and_eq_true] at tests
          cases found
          exact ⟨tests.1, prog, held, tests.2⟩
        · cases found
      · cases found
    · cases found
  · rintro ⟨sequence, prog, held, launch⟩
    have only := ((areSequence_iff heap cur w).mp sequence).1
    simp [only, held, sequence, launch]

theorem fuseNext_eq_some_iff {heap : Heap} {u v : NodeId} :
    fuseNext heap u = some v ↔
      areSequence heap u v = true ∧
        ∃ prog prog', llvmirProg (heap.nodes u) = some prog ∧
          llvmirProg (heap.nodes v) = some prog' ∧
            commandProgLaunchParamsEqual prog prog' = true := by
  simp only [fuseNext, Option.bind_eq_some_iff, nextOf_eq_some_iff]
  constructor
  · rintro ⟨prog, held, sequence, prog', held', launch⟩
    exact ⟨sequence, prog, prog', held, held', launch⟩
  · rintro ⟨sequence, prog, prog', held, held', launch⟩
    exact ⟨prog, held, sequence, prog', held', launch⟩

theorem fusePrev_eq_some_iff {heap : Heap} {u v : NodeId} :
    fusePrev heap v = some u ↔ fuseNext heap u = some v := by
  constructor
  · intro found
    unfold fusePrev at found
    split at found
    · split at found
      · rename_i linked
        cases found
        exact linked
      · cases found
    · cases found
  · intro linked
    have only :=
      ((areSequence_iff heap u v).mp (fuseNext_eq_some_iff.mp linked).1).2
    simp [fusePrev, only, linked]

/-- A sequence of two live nodes is a sole edge. -/
theorem areSequence_iff_sole {heap : Heap} {live : NodeId → Prop}
    {edge : NodeId → NodeId → Prop}
    (represents : heap.Represents live edge) {u v : NodeId}
    (alive : live u) : areSequence heap u v = true ↔ Sole edge u v := by
  rw [areSequence_iff]
  constructor
  · rintro ⟨onlyNext, onlyPrev⟩
    have memNext := represents.mem_successors u alive
    rw [onlyNext] at memNext
    have step := (memNext v).mp List.mem_cons_self
    have memPrev := represents.mem_predecessors v (represents.inside u v step).2
    rw [onlyPrev] at memPrev
    exact {
      step := step
      only_next := fun other step =>
        List.mem_singleton.mp ((memNext other).mpr step)
      only_prev := fun other step =>
        List.mem_singleton.mp ((memPrev other).mpr step) }
  · intro sole
    have vAlive := (represents.inside u v sole.step).2
    constructor
    · apply List.perm_singleton.mp
      rw [List.perm_ext_iff_of_nodup (represents.successors_nodup u alive)
        (List.nodup_singleton v)]
      intro other
      rw [represents.mem_successors u alive, List.mem_singleton]
      exact ⟨sole.only_next other, fun same => same ▸ sole.step⟩
    · apply List.perm_singleton.mp
      rw [List.perm_ext_iff_of_nodup (represents.predecessors_nodup v vAlive)
        (List.nodup_singleton u)]
      intro other
      rw [represents.mem_predecessors v vAlive, List.mem_singleton]
      exact ⟨sole.only_prev other, fun same => same ▸ sole.step⟩

/-! ## Heads of chains -/

section Chains

variable {heap : Heap} {graph : GraphId} (formed : heap.WellFormed graph)

include formed

theorem sole_of_fuseNext {u v : NodeId} (reachable : heap.Reachable graph u)
    (linked : fuseNext heap u = some v) : Sole (heap.Link graph) u v :=
  (areSequence_iff_sole formed.represents reachable).mp
    (fuseNext_eq_some_iff.mp linked).1

theorem link_of_fusePrev {u v : NodeId} (reachable : heap.Reachable graph v)
    (linked : fusePrev heap v = some u) : heap.Link graph u v := by
  have sequence :=
    (fuseNext_eq_some_iff.mp (fusePrev_eq_some_iff.mp linked)).1
  have only := ((areSequence_iff heap u v).mp sequence).2
  exact
    (formed.mem_predecessors v reachable u).mp (only ▸ List.mem_cons_self)

theorem links_of_steps {u v : NodeId} (reachable : heap.Reachable graph u)
    (path : ReflTransGen (Steps (fuseNext heap)) u v) :
    ReflTransGen (heap.Link graph) u v := by
  induction path with
  | refl => exact ReflTransGen.refl
  | tail _ step induction =>
      have between := Heap.reachable_of_links reachable induction
      exact induction.tail (sole_of_fuseNext formed between step).step

/-- The walk that collects a chain returns. -/
theorem chainOf_ran {u : NodeId} (reachable : heap.Reachable graph u) :
    follow (fuseNext heap) (heap.nodeCount + 1) u =
      some (chainOf heap u) := by
  obtain ⟨domain, memIff, small⟩ :=
    Heap.exists_domain formed.allocated
  obtain ⟨rank, bound, decreases⟩ :=
    formed.acyclic.exists_rank_le domain fun source target link =>
      (memIff target).mpr link.reachable
  obtain ⟨met, ran⟩ :=
    follow_returns (heap.Reachable graph) rank
      (by
        intro source target member step
        have link := (sole_of_fuseNext formed member step).step
        exact ⟨link.reachable, decreases source target link⟩)
      (heap.nodeCount + 1) u reachable
      (Nat.lt_succ_of_le ((bound u).trans small))
  rw [chainOf, ran]
  rfl

theorem mem_chainOf_iff {u : NodeId} (reachable : heap.Reachable graph u)
    (n : NodeId) :
    n ∈ chainOf heap u ↔ ReflTransGen (Steps (fuseNext heap)) u n :=
  mem_follow_iff _ (chainOf_ran formed reachable) n

/-- A chain is a straight path of the graph. -/
theorem chainOf_straight {u : NodeId} (reachable : heap.Reachable graph u) :
    ∃ last, StraightPath (heap.Link graph) u last (chainOf heap u) ∧
      fuseNext heap last = none := by
  have ran := chainOf_ran formed reachable
  obtain ⟨last, path⟩ :=
    follow_straight _ ran
      (by
        intro source listed target step
        have path := (mem_chainOf_iff formed reachable source).mp listed
        exact
          sole_of_fuseNext formed
            (Heap.reachable_of_links reachable
              (links_of_steps formed reachable path)) step)
  obtain ⟨final, isLast, ends⟩ := follow_ends _ ran
  rw [path.getLast?, Option.some.injEq] at isLast
  exact ⟨last, path, isLast ▸ ends⟩

/-- The head of a chain is reached backwards, and nothing precedes it. -/
theorem headOf_spec {v : NodeId} (reachable : heap.Reachable graph v) :
    ReflTransGen (Steps (fusePrev heap)) v (headOf heap v) ∧
      fusePrev heap (headOf heap v) = none := by
  obtain ⟨domain, memIff, small⟩ :=
    Heap.exists_domain formed.allocated
  obtain ⟨rank, bound, decreases⟩ :=
    formed.acyclic.reverse.exists_rank_le domain fun source target link =>
      (memIff target).mpr link.1
  obtain ⟨met, ran⟩ :=
    follow_returns (heap.Reachable graph) rank
      (by
        intro source target member step
        have link := link_of_fusePrev formed member step
        exact ⟨link.1, decreases source target link⟩)
      (heap.nodeCount + 1) v reachable
      (Nat.lt_succ_of_le ((bound v).trans small))
  obtain ⟨last, isLast, ends⟩ := follow_ends _ ran
  have isHead : headOf heap v = last := by
    rw [headOf, ran, Option.getD_some, List.getLastD_eq_getLast?, isLast]
    rfl
  rw [isHead]
  exact
    ⟨(mem_follow_iff _ ran last).mp (List.mem_of_getLast? isLast), ends⟩

theorem headOf_reachable {v : NodeId} (reachable : heap.Reachable graph v) :
    heap.Reachable graph (headOf heap v) := by
  have path := (headOf_spec formed reachable).1
  generalize headOf heap v = head at path ⊢
  induction path with
  | refl => exact reachable
  | tail _ step before => exact (link_of_fusePrev formed before step).1

/-- A chain leads from its head to each of its members. -/
theorem steps_headOf {v : NodeId} (reachable : heap.Reachable graph v) :
    ReflTransGen (Steps (fuseNext heap)) (headOf heap v) v := by
  have path := (headOf_spec formed reachable).1
  generalize headOf heap v = head at path ⊢
  induction path with
  | refl => exact ReflTransGen.refl
  | tail _ step induction =>
      exact ReflTransGen.head (fusePrev_eq_some_iff.mp step) induction

theorem headOf_of_fuseNext {u v : NodeId}
    (reachable : heap.Reachable graph u)
    (linked : fuseNext heap u = some v) :
    headOf heap v = headOf heap u := by
  have vReachable := (sole_of_fuseNext formed reachable linked).step.reachable
  obtain ⟨toHead, ends⟩ := headOf_spec formed vReachable
  obtain ⟨toHead', ends'⟩ := headOf_spec formed reachable
  exact
    steps_end_unique toHead
      (ReflTransGen.head (fusePrev_eq_some_iff.mpr linked) toHead') ends ends'

theorem headOf_of_steps {u v : NodeId} (reachable : heap.Reachable graph u)
    (path : ReflTransGen (Steps (fuseNext heap)) u v) :
    headOf heap v = headOf heap u := by
  induction path with
  | refl => rfl
  | tail before step induction =>
      have between :=
        Heap.reachable_of_links reachable
          (links_of_steps formed reachable before)
      exact (headOf_of_fuseNext formed between step).trans induction

theorem headOf_headOf {v : NodeId} (reachable : heap.Reachable graph v) :
    headOf heap (headOf heap v) = headOf heap v :=
  (headOf_of_steps formed (headOf_reachable formed reachable)
    (steps_headOf formed reachable)).symm

theorem headOf_eq_self_iff {v : NodeId}
    (reachable : heap.Reachable graph v) :
    headOf heap v = v ↔ fusePrev heap v = none := by
  obtain ⟨toHead, ends⟩ := headOf_spec formed reachable
  constructor
  · intro same
    rw [← same]
    exact ends
  · intro first
    exact steps_end_unique toHead ReflTransGen.refl ends first

/-- The chain of a head holds the nodes with this head. -/
theorem mem_chainOf_headOf {u : NodeId} (reachable : heap.Reachable graph u)
    (isHead : headOf heap u = u) {n : NodeId}
    (member : heap.Reachable graph n) :
    n ∈ chainOf heap u ↔ headOf heap n = u := by
  rw [mem_chainOf_iff formed reachable]
  constructor
  · intro path
    rw [headOf_of_steps formed reachable path, isHead]
  · rintro rfl
    exact steps_headOf formed member

theorem reachable_of_mem_chainOf {u n : NodeId}
    (reachable : heap.Reachable graph u) (member : n ∈ chainOf heap u) :
    heap.Reachable graph n :=
  Heap.reachable_of_links reachable
    (links_of_steps formed reachable
      ((mem_chainOf_iff formed reachable n).mp member))

end Chains

/-! ## Chains contracted so far -/

/-- The node that stands for a node once the chains of the given heads are fused. -/
def holderAt (heap : Heap) (done : List NodeId) (n : NodeId) : NodeId :=
  if headOf heap n ∈ done then headOf heap n else n

/--
The nodes done so far contain, with a node, the program that it follows in
sequence.
-/
def Closed (heap : Heap) (graph : GraphId) (done : List NodeId) : Prop :=
  ∀ w ∈ done, heap.Reachable graph w → ∀ p, Sole (heap.Link graph) p w →
    (llvmirProg (heap.nodes p)).isSome → p ∈ done

section Holders

variable {heap : Heap} {graph : GraphId} {done : List NodeId}

theorem holderAt_cases (heap : Heap) (done : List NodeId) (n : NodeId) :
    holderAt heap done n = n ∨
      (headOf heap n ∈ done ∧ holderAt heap done n = headOf heap n) := by
  unfold holderAt
  split
  · rename_i member
    exact Or.inr ⟨member, rfl⟩
  · exact Or.inl rfl

theorem holderAt_of_fresh {n : NodeId} (fresh : headOf heap n ∉ done) :
    holderAt heap done n = n :=
  if_neg fresh

/-- A node belongs to the chains done once its head does, not before. -/
theorem Closed.head_mem (closed : Closed heap graph done)
    (formed : heap.WellFormed graph) {n : NodeId}
    (reachable : heap.Reachable graph n) (member : n ∈ done) :
    headOf heap n ∈ done := by
  have path := (headOf_spec formed reachable).1
  have onWay : ∀ {last}, ReflTransGen (Steps (fusePrev heap)) n last →
      heap.Reachable graph last ∧ last ∈ done := by
    intro last path
    induction path with
    | refl => exact ⟨reachable, member⟩
    | @tail middle last _ step induction =>
        have link := link_of_fusePrev formed induction.1 step
        have linked := fusePrev_eq_some_iff.mp step
        obtain ⟨-, prog, -, held, -⟩ := fuseNext_eq_some_iff.mp linked
        exact
          ⟨link.1,
            closed middle induction.2 induction.1 last
              (sole_of_fuseNext formed link.1 linked) (by simp [held])⟩
  exact (onWay path).2

variable (formed : heap.WellFormed graph) (closed : Closed heap graph done)

include formed closed

theorem not_mem_of_head_fresh {n : NodeId}
    (reachable : heap.Reachable graph n) (fresh : headOf heap n ∉ done) :
    n ∉ done :=
  fun member => fresh (closed.head_mem formed reachable member)

/-- A node whose chain is not done stands for itself only. -/
theorem eq_of_holderAt_eq {a n : NodeId}
    (reachable : heap.Reachable graph n) (fresh : headOf heap n ∉ done)
    (same : holderAt heap done a = n) : a = n := by
  rcases holderAt_cases heap done a with alone | ⟨member, moved⟩
  · exact alone.symm.trans same
  · rw [moved] at same
    exact
      (not_mem_of_head_fresh formed closed reachable fresh
        (same ▸ member)).elim

omit closed in
/-- What a program of a chain that is not done leads to stands for itself. -/
theorem holderAt_next {cur b : NodeId} (reachable : heap.Reachable graph cur)
    (fresh : headOf heap cur ∉ done) (link : heap.Link graph cur b) :
    holderAt heap done b = b := by
  rcases holderAt_cases heap done b with alone | ⟨member, moved⟩
  · exact alone
  · rcases ReflTransGen.cases_head
      (headOf_spec formed link.reachable).1 with same | ⟨p, step, _⟩
    · rw [moved, ← same]
    · -- The node follows a program of its chain, which can only be `cur`.
      have linked := fusePrev_eq_some_iff.mp step
      have pLink := link_of_fusePrev formed link.reachable step
      have sole := sole_of_fuseNext formed pLink.1 linked
      have same := sole.only_prev cur link
      subst same
      rw [headOf_of_fuseNext formed reachable linked] at member
      exact (fresh member).elim

/--
On a program whose chain is not done, contraction of the others neither makes
nor breaks a sequence.
-/
theorem sole_contract_iff {cur w : NodeId}
    (reachable : heap.Reachable graph cur)
    (fresh : headOf heap cur ∉ done)
    (isProg : (llvmirProg (heap.nodes cur)).isSome) :
    Sole (Digraph.Contract (heap.Link graph) (holderAt heap done)) cur w ↔
      Sole (heap.Link graph) cur w := by
  have curSelf : holderAt heap done cur = cur := holderAt_of_fresh fresh
  have contracted : ∀ {b}, heap.Link graph cur b →
      Digraph.Contract (heap.Link graph) (holderAt heap done) cur b := by
    intro b link
    refine
      ⟨?_, cur, b, link, curSelf,
        holderAt_next formed reachable fresh link⟩
    rintro rfl
    exact formed.acyclic cur (TransGen.single link)
  constructor
  · intro sole
    obtain ⟨apart, a, b, link, aEq, bEq⟩ := sole.step
    have aSame := eq_of_holderAt_eq formed closed reachable fresh aEq
    subst aSame
    have bSelf := holderAt_next formed reachable fresh link
    have bSame : b = w := bSelf.symm.trans bEq
    subst bSame
    exact {
      step := link
      only_next := fun other step => sole.only_next other (contracted step)
      only_prev := by
        intro other step
        have apart' : holderAt heap done other ≠ b := by
          intro same
          rcases holderAt_cases heap done other with alone | ⟨_, moved⟩
          · rw [alone] at same
            subst same
            exact formed.acyclic other (TransGen.single step)
          · -- An earlier member of the chain of `b` would close a cycle.
            have path :=
              links_of_steps formed (headOf_reachable formed step.1)
                (steps_headOf formed step.1)
            rw [← moved, same] at path
            exact formed.acyclic b (TransGen.tail' path step)
        have same :=
          sole.only_prev _ ⟨apart', other, b, step, rfl, bSelf⟩
        exact eq_of_holderAt_eq formed closed reachable fresh same }
  · intro sole
    exact {
      step := contracted sole.step
      only_next := by
        rintro other ⟨_, a, b, link, aEq, rfl⟩
        have same := eq_of_holderAt_eq formed closed reachable fresh aEq
        subst same
        rw [holderAt_next formed reachable fresh link]
        exact sole.only_next b link
      only_prev := by
        rintro other ⟨_, a, b, link, rfl, bEq⟩
        have bSame : b = w := by
          rcases holderAt_cases heap done b with alone | ⟨member, moved⟩
          · exact alone.symm.trans bEq
          · -- `w` would be done, and so would the program it follows.
            rw [← moved, bEq] at member
            have curDone :=
              closed w member sole.step.reachable cur sole isProg
            exact
              (not_mem_of_head_fresh formed closed reachable fresh
                curDone).elim
        subst bSame
        rw [sole.only_prev a link, curSelf] }

end Holders

end Cgir.Pass.ProgFuse
