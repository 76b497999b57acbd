import Cgir.Optimizer.Refinement
import Cgir.Pass.ReduceEdge

/-!
# The passes that refine

Five passes of the legacy optimizer, each with what it keeps of the outcomes of a
graph.  Two of them rewrite programs; what they rely on is `Lawful`, of the
programs and the runs of the graph that they are given.
-/

namespace Cgir.Optimizer

open Relation
open Cgir.Library
open Cgir.Mlir
open Cgir.Model
open Cgir.Pass.CopyNormalize
open Cgir.Pass.ProgFuse

/--
What a pass makes of the programs of a graph does what they do: every program that
it compiles on the device of its node, and every run that it fuses, on the device
of the first node, what the nodes of the run do one after another.
-/
structure Lawful {World : Type} (tools : Toolchain)
    (run : Effect (Memory × World)) (heap : Heap) (graph : GraphId)
    (pass : CommandGraphPass) : Prop where
  jit : pass = .jit → ∀ n prog, heap.Reachable graph n →
    llvmirProg (heap.nodes n) = some prog → ∀ first last,
      run (heap.nodes n).deviceUniqueId (.prog (tools.jit prog)) first last ↔
        run (heap.nodes n).deviceUniqueId (.prog prog) first last
  fuse : pass = .progFuse → ∀ chain u, MaximalRun heap graph chain →
    chain.head? = some u → ∀ first last,
      run (heap.nodes u).deviceUniqueId
          (.prog (tools.fuse (progsOf heap chain))) first last →
        Runs (performs run heap) chain first last

/-- Every pass of a run is lawful for the graph that it is given. -/
def LawfulSteps {World : Type} (tools : Toolchain)
    (run : Effect (Memory × World)) (graph : GraphId) :
    List (Kind × CommandGraphPass) → Heap → Prop
  | [], _ => True
  | step :: rest, heap =>
      Lawful tools run heap graph step.2 ∧
        ∀ after, commandGraphOptimize tools step.1 heap graph step.2 =
          some after → LawfulSteps tools run graph rest after

/-- What is lawful for all graphs is so for those of a run. -/
theorem LawfulSteps.of_all {World : Type} {tools : Toolchain}
    {run : Effect (Memory × World)} {graph : GraphId}
    (lawful : ∀ heap pass, Lawful tools run heap graph pass)
    (steps : List (Kind × CommandGraphPass)) (heap : Heap) :
    LawfulSteps tools run graph steps heap := by
  induction steps generalizing heap with
  | nil => trivial
  | cons step rest induction =>
      exact ⟨lawful heap step.2, fun after _ => induction after⟩

/-! ## A trace of functions -/

/-- Programs append the functions that they run to a trace. -/
def traced : Effect (Memory × List IrFunction)
  | _, .prog prog, before, after =>
      after.1 = before.1 ∧ after.2 = before.2 ++ functionsOf prog
  | _, _, before, after => after = before

/-- Programs that run one after another append their functions in order. -/
theorem runs_traced {heap : Heap} {chain : List NodeId}
    (programs : ∀ n ∈ chain, (llvmirProg (heap.nodes n)).isSome) :
    ∀ {first last : Memory × List IrFunction}, last.1 = first.1 →
      last.2 = first.2 ++ (progsOf heap chain).flatMap functionsOf →
        Runs (performs traced heap) chain first last := by
  induction chain with
  | nil =>
      intro first last memory trace
      rw [progsOf, List.filterMap_nil, List.flatMap_nil, List.append_nil]
        at trace
      exact Prod.ext memory trace
  | cons n rest induction =>
      intro first last memory trace
      obtain ⟨prog, held⟩ :=
        Option.isSome_iff_exists.mp (programs n List.mem_cons_self)
      obtain ⟨type, command⟩ := command_of_llvmirProg held
      have split : progsOf heap (n :: rest) = prog :: progsOf heap rest := by
        simp [progsOf, held]
      rw [split, List.flatMap_cons, ← List.append_assoc] at trace
      refine
        ⟨(first.1, first.2 ++ functionsOf prog), ?_,
          induction (fun m member => programs m (List.mem_cons_of_mem _ member))
            memory trace⟩
      exact (performs_command type command).mpr ⟨rfl, rfl⟩

theorem keeping_lawful (heap : Heap) (graph : GraphId)
    (pass : CommandGraphPass) : Lawful keeping traced heap graph pass where
  jit := fun _ _ _ _ _ _ _ => Iff.rfl
  fuse := fun _ _ _ maximal _ _ _ fused =>
    runs_traced (fun n member => (maximal.isRun.programs n member).2) fused.1
      fused.2

theorem keeping_lawfulSteps {graph : GraphId}
    (steps : List (Kind × CommandGraphPass)) (heap : Heap) :
    LawfulSteps keeping traced graph steps heap :=
  .of_all (fun heap => keeping_lawful heap graph) steps heap

section Passes

variable {World : Type} {run : Effect (Memory × World)} {heap : Heap}
  {graph : GraphId} (optimizable : Optimizable heap graph)

include optimizable

theorem passCopyNormalize_refines :
    ∃ after, passCopyNormalize heap graph = some after ∧
      Refines run graph heap after True := by
  have formed := optimizable.formed
  have commanded : Commanded heap graph := by
    intro n reachable type
    rcases (optimizable.executable n reachable).importable with
      empty | ⟨-, held⟩
    · rw [type] at empty
      cases empty
    · exact Option.isSome_iff_ne_none.mp held
  obtain ⟨indexed, nodes, same, -, -, ran⟩ :=
    passCopyNormalize_eq formed optimizable.ready commanded
  refine ⟨_, ran, Tracks.refines ?_ formed True⟩
  have links : Heap.SameLinks heap (normalizeOn indexed nodes) graph :=
    (Heap.SameLinks.of_unmarked same).trans {
      successors_eq := normalizeOn_successors nodes
      predecessors_eq := normalizeOn_predecessors nodes
      nodeCount_eq := rfl
      graphCount_eq := rfl
      entry_eq := rfl
      exit_eq := rfl }
  have typeEq : ∀ n, ((normalizeOn indexed nodes).nodes n).type =
      (heap.nodes n).type := fun n =>
    (normalizeOn_kept nodes n).1.trans (Heap.unmarked_type same n)
  have deviceEq : ∀ n, ((normalizeOn indexed nodes).nodes n).deviceUniqueId =
      (heap.nodes n).deviceUniqueId := fun n =>
    (normalizeOn_kept nodes n).2.1.trans
      (Heap.unmarked_deviceUniqueId same n)
  have commandEq : ∀ n, ((normalizeOn indexed nodes).nodes n).command =
      (heap.nodes n).command ∨
        (heap.nodes n).type = .command ∧
          ((normalizeOn indexed nodes).nodes n).command =
            (heap.nodes n).command.map normalizeCommand := by
    intro n
    rw [normalizeOn_command, Heap.unmarked_type same,
      Heap.unmarked_command same]
    split
    · rename_i both
      exact Or.inr ⟨both.2, rfl⟩
    · exact Or.inl rfl
  -- A command is left as it is, or it is a 2-D copy that is normalized.
  have cases : ∀ n, heap.Reachable graph n →
      ((normalizeOn indexed nodes).nodes n).command =
        (heap.nodes n).command ∨
      (heap.nodes n).type = .command ∧ ∃ direction copy, Fits copy ∧
        (heap.nodes n).command = some (.copy2D direction copy) ∧
          ((normalizeOn indexed nodes).nodes n).command =
            some (normalizeCommand (.copy2D direction copy)) := by
    intro n reachable
    rcases commandEq n with kept | ⟨type, mapped⟩
    · exact Or.inl kept
    · by_cases is2D : ∃ direction copy,
          (heap.nodes n).command = some (.copy2D direction copy)
      · obtain ⟨direction, copy, held⟩ := is2D
        have fits :=
          (optimizable.executable n reachable).fits direction copy held
        rw [held] at mapped
        exact Or.inr ⟨type, direction, copy, fits, held, mapped⟩
      · left
        rw [mapped]
        cases held : (heap.nodes n).command with
        | none => rfl
        | some command =>
            refine congrArg some (normalizeCommand_other ?_)
            rintro direction copy rfl
            exact is2D ⟨direction, copy, held⟩
  refine Tracks.of_sameLinks formed links ?_ ?_
  · intro n reachable
    rcases cases n reachable with
      kept | ⟨type, direction, copy, fits, held, mapped⟩
    · exact .of_eq (typeEq n) (deviceEq n) kept
    · obtain ⟨-, -, fits'⟩ := normalizeCommand_fits direction fits
      exact {
        type_eq := typeEq n
        device_eq := deviceEq n
        executable := by
          intro _
          constructor
          · right
            rw [typeEq, mapped]
            exact ⟨type, rfl⟩
          · intro direction' copy' same
            rw [mapped] at same
            exact fits' direction' copy' (Option.some.inj same)
        batch := by
          intro sub same
          rw [mapped, normalizeCommand_copy2D, Option.some.injEq] at same
          split at same <;> cases same }
  · intro n reachable first last
    rcases cases n reachable with
      kept | ⟨type, direction, copy, fits, held, mapped⟩
    · rw [performs_congr (typeEq n) (deviceEq n) kept]
    · obtain ⟨copies, transfers, -⟩ :=
        normalizeCommand_fits direction fits
      rw [performs_command ((typeEq n).trans type) mapped,
        performs_command type held, deviceEq]
      have copies' : (copyDirection (.copy2D direction copy)).isSome := rfl
      exact execute_congr copies copies' transfers

theorem passReduceNode_refines :
    ∃ after, Pass.ReduceNode.passReduceNode heap graph = some after ∧
      Refines run graph heap after True := by
  have formed := optimizable.formed
  obtain ⟨indexed, nodes, -, ran, same, -, nodup, memIff⟩ :=
    Pass.ReduceNode.exists_nodes formed optimizable.ready
  have inner : ∀ n ∈ nodes, Pass.ReduceNode.Inner indexed graph n := by
    intro n member
    rw [Pass.ReduceNode.inner_congr same]
    exact (memIff n).mp member
  have simplified :=
    (Pass.ReduceNode.Simplified.of_unmarked formed same).trans
      (Pass.ReduceNode.sweep_spec (formed.congr same) nodup inner).1
  refine ⟨_, ran, Tracks.refines ?_ formed True⟩
  exact {
    formed := simplified.formed
    remains := simplified.remains
    entry_eq := simplified.entry_eq
    exit_eq := simplified.exit_eq
    node := by
      intro n _
      obtain ⟨type, device, command⟩ := simplified.kept n
      exact .of_eq type device command
    removed := by
      intro n reachable gone isCommand
      have control := (simplified.removed_control n reachable gone).1
      rw [isCommand] at control
      cases control
    paths := simplified.reach_iff
    effects := by
      intro n _ first last
      obtain ⟨type, device, command⟩ := simplified.kept n
      rw [performs_congr type device command] }

theorem passReduceEdge_refines :
    ∃ after, Pass.ReduceEdge.passReduceEdge heap graph = some after ∧
      Refines run graph heap after True := by
  have formed := optimizable.formed
  obtain ⟨reduced, ran, unchanged, represents⟩ :=
    Pass.ReduceEdge.passReduceEdge_spec formed optimizable.ready
  obtain ⟨domain, inDomain, -⟩ := Heap.exists_domain formed.allocated
  have reachIff : ∀ source target,
      ReflTransGen (Digraph.Reduced (heap.Link graph)) source target ↔
        ReflTransGen (heap.Link graph) source target := by
    intro source target
    rw [reflTransGen_iff_eq_or_transGen, reflTransGen_iff_eq_or_transGen,
      Digraph.transGen_reduced_iff formed.acyclic domain
        fun upper lower link => (inDomain lower).mpr link.reachable]
  have entryEq : (reduced.graphs graph).entry = (heap.graphs graph).entry :=
    (Heap.unmarked_graphs unchanged graph).1
  have exitEq : (reduced.graphs graph).exit = (heap.graphs graph).exit :=
    (Heap.unmarked_graphs unchanged graph).2.1
  have entryLive : heap.Reachable graph (reduced.graphs graph).entry := by
    rw [entryEq]
    exact Heap.reachable_entry
  have fromEntry : ∀ n, heap.Reachable graph n →
      ReflTransGen (Digraph.Reduced (heap.Link graph))
        (reduced.graphs graph).entry n := by
    intro n reachable
    rw [entryEq, reachIff]
    exact Heap.reachable_entry.links reachable
  have reachableIff := represents.live_iff entryLive fromEntry
  have linkEq :
      reduced.Link graph = Digraph.Reduced (heap.Link graph) := by
    funext source target
    exact propext (represents.edge_iff entryLive fromEntry source target)
  have objects : ∀ n, (reduced.nodes n).type = (heap.nodes n).type ∧
      (reduced.nodes n).deviceUniqueId = (heap.nodes n).deviceUniqueId ∧
        (reduced.nodes n).command = (heap.nodes n).command := fun n =>
    ⟨Heap.unmarked_type unchanged n, Heap.unmarked_deviceUniqueId unchanged n,
      Heap.unmarked_command unchanged n⟩
  refine ⟨reduced, ran, Tracks.refines ?_ formed True⟩
  exact {
    formed := by
      apply Heap.WellFormed.of_represents represents
      · exact (Heap.unmarked_graphCount unchanged).symm ▸ formed.graph_lt
      · intro n reachable
        exact
          (Heap.unmarked_nodeCount unchanged).symm ▸
            formed.allocated n reachable
      · exact entryLive
      · exact fromEntry
      · intro n reachable
        rw [exitEq, reachIff]
        exact reachable.links (formed.reaches_exit n reachable)
      · exact Digraph.acyclic_reduced formed.acyclic
    remains := fun n reachable => (reachableIff n).mp reachable
    entry_eq := entryEq
    exit_eq := exitEq
    node := by
      intro n _
      obtain ⟨type, device, command⟩ := objects n
      exact .of_eq type device command
    removed := fun n reachable gone =>
      (gone ((reachableIff n).mpr reachable)).elim
    paths := by
      intro source target _ _
      rw [linkEq, reachIff]
    effects := by
      intro n _ first last
      obtain ⟨type, device, command⟩ := objects n
      rw [performs_congr type device command] }

variable {tools : Toolchain}

theorem passJit_refines (lawful : Lawful tools run heap graph .jit) :
    ∃ after, Pass.Jit.passJit tools.jit heap graph = some after ∧
      Refines run graph heap after True := by
  have formed := optimizable.formed
  obtain ⟨walked, visited, done, ran⟩ :=
    Pass.Jit.passJit_spec tools.jit formed.allocated
      optimizable.ready
  have same := done.unmarked_eq
  have nodeEq : ∀ n,
      (Pass.Jit.compileOn tools.jit walked visited).nodes n =
          walked.nodes n ∨
        ∃ prog, llvmirProg (walked.nodes n) = some prog ∧
          (Pass.Jit.compileOn tools.jit walked visited).nodes n =
            { walked.nodes n with
              command := some (.prog (tools.jit prog)) } := by
    intro n
    simp only [Pass.Jit.compileOn, Pass.Jit.compiled]
    split
    · split
      · rename_i prog held
        exact Or.inr ⟨prog, held, rfl⟩
      · exact Or.inl rfl
    · exact Or.inl rfl
  have lists : ∀ n,
      (Pass.Jit.compileOn tools.jit walked visited).successors n =
          walked.successors n ∧
        (Pass.Jit.compileOn tools.jit walked visited).predecessors n =
          walked.predecessors n := by
    intro n
    rcases nodeEq n with kept | ⟨prog, -, written⟩
    · rw [Heap.successors, Heap.predecessors, kept]
      exact ⟨rfl, rfl⟩
    · rw [Heap.successors, Heap.predecessors, written]
      exact ⟨rfl, rfl⟩
  have links : Heap.SameLinks heap
      (Pass.Jit.compileOn tools.jit walked visited) graph :=
    (Heap.SameLinks.of_unmarked same).trans {
      successors_eq := funext fun n => (lists n).1
      predecessors_eq := funext fun n => (lists n).2
      nodeCount_eq := rfl
      graphCount_eq := rfl
      entry_eq := rfl
      exit_eq := rfl }
  have progEq : ∀ n, llvmirProg (walked.nodes n) =
      llvmirProg (heap.nodes n) := by
    intro n
    rw [llvmirProg, llvmirProg, Heap.unmarked_type same,
      Heap.unmarked_command same]
  refine
    ⟨_, ran, Tracks.refines (Tracks.of_sameLinks formed links ?_ ?_) formed
      True⟩
  · intro n _
    have before : NodeKept (heap.nodes n) (walked.nodes n) :=
      .of_eq (Heap.unmarked_type same n) (Heap.unmarked_deviceUniqueId same n)
        (Heap.unmarked_command same n)
    rcases nodeEq n with kept | ⟨prog, held, written⟩
    · rw [kept]
      exact before
    · refine before.trans ?_
      obtain ⟨type, -⟩ := command_of_llvmirProg held
      rw [written]
      exact {
        type_eq := rfl
        device_eq := rfl
        executable := by
          intro _
          refine ⟨Or.inr ⟨type, rfl⟩, ?_⟩
          intro direction copy same
          cases same
        batch := by
          intro sub same
          cases same }
  · intro n reachable first last
    rw [← performs_congr (Heap.unmarked_type same n)
      (Heap.unmarked_deviceUniqueId same n) (Heap.unmarked_command same n)]
    rcases nodeEq n with kept | ⟨prog, held, written⟩
    · rw [performs, performs, kept]
    · obtain ⟨type, command⟩ := command_of_llvmirProg held
      rw [performs_command (n := n) (by rw [written]; exact type)
        (by rw [written]), performs_command type command, written]
      have acts :=
        lawful.jit rfl n prog reachable ((progEq n).symm.trans held) first last
      rwa [← Heap.unmarked_deviceUniqueId same n] at acts

theorem passProgFuse_refines
    (lawful : Lawful tools run heap graph .progFuse) :
    ∃ after fused, passProgFuse tools.fuse heap graph = some (after, fused) ∧
      Refines run graph heap after False := by
  have formed := optimizable.formed
  have ends : ControlEnds heap graph :=
    { entry_empty := optimizable.entry_empty
      exit_empty := optimizable.exit_empty }
  obtain ⟨after, fused, ran, all⟩ :=
    passProgFuse_spec tools.fuse formed optimizable.ready ends
  have runsFused := all.runsFused formed ends
  have liveIff :=
    all.represents.live_iff (all.entry_live formed ends)
      (all.from_entry formed ends)
  have memChain : ∀ {u n}, heap.Reachable graph u → headOf heap u = u →
      heap.Reachable graph n → (n ∈ chainOf heap u ↔ headOf heap n = u) :=
    fun reachable isHead member =>
      mem_chainOf_headOf formed reachable isHead member
  -- A head is alone, or it starts a run of programs.
  have heads : ∀ u, heap.Reachable graph u → headOf heap u = u →
      (chainOf heap u = [u] ∧
        (after.nodes u).command = (heap.nodes u).command) ∨
      (MaximalRun heap graph (chainOf heap u) ∧
        (chainOf heap u).head? = some u ∧
        (after.nodes u).command =
          some (.prog (tools.fuse (progsOf heap (chainOf heap u))))) := by
    intro u reachable isHead
    have commandEq := all.command_eq u reachable
    rw [if_pos isHead, fusedCommand] at commandEq
    rcases chainOf_cases formed reachable isHead with
      alone | ⟨maximal, long, first⟩
    · rw [alone] at commandEq
      exact Or.inl ⟨alone, commandEq⟩
    · rw [if_neg (Nat.not_lt.mpr long)] at commandEq
      exact Or.inr ⟨maximal, first, commandEq⟩
  have headMem : ∀ {u}, heap.Reachable graph u → headOf heap u = u →
      u ∈ chainOf heap u :=
    fun reachable isHead => (memChain reachable isHead reachable).mpr isHead
  have kept : Kept graph heap after := {
    formed := runsFused.formed
    remains := fun n reachable => ((liveIff n).mp reachable).1
    entry_eq := all.graph_eq.1
    exit_eq := all.graph_eq.2
    node := by
      intro n reachable
      obtain ⟨before, isHead⟩ := (liveIff n).mp reachable
      obtain ⟨type, device⟩ := all.kept n
      rcases heads n before isHead with
        ⟨-, same⟩ | ⟨maximal, -, fusedTo⟩
      · exact .of_eq type device same
      · have isProg := (maximal.isRun.programs n (headMem before isHead)).2
        obtain ⟨prog, held⟩ := Option.isSome_iff_exists.mp isProg
        obtain ⟨isCommand, -⟩ := command_of_llvmirProg held
        exact {
          type_eq := type
          device_eq := device
          executable := by
            intro _
            constructor
            · right
              rw [type, fusedTo]
              exact ⟨isCommand, rfl⟩
            · intro direction copy same
              rw [fusedTo] at same
              cases same
          batch := by
            intro sub same
            rw [fusedTo] at same
            cases same } }
  have blocks : ∀ u, Commands after graph u →
      heap.Reachable graph u ∧ headOf heap u = u ∧
        (heap.nodes u).type = .command := by
    rintro u ⟨reachable, type⟩
    obtain ⟨before, isHead⟩ := (liveIff u).mp reachable
    exact ⟨before, isHead, (all.kept u).1 ▸ type⟩
  have members : ∀ u, Commands after graph u → ∀ n,
      n ∈ chainOf heap u ↔ Commands heap graph n ∧ headOf heap n = u := by
    intro u live n
    obtain ⟨reachable, isHead, type⟩ := blocks u live
    constructor
    · intro member
      have before := reachable_of_mem_chainOf formed reachable member
      refine ⟨⟨before, ?_⟩, (memChain reachable isHead before).mp member⟩
      rcases heads u reachable isHead with ⟨alone, -⟩ | ⟨maximal, -, -⟩
      · rw [alone, List.mem_singleton] at member
        rwa [member]
      · obtain ⟨prog, held⟩ :=
          Option.isSome_iff_exists.mp (maximal.isRun.programs n member).2
        exact (command_of_llvmirProg held).1
    · rintro ⟨⟨before, -⟩, same⟩
      exact (memChain reachable isHead before).mpr same
  have chains : ∀ u, Commands after graph u →
      List.IsChain (heap.Link graph) (chainOf heap u) := by
    intro u live
    obtain ⟨reachable, isHead, -⟩ := blocks u live
    rcases heads u reachable isHead with ⟨alone, -⟩ | ⟨maximal, -, -⟩
    · rw [alone]
      exact List.isChain_singleton u
    · exact List.IsChain.imp (fun _ _ sole => sole.step) maximal.isRun.series
  have placed : ∀ n, Commands heap graph n →
      Commands after graph (headOf heap n) := by
    rintro n ⟨reachable, type⟩
    have headReachable := headOf_reachable formed reachable
    have isHead := headOf_headOf formed reachable
    refine ⟨(liveIff _).mpr ⟨headReachable, isHead⟩, ?_⟩
    rw [(all.kept _).1]
    have member := (memChain headReachable isHead reachable).mpr rfl
    rcases heads _ headReachable isHead with ⟨alone, -⟩ | ⟨maximal, -, -⟩
    · rw [alone, List.mem_singleton] at member
      rwa [← member]
    · obtain ⟨prog, held⟩ :=
        Option.isSome_iff_exists.mp
          (maximal.isRun.programs _ (headMem headReachable isHead)).2
      exact (command_of_llvmirProg held).1
  have expands : ∀ u, Commands after graph u → ∀ first last,
      performs run after u first last →
        Runs (performs run heap) (chainOf heap u) first last := by
    intro u live first last acts
    obtain ⟨reachable, isHead, type⟩ := blocks u live
    obtain ⟨typeEq, deviceEq⟩ := all.kept u
    rcases heads u reachable isHead with
      ⟨alone, same⟩ | ⟨maximal, isFirst, fusedTo⟩
    · rw [performs_congr typeEq deviceEq same] at acts
      rw [alone]
      exact ⟨last, acts, rfl⟩
    · rw [performs_command (typeEq.trans type) fusedTo, deviceEq] at acts
      exact lawful.fuse rfl _ u maximal isFirst first last acts
  refine ⟨after, fused, ran, ?_⟩
  exact {
    toKept := kept
    sound := by
      intro first last outcome
      rw [outcome_iff formed]
      obtain ⟨part, sorted, runs⟩ := (outcome_iff runsFused.formed).mp outcome
      refine ⟨part.flatMap (chainOf heap), ?_, ?_⟩
      · refine sorted.flatMap (headOf heap) (chainOf heap) placed ?_ ?_
        · intro u live
          exact Sorted.of_isChain formed.acyclic (chains u live) (members u live)
        · intro source target _ _ path apart
          exact
            TransGen.mono
              (fun source target =>
                (all.link_contract formed ends source target).mpr) _ _
              (Digraph.transGen_contract path.to_reflTransGen apart)
      · refine Runs.flatMap ?_ runs
        intro u member first last acts
        exact expands u ((sorted.mem_iff u).mp member) first last acts
    complete := fun no => no.elim }

end Passes

end Cgir.Optimizer
