import Cgir.Llvm.ArgsRuns
import Cgir.Llvm.Homogeneous
import Cgir.Pass.ProgRuns

/-!
# Repeated prog-fuse passes

A pass leaves no run behind when the fused programs keep the launch parameters
of their chains, so that further passes hand nothing to the fusion.  What the
passes hand to it is homogeneous if and only if the programs of every link that
is fused are compatible.
-/

namespace Cgir.Pass.ProgFuse

open Relation
open Cgir.Library
open Cgir.Llvm
open Cgir.Model

/-! ## A second pass -/

/-- The fusion keeps the launch parameters of the first program of a run. -/
def KeepsLaunch (fuse : List CommandProg → CommandProg) (heap : Heap)
    (graph : GraphId) : Prop :=
  ∀ run first, MaximalRun heap graph run →
    (progsOf heap run).head? = some first →
      commandProgLaunchParamsEqual first (fuse (progsOf heap run)) = true

section Again

variable {heap after : Heap} {graph : GraphId}
  {fuse : List CommandProg → CommandProg}

/-- What follows a chain in the contraction follows its end in sequence. -/
theorem sole_contract_headOf (formed : heap.WellFormed graph)
    {u v : NodeId}
    (sole : Sole (Digraph.Contract (heap.Link graph) (headOf heap)) u v) :
    ∃ last ∈ chainOf heap u, fuseNext heap last = none ∧
      Sole (heap.Link graph) last v := by
  obtain ⟨isHead, vHead, reachable, last, isLast, link⟩ :=
    (contract_headOf_iff formed u v).mp sole.step
  obtain ⟨end', path, ends⟩ := chainOf_straight formed reachable
  obtain rfl : end' = last :=
    Option.some.inj (path.getLast?.symm.trans isLast)
  refine ⟨end', path.last_mem, ends, link, ?_, ?_⟩
  · intro other step
    have otherHead : headOf heap other = other := by
      rw [headOf_eq_self_iff formed step.reachable]
      by_contra inner
      obtain ⟨p, linked⟩ := Option.ne_none_iff_exists'.mp inner
      have forward := fusePrev_eq_some_iff.mp linked
      have pLink := link_of_fusePrev formed step.reachable linked
      have same :=
        (sole_of_fuseNext formed pLink.1 forward).only_prev end' step
      subst same
      rw [ends] at forward
      cases forward
    exact
      sole.only_next other
        ((contract_headOf_iff formed u other).mpr
          ⟨isHead, otherHead, reachable, end', isLast, step⟩)
  · intro other step
    have headReachable := headOf_reachable formed step.1
    have headHead := headOf_headOf formed step.1
    have member :=
      (mem_chainOf_headOf formed headReachable headHead step.1).mpr rfl
    obtain ⟨otherLast, otherPath, -⟩ := chainOf_straight formed headReachable
    have isOtherLast : other = otherLast := by
      by_contra inner
      have inside := otherPath.next_mem member inner step
      rw [mem_chainOf_headOf formed headReachable headHead step.reachable,
        vHead] at inside
      rw [← inside] at otherPath member
      exact otherPath.not_edge_first formed.acyclic member step
    have isLast' := otherPath.getLast?
    rw [← isOtherLast] at isLast'
    have same :=
      sole.only_prev _
        ((contract_headOf_iff formed _ v).mpr
          ⟨headHead, vHead, headReachable, other, isLast', step⟩)
    rw [same, isLast, Option.some.injEq] at isLast'
    exact isLast'.symm

/-- Whatever runs a program after the pass ran one with the same launch. -/
theorem FusedAll.launch_before {fused : List (List NodeId)}
    (formed : heap.WellFormed graph)
    (all : FusedAll fuse heap graph after fused)
    (keeps : KeepsLaunch fuse heap graph) {n : NodeId}
    (reachable : heap.Reachable graph n) (isHead : headOf heap n = n)
    {prog : CommandProg} (held : llvmirProg (after.nodes n) = some prog) :
    ∃ before, llvmirProg (heap.nodes n) = some before ∧
      commandProgLaunchParamsEqual before prog = true := by
  have type := (all.kept n).1
  have command := all.command_eq n reachable
  rw [if_pos isHead] at command
  by_cases short : (chainOf heap n).length < 2
  · rw [fusedCommand, if_pos short] at command
    refine ⟨prog, ?_, (launchParamsEqual_iff prog prog).mpr rfl⟩
    rw [← held]
    unfold llvmirProg
    rw [type, command]
  · rw [fusedCommand, if_neg short] at command
    have long := Nat.not_lt.mp short
    have maximal :=
      (maximalRun_iff formed).mpr ⟨n, reachable, isHead, long, rfl⟩
    obtain ⟨rest, chainEq⟩ := chainOf_cons formed reachable
    obtain ⟨-, isProg⟩ :=
      maximal.isRun.programs n (chainEq ▸ List.mem_cons_self)
    obtain ⟨before, heldBefore⟩ := Option.isSome_iff_exists.mp isProg
    have first : (progsOf heap (chainOf heap n)).head? = some before := by
      rw [chainEq, progsOf, List.filterMap_cons, heldBefore]
      rfl
    refine ⟨before, heldBefore, ?_⟩
    have launch := keeps _ before maximal first
    have same : fuse (progsOf heap (chainOf heap n)) = prog :=
      Command.prog.inj
        (Option.some.inj (command.symm.trans (command_of_llvmirProg held).2))
    rwa [same] at launch

/-- The pass leaves no run behind. -/
theorem FusedAll.no_runs {fused : List (List NodeId)}
    (formed : heap.WellFormed graph) (ends : ControlEnds heap graph)
    (all : FusedAll fuse heap graph after fused)
    (keeps : KeepsLaunch fuse heap graph) (run : List NodeId) :
    ¬ MaximalRun after graph run := by
  intro maximal
  have long := maximal.long
  have series := maximal.isRun.series
  have launch := maximal.isRun.launch
  match run, long with
  | u :: v :: rest, _ =>
      have linkEq : after.Link graph =
          Digraph.Contract (heap.Link graph) (headOf heap) := by
        funext source target
        exact propext (all.link_contract formed ends source target)
      have sole := (List.isChain_cons_cons.mp series).1
      rw [linkEq] at sole
      obtain ⟨uHead, vHead, reachable, -⟩ :=
        (contract_headOf_iff formed u v).mp sole.step
      obtain ⟨last, member, atEnd, soleLast⟩ :=
        sole_contract_headOf formed sole
      obtain ⟨prog, prog', held, held', same⟩ :=
        (List.pairwise_cons.mp launch).1 v List.mem_cons_self
      obtain ⟨before, heldBefore, launchU⟩ :=
        all.launch_before formed keeps reachable uHead held
      obtain ⟨before', heldBefore', launchV⟩ :=
        all.launch_before formed keeps soleLast.step.reachable vHead held'
      obtain ⟨lastProg, heldLast, launchLast⟩ :=
        launch_of_mem_chainOf formed reachable heldBefore member
      -- The end of the chain would go on to `v`.
      have sameLast : SameLaunch heap last v := by
        refine ⟨lastProg, before', heldLast, heldBefore', ?_⟩
        rw [← launchLast, launchParamsEqual_iff]
        rw [launchParamsEqual_iff] at launchU launchV same
        exact launchU.trans (same.trans launchV.symm)
      have step :=
        (fuseNext_iff_sole formed soleLast.step.1).mpr ⟨soleLast, sameLast⟩
      rw [atEnd] at step
      cases step

end Again

/-! ## Repeated passes -/

/--
Some passes in a row, with the programs of every chain that they hand to
`command_graph_prog_fuse_llvmir`.
-/
def passesProgFuse (fuse : List CommandProg → CommandProg) (graph : GraphId) :
    Nat → Heap → Option (Heap × List (List CommandProg))
  | 0, heap => some (heap, [])
  | times + 1, heap => do
      let (after, fused) ← passProgFuse fuse heap graph
      let (final, later) ← passesProgFuse fuse graph times after
      return (final, fused.map (progsOf heap) ++ later)

/-- The graph is ready for a pass that finds no run. -/
structure Exhausted (heap : Heap) (graph : GraphId) : Prop where
  formed : heap.WellFormed graph
  ready : heap.WalkReady graph
  ends : ControlEnds heap graph
  no_runs : ∀ run, ¬ MaximalRun heap graph run

section Repeated

variable {heap : Heap} {graph : GraphId}
  {fuse : List CommandProg → CommandProg}

/-- After a pass that kept the launch parameters nothing is left to fuse. -/
theorem passProgFuse_exhausts (fuse : List CommandProg → CommandProg)
    (formed : heap.WellFormed graph) (ready : heap.WalkReady graph)
    (ends : ControlEnds heap graph) (keeps : KeepsLaunch fuse heap graph) :
    ∃ after fused, passProgFuse fuse heap graph = some (after, fused) ∧
      (∀ run, run ∈ fused ↔ MaximalRun heap graph run) ∧
        Exhausted after graph := by
  obtain ⟨after, fused, ran, all⟩ :=
    passProgFuse_spec fuse formed ready ends
  have runs := all.runsFused formed ends
  refine ⟨after, fused, ran, all.mem_fused, runs.formed, ?_, ?_, ?_⟩
  · intro n reachable _
    have mark :=
      passProgFuse_marks fuse formed ready ends ran n
        ((runs.reachable_iff n).mp reachable).1
    rw [mark]
    intro equal
    simp at equal
  · obtain ⟨entryEq, exitEq⟩ := runs.graph_eq
    constructor
    · rw [entryEq, (runs.kept _).1]
      exact ends.entry_empty
    · rw [exitEq, (runs.kept _).1]
      exact ends.exit_empty
  · exact all.no_runs formed ends keeps

/-- Passes over an exhausted graph hand nothing to the fusion. -/
theorem Exhausted.passes (fuse : List CommandProg → CommandProg)
    (times : Nat) :
    ∀ {heap : Heap}, Exhausted heap graph →
      ∃ after, passesProgFuse fuse graph times heap = some (after, []) := by
  induction times with
  | zero => exact fun {heap} _ => ⟨heap, rfl⟩
  | succ times induction =>
      intro heap exhausted
      obtain ⟨after, fused, ran, mem, next⟩ :=
        passProgFuse_exhausts fuse exhausted.formed
          exhausted.ready exhausted.ends
          (fun run _ maximal => (exhausted.no_runs run maximal).elim)
      have nothing : fused = [] := by
        rw [List.eq_nil_iff_forall_not_mem]
        exact fun run member =>
          exhausted.no_runs run ((mem run).mp member)
      obtain ⟨final, later⟩ := induction next
      refine ⟨final, ?_⟩
      simp only [passesProgFuse, ran, nothing, later, Option.bind_eq_bind,
        Option.bind_some]
      rfl

end Repeated

/-! ## Chains that fusion accepts -/

/-- The programs of both nodes, if they have any, may stand in one chain. -/
def CompatibleAt (heap : Heap) (u v : NodeId) : Prop :=
  ∀ prog prog', llvmirProg (heap.nodes u) = some prog →
    llvmirProg (heap.nodes v) = some prog' → Compatible prog prog'

/--
Programs in sequence with equal launch parameters are compatible: both are
packed leaves or neither is, both run on a device or neither does, and neither
is a packed body without a params table.
-/
def Uniform (heap : Heap) (graph : GraphId) : Prop :=
  ∀ u v, Sole (heap.Link graph) u v → SameLaunch heap u v →
    CompatibleAt heap u v

section Uniform

variable {heap : Heap} {graph : GraphId} {run : List NodeId}

/-- Every node of a run has its program in the list. -/
theorem IsRun.map_progs (isRun : IsRun heap graph run) :
    run.map (fun n => llvmirProg (heap.nodes n)) =
      (progsOf heap run).map some := by
  have programs := fun n member => (isRun.programs n member).2
  clear isRun
  induction run with
  | nil => rfl
  | cons n rest induction =>
      obtain ⟨prog, held⟩ :=
        Option.isSome_iff_exists.mp (programs n List.mem_cons_self)
      have later :=
        induction fun other member =>
          programs other (List.mem_cons_of_mem n member)
      rw [List.map_cons, later, progsOf, progsOf, List.filterMap_cons, held]
      rfl

/-- A run is homogeneous link by link. -/
theorem IsRun.homogeneous_iff (isRun : IsRun heap graph run)
    (long : 2 ≤ run.length) :
    Homogeneous (progsOf heap run) ↔
      List.IsChain (CompatibleAt heap) run := by
  let related (first second : Option CommandProg) : Prop :=
    ∀ prog prog', first = some prog → second = some prog' →
      Compatible prog prog'
  have progs := isRun.map_progs
  have length : 2 ≤ (progsOf heap run).length := by
    have same := congrArg List.length progs
    rw [List.length_map, List.length_map] at same
    exact same ▸ long
  have relatedSome : ∀ prog prog',
      related (some prog) (some prog') ↔ Compatible prog prog' := by
    intro prog prog'
    constructor
    · exact fun both => both prog prog' rfl rfl
    · rintro both _ _ ⟨⟩ ⟨⟩
      exact both
  have onProgs : List.IsChain related ((progsOf heap run).map some) ↔
      List.IsChain Compatible (progsOf heap run) := by
    rw [List.isChain_map]
    exact List.IsChain.iff relatedSome
  rw [homogeneous_iff_isChain length, ← onProgs, ← progs, List.isChain_map]
  rfl

/-- A uniform graph has homogeneous runs. -/
theorem Uniform.homogeneous (uniform : Uniform heap graph)
    (maximal : MaximalRun heap graph run) :
    Homogeneous (progsOf heap run) := by
  have isRun := maximal.isRun
  rw [isRun.homogeneous_iff maximal.long,
    List.isChain_iff_forall_rel_of_append_cons_cons]
  intro u v before after split
  have sole :=
    List.isChain_iff_forall_rel_of_append_cons_cons.mp isRun.series split
  have launch := isRun.launch
  rw [split, List.pairwise_append] at launch
  have same :=
    (List.pairwise_cons.mp launch.2.1).1 v List.mem_cons_self
  exact uniform u v sole same

/-- Every link that is fused lies in a maximal run. -/
theorem uniform_of_homogeneous (formed : heap.WellFormed graph)
    (homogeneous : ∀ run, MaximalRun heap graph run →
      Homogeneous (progsOf heap run)) : Uniform heap graph := by
  intro u v sole same
  have reachable := sole.step.1
  have next := (fuseNext_iff_sole formed reachable).mpr ⟨sole, same⟩
  have headReachable := headOf_reachable formed reachable
  have headHead := headOf_headOf formed reachable
  have member :=
    (mem_chainOf_headOf formed headReachable headHead reachable).mpr rfl
  obtain ⟨last, path, ends⟩ := chainOf_straight formed headReachable
  have steps := follow_isChain _ (chainOf_ran formed headReachable)
  obtain ⟨before, after, split⟩ := List.append_of_mem member
  cases after with
  | nil =>
      -- The chain ends where `fuseNext` does.
      have isLast := path.getLast?
      rw [split, List.getLast?_concat, Option.some.injEq] at isLast
      rw [isLast, ends] at next
      cases next
  | cons w after =>
      have step : fuseNext heap u = some w :=
        List.isChain_iff_forall_rel_of_append_cons_cons.mp steps split
      obtain rfl : v = w := Option.some.inj (next.symm.trans step)
      have long : 2 ≤ (chainOf heap (headOf heap u)).length := by
        rw [split, List.length_append, List.length_cons, List.length_cons]
        exact Nat.le_add_left_of_le (Nat.le_add_left 2 _)
      have maximal :=
        (maximalRun_iff formed).mpr ⟨_, headReachable, headHead, long, rfl⟩
      have chain :=
        (maximal.isRun.homogeneous_iff long).mp (homogeneous _ maximal)
      exact
        List.isChain_iff_forall_rel_of_append_cons_cons.mp chain split

end Uniform

section Core

variable {env : FuseEnv} {memory : Memory} {heap : Heap} {graph : GraphId}
  {fuse : List CommandProg → CommandProg}
  (core : ∀ progs prog, fuseLlvmir env memory progs = some prog →
    fuse progs = prog)

/-- Fusion returns on a homogeneous run. -/
theorem MaximalRun.fuses {run : List NodeId}
    (maximal : MaximalRun heap graph run)
    (populated : ∀ n prog, heap.Reachable graph n →
      llvmirProg (heap.nodes n) = some prog → Populated prog)
    (homogeneous : Homogeneous (progsOf heap run)) :
    (fuseLlvmir env memory (progsOf heap run)).isSome := by
  have each : ∀ prog ∈ progsOf heap run, Populated prog := by
    intro prog member
    obtain ⟨n, inRun, held⟩ := List.mem_filterMap.mp member
    exact populated n prog (maximal.isRun.programs n inRun).1 held
  obtain ⟨inputs, collected⟩ := homogeneous.fuseInputs each
  refine fuseLlvmir_isSome ?_ collected
  intro nothing
  have progs := maximal.isRun.map_progs
  rw [nothing, List.map_nil, List.map_eq_nil_iff] at progs
  have long := maximal.long
  rw [progs] at long
  exact absurd long (by simp)

include core

/-- The fusion keeps the launch parameters of the runs on which it returns. -/
theorem keepsLaunch_of_fuses
    (fuses : ∀ run, MaximalRun heap graph run →
      (fuseLlvmir env memory (progsOf heap run)).isSome) :
    KeepsLaunch fuse heap graph := by
  intro run first maximal isFirst
  obtain ⟨prog, fused⟩ := Option.isSome_iff_exists.mp (fuses run maximal)
  obtain ⟨first', isFirst', launch, -⟩ := fuseLlvmir_launch fused
  obtain rfl : first = first' := Option.some.inj (isFirst.symm.trans isFirst')
  rw [core _ _ fused, launchParamsEqual_iff]
  exact launch.symm

end Core

/--
Whatever some passes in a row hand to the fusion is homogeneous, and makes it
return, if and only if the programs that are fused are compatible link by link.
-/
theorem passesProgFuse_homogeneous_iff (env : FuseEnv) (memory : Memory)
    (fuse : List CommandProg → CommandProg) (heap : Heap) (graph : GraphId)
    (core : ∀ progs prog, fuseLlvmir env memory progs = some prog →
      fuse progs = prog)
    (formed : heap.WellFormed graph) (ready : heap.WalkReady graph)
    (ends : ControlEnds heap graph)
    (populated : ∀ n prog, heap.Reachable graph n →
      llvmirProg (heap.nodes n) = some prog → Populated prog) :
    (∀ times, ∃ after handed,
        passesProgFuse fuse graph times heap = some (after, handed) ∧
          ∀ progs ∈ handed, Homogeneous progs ∧
            (fuseLlvmir env memory progs).isSome) ↔
      Uniform heap graph := by
  constructor
  · intro accepted
    apply uniform_of_homogeneous formed
    intro run maximal
    obtain ⟨after, fused, ran, mem, -⟩ :=
      passProgFuse_fuses_runs fuse formed ready ends
    obtain ⟨final, handed, passed, homogeneous⟩ := accepted 1
    simp only [passesProgFuse, ran, Option.bind_eq_bind, Option.bind_some,
      Option.pure_def, Option.some.injEq, Prod.mk.injEq] at passed
    obtain ⟨-, rfl⟩ := passed
    apply (homogeneous _ _).1
    rw [List.append_nil]
    exact List.mem_map_of_mem ((mem run).mpr maximal)
  · intro uniform times
    have homogeneous : ∀ run, MaximalRun heap graph run →
        Homogeneous (progsOf heap run) := fun _ => uniform.homogeneous
    have fuses : ∀ run, MaximalRun heap graph run →
        (fuseLlvmir env memory (progsOf heap run)).isSome :=
      fun run maximal => maximal.fuses populated (homogeneous run maximal)
    cases times with
    | zero =>
        exact ⟨heap, [], rfl, fun _ member =>
          (List.not_mem_nil member).elim⟩
    | succ times =>
        obtain ⟨after, fused, ran, mem, exhausted⟩ :=
          passProgFuse_exhausts fuse formed ready ends
            (keepsLaunch_of_fuses core fuses)
        obtain ⟨final, passed⟩ := Exhausted.passes fuse times exhausted
        refine ⟨final, fused.map (progsOf heap), ?_, ?_⟩
        · simp only [passesProgFuse, ran, passed, Option.bind_eq_bind,
            Option.bind_some, List.append_nil, Option.pure_def]
        · intro progs member
          obtain ⟨run, inside, rfl⟩ := List.mem_map.mp member
          have maximal := (mem run).mp inside
          exact ⟨homogeneous run maximal, fuses run maximal⟩

/-! ## Two tasks in a row -/

/-- Two programs in a row. -/
def progPair (first second : CommandProg) : Heap :=
  Heap.ofNodes
    [Heap.linkedNode unspecifiedDeviceUniqueId .empty [] [1],
      { Heap.linkedNode 1 .command [0] [2] with
        command := some (.prog first) },
      { Heap.linkedNode 1 .command [1] [3] with
        command := some (.prog second) },
      Heap.linkedNode unspecifiedDeviceUniqueId .empty [2] []]
    { entry := 0, exit := 3, walkId := 0, isSequence := false }

/-- Only the two programs are LLVM-IR programs. -/
theorem progPair_progs {first second : CommandProg} {n : NodeId}
    {prog : CommandProg}
    (held : llvmirProg ((progPair first second).nodes n) = some prog) :
    prog = first ∨ prog = second := by
  have command := (command_of_llvmirProg held).2
  match n with
  | 0 => cases command
  | 1 => exact Or.inl (Command.prog.inj (Option.some.inj command)).symm
  | 2 => exact Or.inr (Command.prog.inj (Option.some.inj command)).symm
  | 3 => cases command
  | n + 4 => cases command

/-- A packed task is populated. -/
theorem valueTask_populated : Populated valueTask where
  entry :=
    ⟨⟨[bufferBody]⟩, .taskSpawn, bufferBody, rfl, by decide,
      ⟨rfl, 0, 64, rfl⟩, by
        intro classified shaped
        obtain rfl := Option.some.inj shaped
        decide⟩

/-- A task that takes the slots is populated. -/
theorem onePointerTask_populated : Populated (onePointerTask .voidPtrptr) where
  entry :=
    ⟨⟨[onePointer]⟩, .taskSpawn, onePointer, rfl, by decide,
      ⟨rfl, 0, rfl⟩, by
        intro classified shaped
        obtain rfl := Option.some.inj shaped
        decide⟩

/-- Fusion, where it returns. -/
def fuseOr (fallback : CommandProg) (progs : List CommandProg) : CommandProg :=
  (fuseLlvmir plainEnv pagedMemory progs).getD fallback

theorem passesProgFuse_homogeneous_iff_valueTask :
    (∀ times, ∃ after handed,
        passesProgFuse (fuseOr valueTask) 0 times
            (progPair valueTask valueTask) = some (after, handed) ∧
          ∀ progs ∈ handed, Homogeneous progs ∧
            (fuseLlvmir plainEnv pagedMemory progs).isSome) ↔
      Uniform (progPair valueTask valueTask) 0 := by
  have numbered : (progPair valueTask valueTask).Numbered 0 := by decide
  apply passesProgFuse_homogeneous_iff plainEnv pagedMemory
  · intro progs prog returned
    rw [fuseOr, returned]
    rfl
  · exact numbered.wellFormed
  · exact numbered.walkReady (by decide)
  · exact ⟨rfl, rfl⟩
  · intro n prog _ held
    rcases progPair_progs held with rfl | rfl
    · exact valueTask_populated
    · exact valueTask_populated

/-- A task that takes the slots is chained with a packed task. -/
theorem passProgFuse_hands_mixed :
    let heap := progPair (onePointerTask .voidPtrptr) valueTask
    heap.WellFormed 0 ∧ heap.WalkReady 0 ∧ ControlEnds heap 0 ∧
      (∀ n prog, heap.Reachable 0 n →
        llvmirProg (heap.nodes n) = some prog → Populated prog) ∧
      ∃ after,
        passProgFuse (fuseOr valueTask) heap 0 = some (after, [[1, 2]]) ∧
          ¬ Homogeneous (progsOf heap [1, 2]) ∧
            fuseInputs (progsOf heap [1, 2]) = none := by
  intro heap
  have numbered : heap.Numbered 0 := by decide
  refine
    ⟨numbered.wellFormed, numbered.walkReady (by decide), ⟨rfl, rfl⟩, ?_,
      ?_⟩
  · intro n prog _ held
    rcases progPair_progs held with rfl | rfl
    · exact onePointerTask_populated
    · exact valueTask_populated
  · have ran : ((passProgFuse (fuseOr valueTask) heap 0).map Prod.snd) =
        some [[1, 2]] := by decide
    obtain ⟨⟨after, fused⟩, passed, rfl⟩ := Option.map_eq_some_iff.mp ran
    refine ⟨after, passed, ?_, by decide⟩
    intro homogeneous
    exact absurd homogeneous.packed (by decide)

end Cgir.Pass.ProgFuse
