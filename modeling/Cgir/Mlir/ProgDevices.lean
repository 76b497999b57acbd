import Cgir.Mlir.ProgFuse

/-!
# Devices of fused programs

Both prog-fuse passes run a chain on the device of its first node, and neither
compares the devices of its members.  A program stays on its device in all
graphs in which programs that are fused share one.
-/

namespace Cgir.Pass.ProgFuse

open Relation
open Cgir.Library
open Cgir.Model

/-- The node `m` starts a fused chain with `n`, and holds the fused program. -/
def RunsChain (fuse : List CommandProg → CommandProg) (heap after : Heap)
    (fused : List (List NodeId)) (n m : NodeId) : Prop :=
  ∃ chain ∈ fused, n ∈ chain ∧ chain.head? = some m ∧
    (after.nodes m).command = some (.prog (fuse (progsOf heap chain)))

/-- The node `n` is in no fused chain, and holds its command. -/
def RunsAlone (heap after : Heap) (fused : List (List NodeId))
    (n : NodeId) : Prop :=
  (∀ chain ∈ fused, n ∉ chain) ∧
    (after.nodes n).command = (heap.nodes n).command

/-- The node `m` of the graph executes what `n` held. -/
def Executes (fuse : List CommandProg → CommandProg) (heap after : Heap)
    (graph : GraphId) (fused : List (List NodeId)) (n m : NodeId) : Prop :=
  after.Reachable graph m ∧
    (RunsChain fuse heap after fused n m ∨
      (m = n ∧ RunsAlone heap after fused n))

/--
The pass returns, and every program is executed by a node with the device of the
node that held it.
-/
def KeepsDevices (fuse : List CommandProg → CommandProg) (heap : Heap)
    (graph : GraphId) (result : Option (Heap × List (List NodeId))) : Prop :=
  ∃ after fused, result = some (after, fused) ∧
    ∀ n prog, heap.Reachable graph n →
      (heap.nodes n).command = some (.prog prog) →
        ∃ m, Executes fuse heap after graph fused n m ∧
          (after.nodes m).deviceUniqueId = (heap.nodes n).deviceUniqueId

/-- Programs in sequence with equal launch parameters share their device. -/
def OneDevice (heap : Heap) (graph : GraphId) : Prop :=
  ∀ u v, Sole (heap.Link graph) u v → SameLaunch heap u v →
    (heap.nodes u).deviceUniqueId = (heap.nodes v).deviceUniqueId

section Devices

variable {fuse : List CommandProg → CommandProg} {heap after : Heap}
  {graph : GraphId} {fused : List (List NodeId)}
  (formed : heap.WellFormed graph) (ends : ControlEnds heap graph)
  (all : FusedAll fuse heap graph after fused)

include formed

/-- A chain lies on the device of its head. -/
theorem OneDevice.headOf_eq (one : OneDevice heap graph) {n : NodeId}
    (reachable : heap.Reachable graph n) :
    (heap.nodes (headOf heap n)).deviceUniqueId =
      (heap.nodes n).deviceUniqueId := by
  have path := steps_headOf formed reachable
  have headReachable := headOf_reachable formed reachable
  clear reachable
  generalize headOf heap n = head at path headReachable
  induction path with
  | refl => rfl
  | tail before step induction =>
      have between :=
        Heap.reachable_of_links headReachable
          (links_of_steps formed headReachable before)
      obtain ⟨sole, launch⟩ := (fuseNext_iff_sole formed between).mp step
      exact induction.trans (one _ _ sole launch)

include all

/-- A node of a fused chain has the first node of the chain as its head. -/
theorem FusedAll.headOf_of_mem {chain : List NodeId} (listed : chain ∈ fused)
    {n : NodeId} (reachable : heap.Reachable graph n) (member : n ∈ chain) :
    chain.head? = some (headOf heap n) ∧
      chain = chainOf heap (headOf heap n) := by
  have maximal := (all.mem_fused chain).mp listed
  obtain ⟨u, uReachable, isHead, -, rfl⟩ := (maximalRun_iff formed).mp maximal
  have headEq :=
    (mem_chainOf_headOf formed uReachable isHead reachable).mp member
  obtain ⟨rest, chainEq⟩ := chainOf_cons formed uReachable
  rw [headEq, chainEq]
  exact ⟨rfl, rfl⟩

/-- A node that is in no fused chain is its own head. -/
theorem FusedAll.headOf_of_alone {n : NodeId}
    (reachable : heap.Reachable graph n)
    (alone : ∀ chain ∈ fused, n ∉ chain) : headOf heap n = n := by
  have headReachable := headOf_reachable formed reachable
  have headHead := headOf_headOf formed reachable
  have member :=
    (mem_chainOf_headOf formed headReachable headHead reachable).mpr rfl
  rcases chainOf_cases formed headReachable headHead with
    single | ⟨maximal, -, -⟩
  · rw [single, List.mem_singleton] at member
    exact member.symm
  · exact (alone _ ((all.mem_fused _).mpr maximal) member).elim

/-- Only the head of its chain executes what a node held. -/
theorem FusedAll.eq_headOf {n m : NodeId}
    (reachable : heap.Reachable graph n)
    (executes : Executes fuse heap after graph fused n m) :
    m = headOf heap n := by
  rcases executes.2 with ⟨chain, listed, member, first, -⟩ | ⟨rfl, alone, -⟩
  · rw [(all.headOf_of_mem formed listed reachable member).1,
      Option.some.injEq] at first
    exact first.symm
  · exact (all.headOf_of_alone formed reachable alone).symm

include ends

/-- The head of its chain executes what a node held. -/
theorem FusedAll.executes_headOf {n : NodeId}
    (reachable : heap.Reachable graph n) :
    Executes fuse heap after graph fused n (headOf heap n) := by
  have headReachable := headOf_reachable formed reachable
  have headHead := headOf_headOf formed reachable
  have runs := all.runsFused formed ends
  have entryLive := all.entry_live formed ends
  have fromEntry := all.from_entry formed ends
  have live : after.Reachable graph (headOf heap n) :=
    (all.represents.live_iff entryLive fromEntry _).mpr
      ⟨headReachable, headHead⟩
  refine ⟨live, ?_⟩
  have member :=
    (mem_chainOf_headOf formed headReachable headHead reachable).mpr rfl
  rcases chainOf_cases formed headReachable headHead with
    single | ⟨maximal, -, first⟩
  · rw [single, List.mem_singleton] at member
    refine Or.inr ⟨member.symm, ?_, ?_⟩
    · intro chain listed inside
      have maximal := (all.mem_fused chain).mp listed
      rw [(all.headOf_of_mem formed listed reachable inside).2, single]
        at maximal
      exact absurd maximal.long (by simp)
    · apply runs.command_other n reachable
      intro run maximal first
      have inside := List.mem_of_head? first
      have isChain :=
        (all.headOf_of_mem formed ((all.mem_fused run).mpr maximal) reachable
          inside).2
      rw [isChain, single] at maximal
      exact absurd maximal.long (by simp)
  · exact
      Or.inl
        ⟨_, (all.mem_fused _).mpr maximal, member, first,
          runs.command_run _ _ maximal first⟩

/-- A pass that contracts the chains keeps devices if chains have one device. -/
theorem FusedAll.keepsDevices_iff :
    KeepsDevices fuse heap graph (some (after, fused)) ↔
      OneDevice heap graph := by
  constructor
  · rintro ⟨after', fused', same, keeps⟩ u v sole ⟨prog, prog', held, held', launch⟩
    rw [Option.some.injEq, Prod.mk.injEq] at same
    obtain ⟨rfl, rfl⟩ := same
    have onHead : ∀ {n prog}, heap.Reachable graph n →
        llvmirProg (heap.nodes n) = some prog →
          (heap.nodes (headOf heap n)).deviceUniqueId =
            (heap.nodes n).deviceUniqueId := by
      intro n prog reachable held
      obtain ⟨m, executes, device⟩ :=
        keeps n prog reachable (command_of_llvmirProg held).2
      rw [all.eq_headOf formed reachable executes, (all.kept _).2] at device
      exact device
    have next :=
      (fuseNext_iff_sole formed sole.step.1).mpr
        ⟨sole, prog, prog', held, held', launch⟩
    rw [← onHead sole.step.1 held, ← onHead sole.step.reachable held',
      headOf_of_fuseNext formed sole.step.1 next]
  · intro one
    refine ⟨after, fused, rfl, ?_⟩
    intro n prog reachable _
    refine ⟨_, all.executes_headOf formed ends reachable, ?_⟩
    rw [(all.kept _).2]
    exact one.headOf_eq formed reachable

end Devices

end Cgir.Pass.ProgFuse

namespace Cgir.Mlir.ProgFuse

open Cgir.Library
open Cgir.Model
open Cgir.Pass.ProgFuse

/--
Every program is executed on the device of its node, by the legacy pass and by
import, the pass of the dialect and export, if and only if programs in sequence
with equal launch parameters share their device.
-/
theorem progFuse_keepsDevices_iff (fuse : List CommandProg → CommandProg)
    (heap : Heap) (graph : GraphId) (formed : heap.WellFormed graph)
    (ready : heap.WalkReady graph) (ends : ControlEnds heap graph) :
    KeepsDevices fuse heap graph (passProgFuse fuse heap graph) ∧
        ((∀ n, heap.Reachable graph n → Importable (heap.nodes n)) →
          KeepsDevices fuse heap graph (optimizeProgFuse fuse heap graph)) ↔
      OneDevice heap graph := by
  obtain ⟨after, fused, ran, all⟩ := passProgFuse_spec fuse formed ready ends
  have legacy := all.keepsDevices_iff formed ends
  rw [← ran] at legacy
  constructor
  · rintro ⟨keeps, -⟩
    exact legacy.mp keeps
  · intro one
    refine ⟨legacy.mpr one, ?_⟩
    intro importable
    obtain ⟨after', fused', ran', all'⟩ :=
      optimizeProgFuse_spec fuse formed ready
        ⟨importable, ends.entry_empty, ends.exit_empty⟩
    rw [ran']
    exact (all'.keepsDevices_iff formed ends).mpr one

theorem progFuse_keepsDevices_iff_kernelRow :
    KeepsDevices (fun progs => progs.headD (kernelProg 1)) kernelRow 0
          (passProgFuse (fun progs => progs.headD (kernelProg 1))
            kernelRow 0) ∧
        ((∀ n, kernelRow.Reachable 0 n → Importable (kernelRow.nodes n)) →
          KeepsDevices (fun progs => progs.headD (kernelProg 1)) kernelRow 0
            (optimizeProgFuse (fun progs => progs.headD (kernelProg 1))
              kernelRow 0)) ↔
      OneDevice kernelRow 0 := by
  have numbered : kernelRow.Numbered 0 := by decide
  exact
    progFuse_keepsDevices_iff _ _ _ numbered.wellFormed
      (numbered.walkReady (by decide)) (by decide)

/-- Two kernels in a row on different devices. -/
def kernelsApart : Heap :=
  Heap.ofNodes
    [Heap.linkedNode unspecifiedDeviceUniqueId .empty [] [1],
      kernelNode 1 8 [0] [2],
      kernelNode 2 8 [1] [3],
      Heap.linkedNode unspecifiedDeviceUniqueId .empty [2] []]
    { entry := 0, exit := 3, walkId := 0, isSequence := false }

/-- Both passes run the kernel of device 2 on device 1. -/
theorem progFuse_moves_kernel :
    kernelsApart.WellFormed 0 ∧ kernelsApart.WalkReady 0 ∧
      Plain kernelsApart 0 ∧
        ¬ KeepsDevices (fun progs => progs.headD (kernelProg 1)) kernelsApart
            0 (passProgFuse (fun progs => progs.headD (kernelProg 1))
              kernelsApart 0) ∧
          ¬ KeepsDevices (fun progs => progs.headD (kernelProg 1))
            kernelsApart 0
            (optimizeProgFuse (fun progs => progs.headD (kernelProg 1))
              kernelsApart 0) := by
  have numbered : kernelsApart.Numbered 0 := by decide
  have formed := numbered.wellFormed
  have ready := numbered.walkReady (by decide)
  have plain : Plain kernelsApart 0 :=
    Plain.of_numbered numbered (by decide) rfl rfl
  have ends : ControlEnds kernelsApart 0 := by decide
  have apart : ¬ OneDevice kernelsApart 0 := by
    intro one
    have reachable : kernelsApart.Reachable 0 1 :=
      Heap.reachable_entry.tail (by
        show 1 ∈ kernelsApart.successors 0
        decide)
    have next : Pass.ProgFuse.fuseNext kernelsApart 1 = some 2 := by decide
    obtain ⟨sole, launch⟩ := (fuseNext_iff_sole formed reachable).mp next
    exact absurd (one 1 2 sole launch) (by decide)
  refine ⟨formed, ready, plain, ?_, ?_⟩
  · obtain ⟨after, fused, ran, all⟩ :=
      passProgFuse_spec (fun progs => progs.headD (kernelProg 1)) formed ready
        ends
    rw [ran, all.keepsDevices_iff formed ends]
    exact apart
  · obtain ⟨after, fused, ran, all⟩ :=
      optimizeProgFuse_spec (fun progs => progs.headD (kernelProg 1)) formed
        ready plain
    rw [ran, all.keepsDevices_iff formed ends]
    exact apart

end Cgir.Mlir.ProgFuse
