import Cgir.Llvm.FusedLaunch
import Cgir.Optimizer.Soundness

/-!
# Host programs

The tool chain that `command_graph_prog_fuse_llvmir` and `command_graph_jit_llvmir`
make, and the launches of host programs on the memory of their device.  Compiling
them is lawful.  So is fusing a run of the graph on one device whose programs are a
chain that fusion preserves (`hostTools_lawful`), and with such runs the optimizer
does not change what a graph does (`progFuse_host`).
-/

namespace Cgir.Optimizer

open Cgir.Library
open Cgir.Mlir
open Cgir.Model
open Cgir.Pass.ProgFuse

variable {World : Type}

/-! ## The memory of a device -/

/-- The memory of one device. -/
def onDevice (memory : Memory) (device : DeviceUniqueId) : Llvm.Memory :=
  fun address => memory (device, address)

/-- Another memory for one device. -/
def withDevice (memory : Memory) (device : DeviceUniqueId)
    (inner : Llvm.Memory) : Memory :=
  fun place => if place.1 = device then inner place.2 else memory place

section Devices

variable {memory : Memory} {device : DeviceUniqueId} {inner : Llvm.Memory}

@[simp]
theorem onDevice_withDevice :
    onDevice (withDevice memory device inner) device = inner := by
  funext address
  simp [onDevice, withDevice]

@[simp]
theorem withDevice_withDevice (other : Llvm.Memory) :
    withDevice (withDevice memory device inner) device other =
      withDevice memory device other := by
  funext place
  simp only [withDevice]
  split <;> rfl

@[simp]
theorem withDevice_onDevice :
    withDevice memory device (onDevice memory device) = memory := by
  funext place
  obtain ⟨device', address⟩ := place
  simp only [withDevice, onDevice]
  split
  · rename_i same
    rw [same]
  · rfl

end Devices

/-! ## Launches -/

/-- What fusion, compilation and the launcher find in the process. -/
structure Loader where
  env : Llvm.FuseEnv
  /-- memory when the programs are fused and compiled -/
  recorded : Llvm.Memory
  /-- the functions of the module of a program -/
  functions : CommandProgSource → Llvm.Symbols → Llvm.Functions
  codeAt : CommandProgSource → Address
  ptx : CommandProg → String
  argsAt : CommandProg → Address
  stackAt : Nat → Address

namespace Loader

variable (loader : Loader)

/-- `command_graph_jit_llvmir`. -/
def jit (prog : CommandProg) : CommandProg :=
  Llvm.jitLlvmir loader.recorded (loader.codeAt prog.source) (loader.ptx prog)
    prog

/-- The launch of a host program, which is compiled for it. -/
def launch (prog : CommandProg) : Llvm.Memory → Option Llvm.Memory :=
  Llvm.launch (loader.functions prog.source) loader.stackAt
    (loader.argsAt (loader.jit prog)) (loader.jit prog)

/-- The tool chain; where fusion aborts, it gives what the other one gives. -/
def tools (others : Toolchain) : Toolchain :=
  { others with
    fuse := fun progs =>
      (Llvm.fuseLlvmir loader.env loader.recorded progs).getD
        (others.fuse progs)
    jit := loader.jit }

variable {loader}

theorem jit_host {prog : CommandProg} (host : prog.source.triple = none) :
    loader.jit prog =
      Llvm.jitLlvmir loader.recorded (loader.codeAt prog.source) "" prog :=
  Llvm.jitLlvmir_host _ _ _ host

theorem jit_source {prog : CommandProg} (host : prog.source.triple = none) :
    (loader.jit prog).source = prog.source :=
  Llvm.jitLlvmir_source _ _ _ host

/-- A compiled program is launched as its source. -/
theorem launch_jit {prog : CommandProg} (host : prog.source.triple = none) :
    loader.launch (loader.jit prog) = loader.launch prog := by
  have source := @jit_source loader prog host
  have again : loader.jit (loader.jit prog) = loader.jit prog := by
    rw [jit_host (source ▸ host), source, jit_host host,
      Llvm.jitLlvmir_again _ _ _ host]
  rw [launch, launch, again, source]

end Loader

/--
Host programs change the memory of their device.  They are launched when nothing
but data has been changed since their arguments were installed.
-/
def launches (loader : Loader) (data : Address → Prop) (start : Llvm.Memory)
    (run : Effect (Memory × World)) : Effect (Memory × World)
  | device, .prog prog, first, last =>
      if prog.source.triple = none then
        Llvm.Undisturbed data start (onDevice first.1 device) ∧
          ∃ memory, loader.launch prog (onDevice first.1 device) =
              some memory ∧
            last = (withDevice first.1 device memory, first.2)
      else run device (.prog prog) first last
  | device, command, first, last => run device command first last

theorem launches_host {loader : Loader} {data : Address → Prop}
    {start : Llvm.Memory} {run : Effect (Memory × World)}
    {device : DeviceUniqueId} {prog : CommandProg}
    (host : prog.source.triple = none) {first last : Memory × World} :
    launches loader data start run device (.prog prog) first last ↔
      Llvm.Undisturbed data start (onDevice first.1 device) ∧
        ∃ memory, loader.launch prog (onDevice first.1 device) = some memory ∧
          last = (withDevice first.1 device memory, first.2) := by
  rw [launches, if_pos host]

/-! ## Runs of a graph -/

/--
A run of host programs on one device that is recorded as a chain that fusion
preserves.  The launcher finds the modules, the arguments and the fused module of
this chain.
-/
structure HostRun (loader : Loader) (data : Address → Prop)
    (start : Llvm.Memory) (heap : Heap) (chain : List NodeId)
    (device : DeviceUniqueId) (tasks : List Llvm.Task)
    (inputs : List Llvm.FuseInput) (fused : CommandProg) : Prop where
  device_eq : ∀ n ∈ chain, (heap.nodes n).deviceUniqueId = device
  progs_eq : tasks.map Llvm.Task.prog = progsOf heap chain
  recorded : Llvm.FusedChain loader.env data loader.recorded start tasks inputs
    fused (loader.codeAt fused.source) (loader.argsAt (loader.jit fused))
  functions_eq : ∀ task ∈ tasks,
    loader.functions task.prog.source = task.unit.functions
  codeAt_eq : ∀ task ∈ tasks, loader.codeAt task.prog.source = task.codeAt
  argsAt_eq : ∀ task ∈ tasks,
    loader.argsAt (loader.jit task.prog) = task.argsAt
  fused_eq : loader.functions fused.source =
    Llvm.fusedModule loader.env loader.recorded loader.stackAt tasks inputs

section Runs

variable {loader : Loader} {data : Address → Prop} {start : Llvm.Memory}
  {run : Effect (Memory × World)} {heap : Heap} {device : DeviceUniqueId}

/-- Nodes that launch the programs of a list do so one after another. -/
theorem runs_of_launchAll {chain : List NodeId} {tasks : List Llvm.Task}
    (programs : ∀ n ∈ chain, (llvmirProg (heap.nodes n)).isSome ∧
      (heap.nodes n).deviceUniqueId = device)
    (progs : tasks.map Llvm.Task.prog = progsOf heap chain)
    (launched : ∀ task ∈ tasks, task.prog.source.triple = none ∧
      loader.launch task.prog = task.launch loader.stackAt loader.recorded)
    (keeps : ∀ task ∈ tasks, ∀ memory after,
      Llvm.Undisturbed data start memory →
        task.launch loader.stackAt loader.recorded memory = some after →
          Llvm.Undisturbed data start after)
    {first : Memory × World} {memory : Llvm.Memory}
    (undisturbed : Llvm.Undisturbed data start (onDevice first.1 device))
    (ran : Llvm.launchAll tasks loader.stackAt loader.recorded
      (onDevice first.1 device) = some memory) :
    Runs (performs (launches loader data start run) heap) chain first
      (withDevice first.1 device memory, first.2) := by
  induction chain generalizing tasks first with
  | nil =>
      obtain rfl : tasks = [] := List.map_eq_nil_iff.mp progs
      obtain rfl := Option.some.inj ran
      exact Prod.ext withDevice_onDevice rfl
  | cons n rest induction =>
      obtain ⟨isProg, deviceEq⟩ := programs n List.mem_cons_self
      obtain ⟨prog, held⟩ := Option.isSome_iff_exists.mp isProg
      have split : progsOf heap (n :: rest) = prog :: progsOf heap rest := by
        simp [progsOf, held]
      rw [split] at progs
      obtain ⟨task, others, rfl, rfl, same⟩ := List.map_eq_cons_iff.mp progs
      obtain ⟨host, launch⟩ := launched task List.mem_cons_self
      rw [Llvm.launchAll, List.foldlM_cons] at ran
      obtain ⟨middle, acts, ends⟩ := Option.bind_eq_some_iff.mp ran
      obtain ⟨type, command⟩ := command_of_llvmirProg held
      refine ⟨(withDevice first.1 device middle, first.2), ?_, ?_⟩
      · rw [performs_command type command, deviceEq]
        exact
          (launches_host host).mpr
            ⟨undisturbed, middle, launch ▸ acts, rfl⟩
      · have rested := @induction others
          (fun m member => programs m (List.mem_cons_of_mem _ member)) same
          (fun task member => launched task (List.mem_cons_of_mem _ member))
          (fun task member => keeps task (List.mem_cons_of_mem _ member))
          (withDevice first.1 device middle, first.2)
        simp only [onDevice_withDevice, withDevice_withDevice] at rested
        exact
          rested
            (keeps task List.mem_cons_self _ _ undisturbed acts) ends

/-- The fused program of a run does what its nodes do. -/
theorem HostRun.fused_runs {chain : List NodeId} {tasks : List Llvm.Task}
    {inputs : List Llvm.FuseInput} {fused : CommandProg}
    (hostRun : HostRun loader data start heap chain device tasks inputs fused)
    (programs : ∀ n ∈ chain, (llvmirProg (heap.nodes n)).isSome)
    {first last : Memory × World}
    (acts : launches loader data start run device (.prog fused) first last) :
    Runs (performs (launches loader data start run) heap) chain first last := by
  have recorded := hostRun.recorded
  have host := Llvm.fused_host recorded.returned
    (Llvm.isDeviceChain_tasks recorded.host)
  obtain ⟨undisturbed, memory, launch, rfl⟩ := (launches_host host).mp acts
  rw [Loader.launch, hostRun.fused_eq] at launch
  nth_rewrite 2 [Loader.jit_host host] at launch
  rw [(recorded.later undisturbed).launch_eq loader.stackAt] at launch
  refine runs_of_launchAll
    (fun n member => ⟨programs n member, hostRun.device_eq n member⟩)
    hostRun.progs_eq ?_ ?_ undisturbed launch
  · intro task member
    have host := recorded.host task member
    refine ⟨host, ?_⟩
    funext memory
    rw [Loader.launch, hostRun.functions_eq task member,
      hostRun.argsAt_eq task member, Loader.jit_host host,
      hostRun.codeAt_eq task member]
    rfl
  · intro task member memory after undisturbed ran
    exact recorded.launch_keeps member undisturbed ran

end Runs

/-! ## The tool chain -/

section Tools

variable {loader : Loader} {data : Address → Prop} {start : Llvm.Memory}
  {heap : Heap} {graph : GraphId}

/-- Compiling and fusing host programs is lawful. -/
theorem hostTools_lawful (others : Toolchain)
    (run : Effect (Memory × World))
    (hosts : ∀ n prog, heap.Reachable graph n →
      llvmirProg (heap.nodes n) = some prog → prog.source.triple = none)
    (runs : ∀ chain u, MaximalRun heap graph chain → chain.head? = some u →
      ∃ tasks inputs fused, HostRun loader data start heap chain
        (heap.nodes u).deviceUniqueId tasks inputs fused)
    (pass : CommandGraphPass) :
    Lawful (loader.tools others) (launches loader data start run) heap graph
      pass where
  jit := by
    intro _ n prog reachable held first last
    have host := hosts n prog reachable held
    have host' : (loader.jit prog).source.triple = none :=
      Loader.jit_source host ▸ host
    show launches loader data start run _ (.prog (loader.jit prog)) first last ↔
      _
    rw [launches_host host', launches_host host, Loader.launch_jit host]
  fuse := by
    intro _ chain u maximal isFirst first last acts
    obtain ⟨tasks, inputs, fused, hostRun⟩ := runs chain u maximal isFirst
    have returned := hostRun.recorded.returned
    rw [hostRun.progs_eq] at returned
    have same : (loader.tools others).fuse (progsOf heap chain) = fused := by
      show (Llvm.fuseLlvmir loader.env loader.recorded _).getD _ = fused
      rw [returned, Option.getD_some]
    rw [same] at acts
    exact
      hostRun.fused_runs
        (fun n member => (maximal.isRun.programs n member).2) acts

/--
Prog-fuse with this tool chain, by either optimizer: whatever the graph with the
fused programs does, the graph does that launches the programs one by one.
-/
theorem progFuse_host (others : Toolchain) (run : Effect (Memory × World))
    (optimizable : Optimizable heap graph)
    (hosts : ∀ n prog, heap.Reachable graph n →
      llvmirProg (heap.nodes n) = some prog → prog.source.triple = none)
    (runs : ∀ chain u, MaximalRun heap graph chain → chain.head? = some u →
      ∃ tasks inputs fused, HostRun loader data start heap chain
        (heap.nodes u).deviceUniqueId tasks inputs fused)
    (kind : Kind) :
    ∃ after,
      commandGraphOptimize (loader.tools others) kind heap graph .progFuse =
          some after ∧
        ∀ first last,
          Outcome (launches loader data start run) after graph first last →
            Outcome (launches loader data start run) heap graph first
              last := by
  have noMatrix : MatrixFits heap graph [(kind, .progFuse)] := by
    intro member
    cases List.mem_singleton.mp member
  have refining : CommandGraphPass.progFuse.isRefining = true := rfl
  obtain ⟨after, ran, -, refines⟩ :=
    commandGraphOptimize_refines
      (hostTools_lawful others run hosts runs .progFuse) optimizable refining
      kind noMatrix
  exact ⟨after, ran, refines.sound⟩

end Tools

/-! ## Two counters in a row -/

/-- Two counters, one after the other on a device. -/
def counterRow : Heap :=
  Heap.ofNodes
    [Heap.linkedNode unspecifiedDeviceUniqueId .empty [] [1],
      { Heap.linkedNode 1 .command [0] [2] with
        command := some (.prog (Llvm.addTask 4097 65536).prog) },
      { Heap.linkedNode 1 .command [1] [3] with
        command := some (.prog (Llvm.addTask 8193 131072).prog) },
      Heap.linkedNode unspecifiedDeviceUniqueId .empty [2] []]
    { entry := 0, exit := 3, walkId := 0, isSequence := false }

theorem counterRow_numbered : counterRow.Numbered 0 := by
  decide

/-- The code and the arguments of the counters and of the fused program. -/
def counterLoader : Loader where
  env := Llvm.plainEnv
  recorded := Llvm.pagedMemory
  functions := fun source =>
    if source.proto = .voidPtrptr then
      Llvm.fusedModule Llvm.plainEnv Llvm.pagedMemory (fun _ => 0)
        Llvm.counters Llvm.counterInputs
    else
      (Llvm.totalCode [Llvm.scalarBody (.integer 32)]
        Llvm.addKernel).functions
  codeAt := fun _ => 0
  ptx := fun _ => ""
  argsAt := fun prog =>
    if prog.source.proto = .voidPtrptr then 196608
    else if prog.args = some (.slots [some 4097]) then 65536
    else 131072
  stackAt := fun _ => 0

/-- The counters are the only run. -/
theorem counterRow_run {chain : List NodeId}
    (maximal : MaximalRun counterRow 0 chain) : chain = [1, 2] := by
  have isRun := maximal.isRun
  have program : ∀ n ∈ chain, n = 1 ∨ n = 2 := by
    have listed : ∀ n : Nat, n < counterRow.nodeCount →
        (llvmirProg (counterRow.nodes n)).isSome → n = 1 ∨ n = 2 := by
      decide
    exact fun n member =>
      listed n (counterRow_numbered.lt_of_reachable (isRun.programs n member).1)
        (isRun.programs n member).2
  match chain, maximal.long with
  | first :: second :: rest, _ =>
      have step : second ∈ counterRow.successors first :=
        (List.isChain_cons_cons.mp isRun.series).1.step.2
      rcases program first (by simp) with rfl | rfl
      · obtain rfl : second = 2 := List.mem_singleton.mp step
        cases rest with
        | nil => rfl
        | cons third rest =>
            have step : third ∈ counterRow.successors 2 :=
              (List.isChain_cons_cons.mp
                (List.isChain_cons_cons.mp isRun.series).2).1.step.2
            obtain rfl : third = 3 := List.mem_singleton.mp step
            exact absurd (program 3 (by simp)) (by decide)
      · obtain rfl : second = 3 := List.mem_singleton.mp step
        exact absurd (program 3 (by simp)) (by decide)

theorem counterRow_hostRun :
    ∃ fused, HostRun counterLoader (· = 1048576) Llvm.counterMemory counterRow
      [1, 2] 1 Llvm.counters Llvm.counterInputs fused := by
  obtain ⟨fused, returned⟩ : ∃ fused, Llvm.fuseLlvmir Llvm.plainEnv
      Llvm.pagedMemory (Llvm.counters.map Llvm.Task.prog) = some fused :=
    ⟨_, rfl⟩
  have tasks : ∀ task ∈ Llvm.counters,
      task = Llvm.addTask 4097 65536 ∨ task = Llvm.addTask 8193 131072 := by
    intro task member
    simpa [Llvm.counters] using member
  have fusedProto : fused.source.proto = .voidPtrptr := by
    obtain rfl := Option.some.inj (returned.symm.trans rfl)
    rfl
  have fusedAt : counterLoader.argsAt (counterLoader.jit fused) = 196608 := by
    obtain rfl := Option.some.inj (returned.symm.trans rfl)
    rfl
  refine ⟨fused, ?_⟩
  exact {
    device_eq := by decide
    progs_eq := rfl
    recorded := fusedAt ▸ Llvm.counters_chain returned
    functions_eq := by
      intro task member
      rcases tasks task member with rfl | rfl <;> rfl
    codeAt_eq := by
      intro task member
      rcases tasks task member with rfl | rfl <;> rfl
    argsAt_eq := by
      intro task member
      rcases tasks task member with rfl | rfl <;> rfl
    fused_eq := if_pos fusedProto }

/-- The fused counters do what the counters do. -/
theorem progFuse_host_counters (run : Effect (Memory × World)) :
    ∃ after,
      commandGraphOptimize (counterLoader.tools keeping) .mlir counterRow 0
          .progFuse = some after ∧
        ∀ first last,
          Outcome (launches counterLoader (· = 1048576) Llvm.counterMemory run)
              after 0 first last →
            Outcome
              (launches counterLoader (· = 1048576) Llvm.counterMemory run)
              counterRow 0 first last := by
  refine
    progFuse_host keeping run
      (.of_numbered counterRow_numbered (by decide) (by decide) rfl rfl) ?_ ?_
      .mlir
  · have hosts : ∀ n : Nat, n < counterRow.nodeCount →
        ∀ prog ∈ llvmirProg (counterRow.nodes n),
          prog.source.triple = none := by
      decide
    exact fun n prog reachable held =>
      hosts n (counterRow_numbered.lt_of_reachable reachable) prog held
  · intro chain u maximal isFirst
    obtain rfl := counterRow_run maximal
    obtain rfl : u = 1 := (Option.some.inj isFirst).symm
    obtain ⟨fused, hostRun⟩ := counterRow_hostRun
    exact ⟨_, _, fused, hostRun⟩

end Cgir.Optimizer
