import Mathlib.Data.List.Induction
import Cgir.Llvm.HeldSound

/-!
# The destination of a fusion

Two things that the destination of `command_graph_prog_fuse_llvmir` is to carry
over from the programs of the chain: the addresses of their externalized
globals, and the target of the first program.
-/

namespace Cgir.Llvm

open Cgir.Library Cgir.Model

/-! ## Externalized globals -/

/-- The address of the first entry of a name. -/
def firstBinding (externs : List CommandProgExtern) (name : String) :
    Option Address :=
  (externs.find? fun entry => entry.name = some name).map (·.addr)

/--
A merged table has no name twice, none that the programs do not have, and binds
every name of a program to the address that the program's own table installs.
-/
structure KeepsBindings (progs : List CommandProg)
    (merged : List CommandProgExtern) : Prop where
  once : (merged.map (·.name)).Nodup
  known : ∀ entry ∈ merged, entry.name.isSome ∧
    ∃ prog ∈ progs, ∃ own ∈ prog.source.externs, own.name = entry.name
  kept : ∀ prog ∈ progs, ∀ name addr,
    installedSymbols prog.source.externs name = some addr →
      installedSymbols merged name = some addr

/--
No two programs install one name at different addresses, and the first program
that has a name lists it with one address first and last.
-/
structure BindingsAgree (progs : List CommandProg) : Prop where
  across : ∀ first ∈ progs, ∀ second ∈ progs, ∀ name addr other,
    installedSymbols first.source.externs name = some addr →
      installedSymbols second.source.externs name = some other →
        addr = other
  within : ∀ earlier prog later, progs = earlier ++ prog :: later →
    ∀ name,
      (∀ other ∈ earlier, installedSymbols other.source.externs name = none) →
        firstBinding prog.source.externs name =
          installedSymbols prog.source.externs name

/-! ### Tables -/

section Tables

variable {externs : List CommandProgExtern} {name : String}

theorem installedSymbols_append (entry : CommandProgExtern) :
    installedSymbols (externs ++ [entry]) name =
      if entry.name = some name then some entry.addr
      else installedSymbols externs name := by
  simp only [installedSymbols, List.foldl_append, List.foldl_cons,
    List.foldl_nil]
  cases named : entry.name with
  | none => simp
  | some other => simp [Function.update_apply, eq_comm]

/-- The last entry of a name is installed. -/
theorem installedSymbols_eq_some {addr : Address}
    (installed : installedSymbols externs name = some addr) :
    ∃ entry ∈ externs, entry.name = some name ∧ entry.addr = addr := by
  induction externs using List.reverseRecOn with
  | nil => cases installed
  | append_singleton rest entry induction =>
      rw [installedSymbols_append] at installed
      split at installed
      · rename_i named
        exact ⟨entry, by simp, named, Option.some.inj installed⟩
      · obtain ⟨other, member, isNamed, address⟩ := induction installed
        exact ⟨other, List.mem_append_left _ member, isNamed, address⟩

theorem installedSymbols_eq_none_iff :
    installedSymbols externs name = none ↔
      ∀ entry ∈ externs, entry.name ≠ some name := by
  induction externs using List.reverseRecOn with
  | nil => simp [installedSymbols]
  | append_singleton rest entry induction =>
      rw [installedSymbols_append]
      split
      · rename_i named
        simp [named]
      · rename_i other
        rw [induction]
        simp only [List.mem_append, List.mem_singleton, or_imp, forall_and,
          forall_eq]
        exact (and_iff_left other).symm

theorem firstBinding_eq_none_iff :
    firstBinding externs name = none ↔
      ∀ entry ∈ externs, entry.name ≠ some name := by
  simp [firstBinding]

theorem firstBinding_append (rest : List CommandProgExtern) :
    firstBinding (externs ++ rest) name =
      (firstBinding externs name).or (firstBinding rest name) := by
  simp only [firstBinding, List.find?_append]
  cases externs.find? fun entry => entry.name = some name with
  | none => rfl
  | some entry => rfl

/-- In a table without repetitions the first entry of a name is its last one. -/
theorem installedSymbols_of_nodup (once : (externs.map (·.name)).Nodup) :
    installedSymbols externs name = firstBinding externs name := by
  cases installed : installedSymbols externs name with
  | none =>
      rw [installedSymbols_eq_none_iff] at installed
      exact (firstBinding_eq_none_iff.mpr installed).symm
  | some addr =>
      obtain ⟨entry, member, named, rfl⟩ := installedSymbols_eq_some installed
      cases found : externs.find? fun other => other.name = some name with
      | none =>
          have absent := List.find?_eq_none.mp found entry member
          simp [named] at absent
      | some first =>
          have isNamed : first.name = some name := by
            simpa using List.find?_some found
          have same : first = entry :=
            List.inj_on_of_nodup_map once (List.mem_of_find?_eq_some found)
              member (isNamed.trans named.symm)
          rw [firstBinding, found, same]
          rfl

end Tables

/-! ### The merged table -/

/-- A merge keeps the first entry of every name. -/
structure FirstEntries (all merged : List CommandProgExtern) : Prop where
  once : (merged.map (·.name)).Nodup
  named : ∀ entry ∈ merged, entry.name.isSome ∧ entry ∈ all
  first : ∀ name, firstBinding merged name = firstBinding all name

theorem mergeExterns_firstEntries (progs : List CommandProg) :
    FirstEntries (progs.flatMap fun prog => prog.source.externs)
      (mergeExterns progs) := by
  unfold mergeExterns
  refine Loop.foldl_invariant _ FirstEntries _ _ ?_ ?_
  · rintro done entry rest merged - holds
    have skipped : (∀ name, entry.name = some name →
        firstBinding done name ≠ none) →
        FirstEntries (done ++ [entry]) merged := by
      intro bound
      refine ⟨holds.once, ?_, ?_⟩
      · intro other member
        have kept := holds.named other member
        exact ⟨kept.1, List.mem_append_left _ kept.2⟩
      · intro name
        rw [holds.first, firstBinding_append]
        cases before : firstBinding done name with
        | some addr => rfl
        | none =>
            have other : entry.name ≠ some name :=
              fun named => bound name named before
            simp [firstBinding, other]
    split
    · rename_i dropped
      apply skipped
      intro name named absent
      rw [← holds.first, firstBinding_eq_none_iff] at absent
      simp only [named, Option.isNone_some, Bool.false_or, List.any_eq_true,
        decide_eq_true_eq] at dropped
      obtain ⟨other, member, same⟩ := dropped
      exact absent other member same
    · rename_i fresh
      simp only [Bool.or_eq_true, not_or, Bool.not_eq_true,
        List.any_eq_false, decide_eq_true_eq,
        Option.isNone_eq_false_iff] at fresh
      refine ⟨?_, ?_, ?_⟩
      · rw [List.map_append, List.nodup_append]
        refine ⟨holds.once, List.nodup_singleton _, ?_⟩
        rintro name member _ last rfl
        obtain ⟨other, isOther, same⟩ := List.mem_map.mp member
        exact fresh.2 other isOther
          (same.trans (List.mem_singleton.mp last))
      · intro other member
        rcases List.mem_append.mp member with old | last
        · have kept := holds.named other old
          exact ⟨kept.1, List.mem_append_left _ kept.2⟩
        · obtain rfl := List.mem_singleton.mp last
          exact ⟨fresh.1, by simp⟩
      · intro name
        rw [firstBinding_append, firstBinding_append, holds.first]
  · exact ⟨List.nodup_nil, by simp, fun _ => rfl⟩

/-- The merged table installs the first entry of every name. -/
theorem installedSymbols_mergeExterns (progs : List CommandProg)
    (name : String) :
    installedSymbols (mergeExterns progs) name =
      firstBinding (progs.flatMap fun prog => prog.source.externs) name := by
  have merged := mergeExterns_firstEntries progs
  rw [installedSymbols_of_nodup merged.once, merged.first]

/-- The first program that has a name decides its first entry. -/
theorem firstBinding_split {earlier later : List CommandProg}
    {prog : CommandProg} {name : String}
    (before : ∀ other ∈ earlier,
      installedSymbols other.source.externs name = none)
    (has : installedSymbols prog.source.externs name ≠ none) :
    firstBinding
        ((earlier ++ prog :: later).flatMap fun prog => prog.source.externs)
        name =
      firstBinding prog.source.externs name := by
  have none : firstBinding
      (earlier.flatMap fun prog => prog.source.externs) name = none := by
    rw [firstBinding_eq_none_iff]
    intro entry member
    obtain ⟨other, isOther, own⟩ := List.mem_flatMap.mp member
    exact installedSymbols_eq_none_iff.mp (before other isOther) entry own
  rw [List.flatMap_append, List.flatMap_cons, firstBinding_append, none,
    Option.none_or, firstBinding_append]
  cases own : firstBinding prog.source.externs name with
  | some addr => rfl
  | none =>
      rw [firstBinding_eq_none_iff, ← installedSymbols_eq_none_iff] at own
      exact (has own).elim

/-- The merged table keeps the bindings of programs that agree, and only then. -/
theorem keepsBindings_mergeExterns_iff (progs : List CommandProg) :
    KeepsBindings progs (mergeExterns progs) ↔ BindingsAgree progs := by
  constructor
  · intro keeps
    refine ⟨?_, ?_⟩
    · intro first isFirst second isSecond name addr other installed installed'
      have same := keeps.kept first isFirst name addr installed
      rw [keeps.kept second isSecond name other installed'] at same
      exact (Option.some.inj same).symm
    · intro earlier prog later split name before
      cases installed : installedSymbols prog.source.externs name with
      | none =>
          rw [installedSymbols_eq_none_iff] at installed
          exact firstBinding_eq_none_iff.mpr installed
      | some addr =>
          have kept := keeps.kept prog (by simp [split]) name addr installed
          rw [installedSymbols_mergeExterns, split,
            firstBinding_split before (by simp [installed])] at kept
          exact kept
  · intro agree
    have merged := mergeExterns_firstEntries progs
    refine ⟨merged.once, ?_, ?_⟩
    · intro entry member
      obtain ⟨named, inAll⟩ := merged.named entry member
      obtain ⟨prog, isProg, own⟩ := List.mem_flatMap.mp inAll
      exact ⟨named, prog, isProg, entry, own, rfl⟩
    · intro prog isProg name addr installed
      -- The first program of the chain that has the name.
      obtain ⟨first, found⟩ : ∃ first, progs.find? (fun other =>
          (installedSymbols other.source.externs name).isSome) =
            some first := by
        rw [← Option.isSome_iff_exists, List.find?_isSome]
        exact ⟨prog, isProg, by simp [installed]⟩
      obtain ⟨has, earlier, later, split, before⟩ :=
        List.find?_eq_some_iff_append.mp found
      have unbound : ∀ other ∈ earlier,
          installedSymbols other.source.externs name = none := by
        intro other member
        simpa using before other member
      obtain ⟨own, isOwn⟩ := Option.isSome_iff_exists.mp has
      rw [installedSymbols_mergeExterns, split,
        firstBinding_split unbound (by simp [isOwn]),
        agree.within earlier first later split name unbound, isOwn,
        agree.across first (by simp [split]) prog isProg name own addr isOwn
          installed]

/--
The destination of a fusion keeps the bindings of all programs of the chain
exactly when they agree.
-/
theorem fuseLlvmir_keepsBindings_iff (env : FuseEnv) (memory : Memory)
    (store after : ProgStore) (progs : List ProgId) (dst : ProgId)
    (returned : store.fuseLlvmir env memory progs dst = some after) :
    KeepsBindings (store.values progs) (after.progs dst).prog.source.externs ↔
      BindingsAgree (store.values progs) := by
  obtain ⟨fused, ran, written⟩ := ProgStore.fuseLlvmir_dst returned
  rw [written]
  dsimp only
  rw [fuseLlvmir_externs ran]
  exact keepsBindings_mergeExterns_iff _

/-- A task that refers to the externalized global `counter`. -/
def counterTask (addr : Address) : CommandProg :=
  { valueTask with
    source :=
      { valueTask.source with externs := [⟨some "counter", addr⟩] } }

/-- Two tasks over one `counter`, the second of which also has a `total`. -/
def sharedTasks : ProgStore where
  progs
    | 0 => heldFrom 0 (counterTask 4096)
    | _ =>
        let task := counterTask 4096
        heldFrom 4
          { task with
            source :=
              { task.source with
                externs :=
                  [⟨some "total", 8192⟩, ⟨some "counter", 4096⟩] } }
  next := 8
  freed := []

theorem fuseLlvmir_keepsBindings_sharedTasks :
    ∃ after,
      sharedTasks.fuseLlvmir plainEnv pagedMemory [0, 1] 0 = some after ∧
        (after.progs 0).prog.source.externs =
            [⟨some "counter", 4096⟩, ⟨some "total", 8192⟩] ∧
          (KeepsBindings (sharedTasks.values [0, 1])
              (after.progs 0).prog.source.externs ↔
            BindingsAgree (sharedTasks.values [0, 1])) := by
  obtain ⟨after, returned, merged⟩ : ∃ after,
      sharedTasks.fuseLlvmir plainEnv pagedMemory [0, 1] 0 = some after ∧
        (after.progs 0).prog.source.externs =
          [⟨some "counter", 4096⟩, ⟨some "total", 8192⟩] :=
    ⟨_, rfl, rfl⟩
  exact
    ⟨after, returned, merged,
      fuseLlvmir_keepsBindings_iff plainEnv pagedMemory sharedTasks after
        [0, 1] 0 returned⟩

/-- Two tasks whose `counter` is not the same object. -/
def counterTasks : ProgStore where
  progs
    | 0 => heldFrom 0 (counterTask 4096)
    | _ => heldFrom 4 (counterTask 8192)
  next := 8
  freed := []

/-- The fused program binds the `counter` of the second task to the first one's. -/
theorem fuseLlvmir_drops_binding :
    ∃ after,
      counterTasks.fuseLlvmir plainEnv pagedMemory [0, 1] 0 = some after ∧
        (after.progs 0).prog.source.externs = [⟨some "counter", 4096⟩] ∧
        ¬ KeepsBindings (counterTasks.values [0, 1])
          (after.progs 0).prog.source.externs := by
  refine ⟨_, rfl, rfl, ?_⟩
  intro keeps
  have kept := keeps.kept (counterTask 8192) (by simp [ProgStore.values,
    counterTasks, heldFrom]) "counter" 8192 rfl
  exact absurd (Option.some.inj kept) (by decide)

/-! ## The target -/

/-- A program that the constructor of `command_t` left as it is. -/
structure FreshProg (prog : CommandProg) : Prop where
  owned : prog.source.owned = false
  symbol : prog.source.symbol = none
  externs : prog.source.externs = []
  externsOwned : prog.source.externsOwned = false
  triple : prog.source.triple = none
  arch : prog.source.arch = none
  runtimeBc : prog.source.runtimeBc = none
  proto : prog.source.proto = .unpackedParams
  params : prog.source.params = none
  paramsOwned : prog.source.paramsOwned = false
  argsOwned : prog.argsOwned = false
  prototype : prog.prototype = .variadic
  argsSize : prog.argsSize = 0
  launchMode : prog.launchMode = .direct
  grid : prog.grid = ⟨0, 0, 0⟩
  block : prog.block = ⟨0, 0, 0⟩

/-- Two programs agree in what compilation and the runtime read. -/
structure SameRead (first second : CommandProg) : Prop where
  type : first.source.type = second.source.type
  raw : first.source.raw = second.source.raw
  symbol : first.source.symbol = second.source.symbol
  triple : first.source.triple = second.source.triple
  arch : first.source.arch = second.source.arch
  runtimeBc : first.source.runtimeBc = second.source.runtimeBc
  proto : first.source.proto = second.source.proto
  params : first.source.params = second.source.params
  externs : first.source.externs = second.source.externs
  args : first.args = second.args
  nArgs : first.nArgs = second.nArgs
  argsSize : first.argsSize = second.argsSize
  prototype : first.prototype = second.prototype
  launcher : first.launcher = second.launcher
  grid : first.grid = second.grid
  block : first.block = second.block
  launchMode : first.launchMode = second.launchMode

/-- The program has nothing that directs it at a device. -/
structure NoTarget (prog : CommandProg) : Prop where
  triple : prog.source.triple = none
  arch : prog.source.arch = none
  runtimeBc : prog.source.runtimeBc = none

/-- Whether fusion returns does not depend on the destination. -/
theorem fuseLlvmir_isSome_eq (env : FuseEnv) (memory : Memory)
    (store : ProgStore) (progs : List ProgId) (dst other : ProgId) :
    (store.fuseLlvmir env memory progs dst).isSome =
      (store.fuseLlvmir env memory progs other).isSome := by
  have returns : ∀ first second : ProgId,
      (store.fuseLlvmir env memory progs first).isSome →
        (store.fuseLlvmir env memory progs second).isSome := by
    intro first second
    simp only [ProgStore.fuseLlvmir, Option.isSome_iff_exists,
      Option.bind_eq_bind, Option.bind_eq_some_iff, Option.pure_def,
      Option.some.injEq]
    rintro ⟨after, two, chain, head, isHead, collected, ran, -⟩
    exact ⟨_, two, chain, head, isHead, collected, ran, rfl⟩
  rw [Bool.eq_iff_iff]
  exact ⟨returns dst other, returns other dst⟩

/--
Fusion into a fresh destination returns when fusion into the first program does,
and gives the same program exactly when the first program has no target.
-/
theorem fuseLlvmir_sameRead_iff (env : FuseEnv) (memory : Memory)
    (store : ProgStore) (first : ProgId) (rest : List ProgId) (dst : ProgId)
    (fresh : FreshProg (store.progs dst).prog) :
    ((store.fuseLlvmir env memory (first :: rest) first).isSome =
        (store.fuseLlvmir env memory (first :: rest) dst).isSome) ∧
      ∀ inPlace distinct,
        store.fuseLlvmir env memory (first :: rest) first = some inPlace →
        store.fuseLlvmir env memory (first :: rest) dst = some distinct →
          (SameRead (inPlace.progs first).prog (distinct.progs dst).prog ↔
            NoTarget (store.progs first).prog) := by
  refine ⟨fuseLlvmir_isSome_eq env memory store _ first dst, ?_⟩
  intro inPlace distinct ranFirst ranDst
  have intoFirst := ProgStore.fuseLlvmir_prog ranFirst
  obtain ⟨fused, ran, intoDst⟩ := ProgStore.fuseLlvmir_dst ranDst
  obtain rfl : (inPlace.progs first).prog = fused :=
    Option.some.inj (intoFirst.symm.trans ran)
  obtain ⟨triple, arch, runtimeBc⟩ := fuseLlvmir_target ran rfl
  rw [intoDst, fresh.triple, fresh.arch, fresh.runtimeBc]
  constructor
  · intro same
    exact
      ⟨triple.symm.trans same.triple, arch.symm.trans same.arch,
        runtimeBc.symm.trans same.runtimeBc⟩
  · intro host
    constructor
    case triple => exact triple.trans host.triple
    case arch => exact arch.trans host.arch
    case runtimeBc => exact runtimeBc.trans host.runtimeBc
    all_goals rfl

/-- What the constructor of `command_t` leaves in a program. -/
def freshProg : CommandProg where
  prototype := .variadic
  launcher := none
  args := none
  nArgs := 0
  argsSize := 0
  argsOwned := false
  source :=
    { type := .llvmir
      raw := none
      owned := false
      symbol := none
      externs := []
      externsOwned := false
      triple := none
      arch := none
      runtimeBc := none
      proto := .unpackedParams
      params := none
      paramsOwned := false }
  launchMode := .direct
  grid := ⟨0, 0, 0⟩
  block := ⟨0, 0, 0⟩

theorem freshProg_fresh : FreshProg freshProg := by
  constructor <;> rfl

/-- Two programs, and a destination that is distinct from them. -/
def withDestination (prog : CommandProg) : ProgStore where
  progs
    | 0 => heldFrom 0 prog
    | 1 => heldFrom 4 prog
    | _ => heldFrom 8 freshProg
  next := 12
  freed := []

theorem fuseLlvmir_sameRead_valueTask :
    (((withDestination valueTask).fuseLlvmir plainEnv pagedMemory [0, 1]
          0).isSome =
        ((withDestination valueTask).fuseLlvmir plainEnv pagedMemory [0, 1]
          2).isSome) ∧
      ∀ inPlace distinct,
        (withDestination valueTask).fuseLlvmir plainEnv pagedMemory [0, 1] 0 =
          some inPlace →
        (withDestination valueTask).fuseLlvmir plainEnv pagedMemory [0, 1] 2 =
          some distinct →
          (SameRead (inPlace.progs 0).prog (distinct.progs 2).prog ↔
            NoTarget valueTask) :=
  fuseLlvmir_sameRead_iff plainEnv pagedMemory (withDestination valueTask) 0
    [1] 2 freshProg_fresh

/-- Two device kernels that are fused into a fresh program lose their target. -/
theorem fuseLlvmir_drops_target :
    ∃ inPlace distinct,
      (withDestination deviceKernel).fuseLlvmir plainEnv pagedMemory [0, 1] 0 =
        some inPlace ∧
      (withDestination deviceKernel).fuseLlvmir plainEnv pagedMemory [0, 1] 2 =
        some distinct ∧
      (inPlace.progs 0).prog.source.triple = some "nvptx64-nvidia-cuda" ∧
      (distinct.progs 2).prog.source.triple = none ∧
      ¬ SameRead (inPlace.progs 0).prog (distinct.progs 2).prog := by
  refine ⟨_, _, rfl, rfl, rfl, rfl, ?_⟩
  intro same
  cases same.triple

end Cgir.Llvm
