import Mathlib.Data.List.Basic
import Cgir.Model.Command

/-!
# The entry of a program

How `command_graph_prog_fuse_llvmir` and `command_graph_jit_llvmir` find the
entry function of a program, and when they find the same one.  Both documents
say: the explicit symbol, else `__fused_wrapper`, else the first void
definition; each is its own cascade (`selections_agree_iff`).
-/

namespace Cgir.Llvm

open Cgir.Model

/-! ## Functions of a module -/

/-- The name of a fused entry. -/
def fusedWrapper : String := "__fused_wrapper"

/-- `is_void_voidptr`. -/
def isVoidVoidptr (function : IrFunction) : Bool :=
  function.returnsVoid &&
    match function.params with
    | [only] => only.isPointerTy
    | _ => false

/-- `is_void_ptr_size`. -/
def isVoidPtrSize (function : IrFunction) : Bool :=
  function.returnsVoid &&
    match function.params with
    | [first, second] => first.isPointerTy && second.isIntegerTy
    | _ => false

/-- `find_kernel`. -/
def findKernel (module : IrModule) : Option IrFunction :=
  module.functions.find? fun function =>
    !function.isDeclaration && function.returnsVoid

/-- `find_packed_wrapper`. -/
def findPackedWrapper (module : IrModule) : Option IrFunction :=
  module.functions.find? fun function =>
    !function.isDeclaration && function.hasExternalLinkage &&
      isVoidVoidptr function

/-- `find_external_def`. -/
def findExternalDef (module : IrModule) : Option IrFunction :=
  module.functions.find? fun function =>
    !function.isDeclaration && function.hasExternalLinkage

/-! ## The entry that fusion selects -/

/-- Where fusion found an entry: its branches treat the entry differently. -/
inductive Found where
  | taskSpawn
  | symbol
  | wrapper
  | kernel
  deriving DecidableEq, Repr

/-- A definition; a declaration or nothing makes fusion abort. -/
def definition (found : Found) (entry : Option IrFunction) :
    Option (Found × IrFunction) :=
  match entry with
  | some function =>
      if function.isDeclaration then none else some (found, function)
  | none => none

/--
The entry that `command_graph_prog_fuse_llvmir` selects, and the branch that
selects it; `none` when it aborts because there is none.
-/
def fuseSelect (launchMode : LaunchMode) (symbol : Option String)
    (module : IrModule) : Option (Found × IrFunction) :=
  match launchMode with
  | .taskSpawn =>
      definition .taskSpawn
        ((symbol.bind module.getFunction).orElse fun _ =>
          (module.getFunction fusedWrapper).orElse fun _ =>
            (findPackedWrapper module).orElse fun _ =>
              findExternalDef module)
  | .direct =>
      match symbol with
      | some name => definition .symbol (module.getFunction name)
      | none =>
          match module.getFunction fusedWrapper with
          | some wrapper =>
              if !wrapper.isDeclaration && isVoidVoidptr wrapper then
                some (.wrapper, wrapper)
              else
                (findKernel module).map (Found.kernel, ·)
          | none => (findKernel module).map (Found.kernel, ·)

/-! ## The entry that compilation selects -/

/-- The first external definition, else the first void definition. -/
def jitFallback (module : IrModule) : Option IrFunction :=
  (findExternalDef module).orElse fun _ => findKernel module

/-- The resolution of the entry in `command_graph_jit_llvmir`. -/
def jitResolve (symbol : Option String) (module : IrModule) :
    Option IrFunction :=
  match symbol with
  | some name => module.getFunction name
  | none =>
      match module.getFunction fusedWrapper with
      | some wrapper =>
          if !wrapper.isDeclaration then some wrapper else jitFallback module
      | none => jitFallback module

/-- A missing, only declared or local entry makes compilation skip. -/
def resolvable (entry : Option IrFunction) : Option IrFunction :=
  entry.filter fun function =>
    !function.isDeclaration && !function.hasLocalLinkage

/-- The entry that `command_graph_jit_llvmir` compiles, if it does not skip. -/
def jitSelect (symbol : Option String) (module : IrModule) :
    Option IrFunction :=
  resolvable (jitResolve symbol module)

/-! ## Agreement -/

/-- The first void definition, if there is one, is local. -/
def KernelLocal (module : IrModule) : Prop :=
  ∀ kernel, findKernel module = some kernel → kernel.hasLocalLinkage

/-- The first void definition, if there is one, is not local. -/
def KernelVisible (module : IrModule) : Prop :=
  ∀ kernel, findKernel module = some kernel →
    kernel.hasLocalLinkage = false

/-- No external definition has the shape `void(ptr)`. -/
def NoPackedWrapper (module : IrModule) : Prop :=
  ∀ function ∈ module.functions, function.isDeclaration = false →
    function.hasExternalLinkage → isVoidVoidptr function = false

/--
When a task body without a symbol has one entry.  A defined `__fused_wrapper`
must not be local; with a declared one nothing must be left for compilation to
find; with none, the first external definition must have the shape `void(ptr)`
unless no external definition has.
-/
def TaskEntriesAgree (module : IrModule) : Prop :=
  match module.getFunction fusedWrapper with
  | some wrapper =>
      if wrapper.isDeclaration then
        findExternalDef module = none ∧ KernelLocal module
      else
        wrapper.hasLocalLinkage = false
  | none =>
      match findExternalDef module with
      | some first => isVoidVoidptr first ∨ NoPackedWrapper module
      | none => KernelLocal module

/--
When a directly launched program without a symbol and without a definition of
`__fused_wrapper` has one entry: the first external definition, if there is one,
is the first void definition.
-/
def KernelsAgree (module : IrModule) : Prop :=
  match findExternalDef module with
  | some first => findKernel module = some first
  | none => KernelVisible module

/--
When a directly launched program without a symbol has one entry.  A defined
`__fused_wrapper` of shape `void(ptr)` must not be local; one of another shape
must be the first void definition or, when it is local, there must be none.
-/
def DirectEntriesAgree (module : IrModule) : Prop :=
  match module.getFunction fusedWrapper with
  | some wrapper =>
      if wrapper.isDeclaration then
        KernelsAgree module
      else if isVoidVoidptr wrapper then
        wrapper.hasLocalLinkage = false
      else if wrapper.hasLocalLinkage then
        findKernel module = none
      else
        findKernel module = some wrapper
  | none => KernelsAgree module

/-- When fusion and compilation find the same entry without a symbol. -/
def EntriesAgree (launchMode : LaunchMode) (module : IrModule) : Prop :=
  match launchMode with
  | .taskSpawn => TaskEntriesAgree module
  | .direct => DirectEntriesAgree module

section Agreement

variable {module : IrModule}

theorem findKernel_defined {kernel : IrFunction}
    (found : findKernel module = some kernel) :
    kernel.isDeclaration = false := by
  have holds := List.find?_some found
  simp only [Bool.and_eq_true, Bool.not_eq_true'] at holds
  exact holds.1

theorem findExternalDef_visible {first : IrFunction}
    (found : findExternalDef module = some first) :
    first.isDeclaration = false ∧ first.hasLocalLinkage = false := by
  have holds := List.find?_some found
  simp only [Bool.and_eq_true, Bool.not_eq_true'] at holds
  refine ⟨holds.1, ?_⟩
  have external : first.linkage = .external := by
    simpa [IrFunction.hasExternalLinkage] using holds.2
  simp [IrFunction.hasLocalLinkage, external]

/-- A packed wrapper is an external definition. -/
theorem findPackedWrapper_none
    (missing : findExternalDef module = none) :
    findPackedWrapper module = none := by
  rw [findExternalDef, List.find?_eq_none] at missing
  rw [findPackedWrapper, List.find?_eq_none]
  intro function member holds
  simp only [Bool.and_eq_true] at holds
  exact missing function member (by simpa using holds.1)

/-- Preferring the shape `void(ptr)` picks the first external definition. -/
theorem packed_orElse_iff {first : IrFunction}
    (found : findExternalDef module = some first) :
    ((findPackedWrapper module).orElse fun _ => some first) = some first ↔
      isVoidVoidptr first ∨ NoPackedWrapper module := by
  have noPacked : findPackedWrapper module = none ↔
      NoPackedWrapper module := by
    rw [findPackedWrapper, List.find?_eq_none]
    refine forall_congr' fun function => forall_congr' fun _ => ?_
    cases function.isDeclaration <;> simp
  cases packed : findPackedWrapper module with
  | none =>
      simp only [Option.orElse_none, true_iff]
      exact Or.inr (noPacked.mp packed)
  | some wrapper =>
      have shape := List.find?_some packed
      simp only [Bool.and_eq_true] at shape
      simp only [Option.orElse_some, Option.some.injEq]
      constructor
      · rintro rfl
        exact Or.inl shape.2
      · rintro (packedFirst | none)
        · -- The first external definition is itself the first packed wrapper.
          obtain ⟨-, before, after, split, earlier⟩ :=
            List.find?_eq_some_iff_append.mp found
          have holds := List.find?_some found
          have same : findPackedWrapper module = some first := by
            rw [findPackedWrapper, List.find?_eq_some_iff_append]
            refine ⟨by simp [holds, packedFirst], before, after, split, ?_⟩
            intro function member
            have notExternal := earlier function member
            simp only [Bool.not_eq_true', Bool.and_eq_false_iff]
              at notExternal ⊢
            exact Or.inl notExternal
          rw [packed, Option.some.injEq] at same
          exact same
        · rw [noPacked.mpr none] at packed
          exact (Option.some_ne_none _ packed.symm).elim

/-- What compilation falls back to when nothing is fused. -/
theorem resolvable_fallback :
    resolvable (jitFallback module) =
      match findExternalDef module with
      | some first => some first
      | none =>
          (findKernel module).filter fun kernel => !kernel.hasLocalLinkage := by
  cases found : findExternalDef module with
  | some first =>
      obtain ⟨defined, visible⟩ := findExternalDef_visible found
      simp [resolvable, jitFallback, found, defined, visible]
  | none =>
      rw [jitFallback, found, Option.orElse_none]
      cases kernel : findKernel module with
      | none => rfl
      | some function =>
          simp [resolvable, Option.filter, findKernel_defined kernel]

theorem resolvable_defined {wrapper : IrFunction}
    (defined : wrapper.isDeclaration = false) :
    resolvable (some wrapper) =
      if wrapper.hasLocalLinkage then none else some wrapper := by
  cases linkage : wrapper.hasLocalLinkage <;>
    simp [resolvable, Option.filter, defined, linkage]

/-- Nothing is left to find. -/
theorem fallback_none_iff :
    resolvable (jitFallback module) = none ↔
      findExternalDef module = none ∧ KernelLocal module := by
  rw [resolvable_fallback]
  cases found : findExternalDef module with
  | some first => simp
  | none =>
      cases kernel : findKernel module with
      | none => simp [KernelLocal, kernel]
      | some function => simp [KernelLocal, kernel, Option.filter_eq_none_iff]

/-- Falling back finds the first void definition. -/
theorem kernel_eq_fallback_iff :
    findKernel module = resolvable (jitFallback module) ↔
      KernelsAgree module := by
  rw [resolvable_fallback, KernelsAgree]
  cases found : findExternalDef module with
  | some first => exact Iff.rfl
  | none =>
      cases kernel : findKernel module with
      | none => simp [KernelVisible, kernel]
      | some function =>
          cases linkage : function.hasLocalLinkage <;>
            simp [KernelVisible, kernel, Option.filter, linkage]

theorem definition_defined {entry : Option IrFunction} (found : Found)
    (defined : ∀ function, entry = some function →
      function.isDeclaration = false) :
    (definition found entry).map Prod.snd = entry := by
  cases entry with
  | none => rfl
  | some function => simp [definition, defined function rfl]

theorem task_agree_iff :
    (fuseSelect .taskSpawn none module).map Prod.snd =
        jitSelect none module ↔
      TaskEntriesAgree module := by
  simp only [fuseSelect, jitSelect, jitResolve, TaskEntriesAgree,
    Option.bind_none, Option.orElse_none]
  cases wrapped : module.getFunction fusedWrapper with
  | some wrapper =>
      rw [Option.orElse_some]
      cases declared : wrapper.isDeclaration with
      | true =>
          simp only [definition, declared, if_true, Bool.not_true,
            Bool.false_eq_true, if_false, Option.map_none]
          rw [eq_comm, fallback_none_iff]
      | false =>
          simp only [definition, declared, Bool.not_false, if_true,
            Bool.false_eq_true, if_false, Option.map_some]
          rw [resolvable_defined declared]
          cases wrapper.hasLocalLinkage <;> simp
  | none =>
      rw [Option.orElse_none]
      cases found : findExternalDef module with
      | some first =>
          have defined : ∀ function,
              ((findPackedWrapper module).orElse fun _ => some first) =
                some function → function.isDeclaration = false := by
            intro function chosen
            cases packed : findPackedWrapper module with
            | some wrapper =>
                have holds := List.find?_some packed
                simp only [Bool.and_eq_true, Bool.not_eq_true'] at holds
                rw [packed, Option.orElse_some, Option.some.injEq] at chosen
                exact chosen ▸ holds.1.1
            | none =>
                rw [packed, Option.orElse_none, Option.some.injEq] at chosen
                exact chosen ▸ (findExternalDef_visible found).1
          rw [resolvable_fallback, found, definition_defined _ defined]
          exact packed_orElse_iff found
      | none =>
          rw [findPackedWrapper_none found, Option.orElse_none]
          simp only [definition, Option.map_none]
          rw [eq_comm, fallback_none_iff]
          exact and_iff_right found

theorem direct_agree_iff :
    (fuseSelect .direct none module).map Prod.snd =
        jitSelect none module ↔
      DirectEntriesAgree module := by
  have kernels :
      ((findKernel module).map (Found.kernel, ·)).map Prod.snd =
        findKernel module := by
    simp [Option.map_map, Function.comp_def]
  simp only [fuseSelect, jitSelect, jitResolve, DirectEntriesAgree]
  cases wrapped : module.getFunction fusedWrapper with
  | none =>
      simp only [kernels]
      exact kernel_eq_fallback_iff
  | some wrapper =>
      cases declared : wrapper.isDeclaration with
      | true =>
          simp only [declared, Bool.not_true, Bool.false_and,
            Bool.false_eq_true, if_false, if_true, kernels]
          exact kernel_eq_fallback_iff
      | false =>
          simp only [declared, Bool.not_false, Bool.true_and, if_true,
            Bool.false_eq_true, if_false]
          rw [resolvable_defined declared]
          cases isVoidVoidptr wrapper <;> cases wrapper.hasLocalLinkage <;>
            simp [kernels]

end Agreement

/--
Fusion and compilation select the same entry for a program without a symbol if
and only if its functions are as `EntriesAgree` says.
-/
theorem selections_agree_iff (launchMode : LaunchMode) (module : IrModule) :
    (fuseSelect launchMode none module).map Prod.snd =
        jitSelect none module ↔
      EntriesAgree launchMode module := by
  cases launchMode with
  | taskSpawn => exact task_agree_iff
  | direct => exact direct_agree_iff

/-- A helper that returns a value comes before the kernel. -/
def helperFirst : IrModule where
  functions :=
    [{ name := "helper"
       linkage := .external
       isDeclaration := false
       returnsVoid := false
       params := [.integer 32] },
      { name := "kernel"
        linkage := .external
        isDeclaration := false
        returnsVoid := true
        params := [.ptr] }]

/-- Fusion selects the kernel and compilation the helper. -/
theorem selections_differ :
    ((fuseSelect .direct none helperFirst).map fun found =>
          found.2.name) = some "kernel" ∧
      (jitSelect none helperFirst).map IrFunction.name = some "helper" ∧
        (fuseSelect .direct none helperFirst).map Prod.snd ≠
          jitSelect none helperFirst := by
  decide

end Cgir.Llvm
