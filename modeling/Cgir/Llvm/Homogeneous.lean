import Mathlib.Data.List.Chain
import Cgir.Library.Loop
import Cgir.Llvm.Fuse

/-!
# Chains that fusion accepts

`command_graph_prog_fuse_llvmir` aborts when packed task bodies are mixed with
other programs, when the first program runs on a device and another does not,
and when a packed body has no params table.  `Homogeneous` is what it demands of
a chain.
-/

namespace Cgir.Llvm

open Cgir.Library Cgir.Model

/-! ## Programs -/

/-- A task body whose entry takes a packed buffer and its size. -/
def isPackedBody (prog : CommandProg) : Bool :=
  prog.launchMode = .taskSpawn &&
    match (parseLlvmir prog.source).bind
        (fuseSelect prog.launchMode prog.source.symbol) with
    | some (_, entry) => isVoidPtrSize entry
    | none => false

/-- A packed body with a params table. -/
def isPackedLeaf (prog : CommandProg) : Bool :=
  isPackedBody prog && prog.source.params.isSome

/-- A packed body without a params table, such as a packed fused program. -/
def isRefused (prog : CommandProg) : Bool :=
  isPackedBody prog && prog.source.params.isNone

/-- The program is compiled for a device. -/
def onDevice (prog : CommandProg) : Bool :=
  prog.source.triple.isSome

/--
A program whose entry is legal for its declared prototype and whose argument
slots are there.
-/
structure Populated (prog : CommandProg) : Prop where
  entry : ∃ module found entry, parseLlvmir prog.source = some module ∧
    fuseSelect prog.launchMode prog.source.symbol module =
        some (found, entry) ∧
      Legal prog.source.proto entry ∧
        ∀ classified, classify prog found entry = some classified →
          (snapshot prog.args classified.arity).isSome

/-- All or none of the programs have the property. -/
def AllOrNone (property : CommandProg → Bool) (progs : List CommandProg) :
    Prop :=
  (∀ prog ∈ progs, property prog = true) ∨
    ∀ prog ∈ progs, property prog = false

instance (property : CommandProg → Bool) (progs : List CommandProg) :
    Decidable (AllOrNone property progs) :=
  inferInstanceAs (Decidable (_ ∨ _))

/-- What fusion demands of a chain. -/
structure Homogeneous (progs : List CommandProg) : Prop where
  packed : AllOrNone isPackedLeaf progs
  device : AllOrNone onDevice progs
  not_refused : ∀ prog ∈ progs, isRefused prog = false

/-- Two programs that may stand in one chain. -/
structure Compatible (first second : CommandProg) : Prop where
  packed : isPackedLeaf first = isPackedLeaf second
  device : onDevice first = onDevice second
  not_refused : isRefused first = false ∧ isRefused second = false

/-! ## Links and chains -/

section Chains

theorem Compatible.trans {first second third : CommandProg}
    (one : Compatible first second) (two : Compatible second third) :
    Compatible first third where
  packed := one.packed.trans two.packed
  device := one.device.trans two.device
  not_refused := ⟨one.not_refused.1, two.not_refused.2⟩

theorem AllOrNone.eq_of_mem {property : CommandProg → Bool}
    {progs : List CommandProg} (same : AllOrNone property progs)
    {first second : CommandProg} (firstMem : first ∈ progs)
    (secondMem : second ∈ progs) : property first = property second := by
  rcases same with all | none
  · rw [all first firstMem, all second secondMem]
  · rw [none first firstMem, none second secondMem]

/-- A property that every program shares with the first one. -/
theorem allOrNone_of_head {property : CommandProg → Bool}
    {progs : List CommandProg} (head : CommandProg)
    (same : ∀ prog ∈ progs, property head = property prog) :
    AllOrNone property progs := by
  cases value : property head with
  | true => exact Or.inl fun prog member => (same prog member) ▸ value
  | false => exact Or.inr fun prog member => (same prog member) ▸ value

/-- A chain of two or more programs is homogeneous link by link. -/
theorem homogeneous_iff_isChain {progs : List CommandProg}
    (long : 2 ≤ progs.length) :
    Homogeneous progs ↔ List.IsChain Compatible progs := by
  constructor
  · intro homogeneous
    rw [List.isChain_iff_forall_rel_of_append_cons_cons]
    intro first second before after split
    have firstMem : first ∈ progs := by simp [split]
    have secondMem : second ∈ progs := by simp [split]
    exact {
      packed := homogeneous.packed.eq_of_mem firstMem secondMem
      device := homogeneous.device.eq_of_mem firstMem secondMem
      not_refused :=
        ⟨homogeneous.not_refused first firstMem,
          homogeneous.not_refused second secondMem⟩ }
  · intro chain
    have trans : IsTrans CommandProg Compatible :=
      ⟨fun _ _ _ => Compatible.trans⟩
    have pairs := chain.pairwise
    cases progs with
    | nil => exact absurd long (by simp)
    | cons head rest =>
        have others := (List.pairwise_cons.mp pairs).1
        have accepted : isRefused head = false := by
          cases rest with
          | nil => exact absurd long (by simp)
          | cons next rest =>
              exact (others next List.mem_cons_self).not_refused.1
        refine
          ⟨allOrNone_of_head head ?_, allOrNone_of_head head ?_, ?_⟩
        · intro prog member
          rcases List.mem_cons.mp member with rfl | inside
          · rfl
          · exact (others prog inside).packed
        · intro prog member
          rcases List.mem_cons.mp member with rfl | inside
          · rfl
          · exact (others prog inside).device
        · intro prog member
          rcases List.mem_cons.mp member with rfl | inside
          · exact accepted
          · exact (others prog inside).not_refused.2

end Chains

/-! ## Inputs -/

section Inputs

variable {prog : CommandProg} {module : IrModule} {found : Found}
  {entry : IrFunction}

/-- A packed body is no wrapper. -/
theorem isVoidVoidptr_of_isVoidPtrSize
    (packed : isVoidPtrSize entry = true) : isVoidVoidptr entry = false := by
  unfold isVoidPtrSize at packed
  unfold isVoidVoidptr
  rw [Bool.and_eq_true] at packed
  obtain ⟨-, two⟩ := packed
  split at two
  · rename_i params
    rw [params, Bool.and_false]
  · cases two

theorem isPackedBody_eq (parsed : parseLlvmir prog.source = some module)
    (selected : fuseSelect prog.launchMode prog.source.symbol module =
      some (found, entry)) :
    isPackedBody prog =
      (decide (prog.launchMode = .taskSpawn) && isVoidPtrSize entry) := by
  rw [isPackedBody, parsed, Option.bind_some, selected]

/-- Only a refused program has no shape. -/
theorem classify_cases (parsed : parseLlvmir prog.source = some module)
    (selected : fuseSelect prog.launchMode prog.source.symbol module =
      some (found, entry)) :
    (isRefused prog = true ∧ classify prog found entry = none) ∨
      (isRefused prog = false ∧
        ∃ classified, classify prog found entry = some classified ∧
          decide (classified.shape = .packedLeaf) = isPackedLeaf prog) := by
  have body := isPackedBody_eq parsed selected
  cases mode : prog.launchMode with
  | direct =>
      rw [mode] at body
      rw [isRefused, isPackedLeaf, body]
      rcases found_direct mode selected with
        ⟨rfl, -⟩ | ⟨rfl, -⟩ | ⟨rfl, -⟩
      · exact Or.inr ⟨rfl, _, rfl, rfl⟩
      · exact Or.inr ⟨rfl, _, rfl, rfl⟩
      · exact Or.inr ⟨rfl, _, rfl, rfl⟩
  | taskSpawn =>
      rw [mode] at body
      obtain rfl := found_taskSpawn mode selected
      rw [isRefused, isPackedLeaf, body]
      cases packed : isVoidPtrSize entry with
      | false =>
          refine Or.inr ⟨rfl, ?_⟩
          cases wrapper : isVoidVoidptr entry with
          | true => simp [classify, wrapper, wrapperOf]
          | false => simp [classify, wrapper, packed, leafOf]
      | true =>
          have wrapper := isVoidVoidptr_of_isVoidPtrSize packed
          cases params : prog.source.params with
          | none =>
              refine Or.inl ⟨rfl, ?_⟩
              simp [classify, wrapper, packed, params]
          | some params =>
              refine Or.inr ⟨rfl, ?_⟩
              simp [classify, wrapper, packed, params]

/-- A populated program that is not refused is an input. -/
theorem Populated.fuseInput (populated : Populated prog)
    (accepted : isRefused prog = false) :
    ∃ input, fuseInput prog = some input ∧
      input.isPackedLeaf = isPackedLeaf prog := by
  obtain ⟨module, found, entry, parsed, selected, -, args⟩ := populated.entry
  rcases classify_cases parsed selected with
    ⟨refused, -⟩ | ⟨-, classified, shaped, packed⟩
  · rw [accepted] at refused
    cases refused
  · obtain ⟨slots, taken⟩ := Option.isSome_iff_exists.mp (args _ shaped)
    refine
      ⟨{ entry := entry
         shape := classified.shape
         bufSize := classified.bufSize
         slots := slots
         valueDedup := classified.valueDedup
         params := prog.source.params }, ?_, packed⟩
    simp only [Llvm.fuseInput, parsed, selected, shaped, taken,
      Option.bind_eq_bind, Option.bind_some]
    rfl

end Inputs

section Core

variable {progs : List CommandProg}

/-- The inputs of programs that are not refused. -/
theorem exists_inputs (populated : ∀ prog ∈ progs, Populated prog)
    (accepted : ∀ prog ∈ progs, isRefused prog = false) :
    ∃ inputs, progs.mapM fuseInput = some inputs ∧
      inputs.map FuseInput.isPackedLeaf = progs.map isPackedLeaf := by
  induction progs with
  | nil => exact ⟨[], rfl, rfl⟩
  | cons prog rest induction =>
      obtain ⟨input, collected, packed⟩ :=
        (populated prog List.mem_cons_self).fuseInput
          (accepted prog List.mem_cons_self)
      obtain ⟨inputs, mapped, shapes⟩ :=
        induction
          (fun other member => populated other (List.mem_cons_of_mem _ member))
          (fun other member => accepted other (List.mem_cons_of_mem _ member))
      refine ⟨input :: inputs, ?_, ?_⟩
      · rw [List.mapM_cons, collected, mapped]
        rfl
      · rw [List.map_cons, List.map_cons, packed, shapes]

/-- Fusion does not abort on a homogeneous chain. -/
theorem Homogeneous.fuseInputs (homogeneous : Homogeneous progs)
    (populated : ∀ prog ∈ progs, Populated prog) :
    ∃ inputs, fuseInputs progs = some inputs := by
  obtain ⟨inputs, mapped, shapes⟩ :=
    exists_inputs populated homogeneous.not_refused
  have packed : packedHomogeneous inputs = true := by
    have anyEq : inputs.any FuseInput.isPackedLeaf =
        progs.any isPackedLeaf := by
      have same := congrArg (List.any · id) shapes
      simpa [List.any_map] using same
    have allEq : inputs.all FuseInput.isPackedLeaf =
        progs.all isPackedLeaf := by
      have same := congrArg (List.all · id) shapes
      simpa [List.all_map] using same
    rw [packedHomogeneous, anyEq, allEq]
    rcases homogeneous.packed with all | none
    · have every : progs.all isPackedLeaf = true := List.all_eq_true.mpr all
      rw [every, Bool.or_true]
    · have nowhere : progs.any isPackedLeaf = false := by
        rw [List.any_eq_false]
        intro prog member
        rw [none prog member]
        exact Bool.false_ne_true
      rw [nowhere]
      rfl
  have device : deviceHomogeneous progs = true := by
    unfold deviceHomogeneous
    split
    · rfl
    · rename_i first rest
      rcases homogeneous.device with all | none
      · have every : ((first :: rest).all fun prog =>
            prog.source.triple.isSome) = true := List.all_eq_true.mpr all
        rw [every, Bool.or_true]
      · have host := none first List.mem_cons_self
        rw [onDevice] at host
        rw [Option.isSome_eq_false_iff.mp host]
        rfl
  refine ⟨inputs, ?_⟩
  simp only [Llvm.fuseInputs, mapped, Option.bind_eq_bind, Option.bind_some]
  rw [packed, device]
  rfl

variable {env : FuseEnv} {memory : Memory} {fusedProg : CommandProg}

/-- Fusion returns when it has its inputs. -/
theorem fuseLlvmir_isSome {inputs : List FuseInput} (nonempty : progs ≠ [])
    (collected : fuseInputs progs = some inputs) :
    (fuseLlvmir env memory progs).isSome := by
  cases progs with
  | nil => exact (nonempty rfl).elim
  | cons first rest =>
      simp only [fuseLlvmir, fuseDedup, collected, List.head?_cons,
        Option.map_some, Option.bind_eq_bind, Option.bind_some]
      rfl

/-- A fused program has a module and the launch parameters of the first one. -/
theorem fuseLlvmir_launch
    (fused : fuseLlvmir env memory progs = some fusedProg) :
    ∃ first, progs.head? = some first ∧
      (fusedProg.launchMode, fusedProg.grid, fusedProg.block) =
        (first.launchMode, first.grid, first.block) ∧
      fusedProg.source.type = .llvmir ∧ fusedProg.source.raw.isSome := by
  simp only [fuseLlvmir, Option.bind_eq_bind, Option.bind_eq_some_iff,
    Option.pure_def, Option.some.injEq] at fused
  obtain ⟨first, isFirst, inputs, -, rfl⟩ := fused
  exact ⟨first, isFirst, rfl, rfl, rfl⟩

end Core

end Cgir.Llvm
