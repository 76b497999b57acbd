import Cgir.Llvm.WrapperRun

/-!
# Linking the programs of a chain

The functions of a module, and those of the module that fusion links.  Every
definition gets the prefix of its program, so the entry of a program is found
under its fused name (`linked_entry`).  What a definition means depends on the
symbols that are installed for the names that its module leaves open.
-/

namespace Cgir.Llvm

open Cgir.Model

/-! ## Fused names -/

theorem fusedName_toList (i : Nat) (name : String) :
    (fusedName i name).toList =
      ['_', '_', 'f', 'z'] ++
        (Nat.toDigits 10 i ++ '_' :: name.toList) := by
  simp [fusedName, fusePrefix, ← Nat.toList_repr]

/-- Lists that go up to the first separator. -/
theorem append_cons_inj {α : Type} {first second rest rest' : List α}
    {separator : α} (absent : separator ∉ first) (absent' : separator ∉ second)
    (same : first ++ separator :: rest = second ++ separator :: rest') :
    first = second ∧ rest = rest' := by
  induction first generalizing second with
  | nil =>
      cases second with
      | nil => exact ⟨rfl, (List.cons.inj same).2⟩
      | cons item items =>
          exact (absent' (by simp [(List.cons.inj same).1])).elim
  | cons item items ih =>
      cases second with
      | nil => exact (absent (by simp [← (List.cons.inj same).1])).elim
      | cons other others =>
          obtain ⟨rfl, tails⟩ := List.cons.inj same
          obtain ⟨rfl, rests⟩ := ih (fun member => absent (by simp [member]))
            (fun member => absent' (by simp [member])) tails
          exact ⟨rfl, rests⟩

/-- No two programs of a chain define one name. -/
theorem fusedName_inj {i i' : Nat} {name name' : String} :
    fusedName i name = fusedName i' name' ↔ i = i' ∧ name = name' := by
  constructor
  · intro same
    have lists := congrArg String.toList same
    rw [fusedName_toList, fusedName_toList, List.append_cancel_left_eq]
      at lists
    obtain ⟨digits, names⟩ := append_cons_inj Nat.underscore_not_in_toDigits
      Nat.underscore_not_in_toDigits lists
    refine ⟨?_, String.toList_inj.mp names⟩
    rw [← Nat.ofDigitChars_ten_toDigits (n := i), digits,
      Nat.ofDigitChars_ten_toDigits]
  · rintro ⟨rfl, rfl⟩
    rfl

/-! ## Functions -/

/-- A module with the meaning of its definitions for the installed symbols. -/
structure ModuleCode where
  module : IrModule
  /-- the names that the module refers to and does not define -/
  externals : List String
  code : Symbols → String → Kernel
  code_congr : ∀ symbols symbols' : Symbols,
    (∀ name ∈ externals, symbols name = symbols' name) →
      code symbols = code symbols'

/-- `prefix_functions`: the definitions of a module, under prefixed names. -/
def ModuleCode.definitions (unit : ModuleCode) (symbols : Symbols)
    (before : String) : List (String × Kernel) :=
  (unit.module.functions.filter fun function => !function.isDeclaration).map
    fun function => (before ++ function.name, unit.code symbols function.name)

/-- The definitions of the linked module, which all see the same symbols. -/
def linkedDefinitions (units : List ModuleCode) (symbols : Symbols) :
    List (String × Kernel) :=
  units.zipIdx.flatMap fun (unit, i) =>
    unit.definitions symbols (fusePrefix i)

/-- Look a function up by its name. -/
def lookup (definitions : List (String × Kernel)) : Functions :=
  fun name => (definitions.find? fun found => found.1 = name).map Prod.snd

/-- The functions of a module that is compiled alone. -/
def ModuleCode.functions (unit : ModuleCode) (symbols : Symbols) :
    Functions :=
  lookup (unit.definitions symbols "")

/-- The functions of a fused module. -/
def fusedFunctions (units : List ModuleCode) (stackAt : Nat → Address)
    (slots : FusedSlots) (symbols : Symbols) : Functions :=
  fun name =>
    if name = fusedWrapper then
      some (runBody (lookup (linkedDefinitions units symbols)) stackAt
        slots.hostWrapper)
    else
      lookup (linkedDefinitions units symbols) name

section Lookup

variable {unit : ModuleCode} {symbols : Symbols} {function : IrFunction}

/-- All definitions of a name mean the same. -/
theorem lookup_eq {definitions : List (String × Kernel)} {name : String}
    {kernel : Kernel} (member : (name, kernel) ∈ definitions)
    (unique : ∀ other, (name, other) ∈ definitions → other = kernel) :
    lookup definitions name = some kernel := by
  rw [lookup]
  cases found : definitions.find? fun found => found.1 = name with
  | none =>
      have absent := List.find?_eq_none.mp found _ member
      simp at absent
  | some first =>
      obtain ⟨name', other⟩ := first
      have same : name' = name := by simpa using List.find?_some found
      subst same
      rw [Option.map_some, unique other (List.mem_of_find?_eq_some found)]

theorem mem_definitions {before name : String} {kernel : Kernel} :
    (name, kernel) ∈ unit.definitions symbols before ↔
      ∃ function ∈ unit.module.functions, function.isDeclaration = false ∧
        name = before ++ function.name ∧
          kernel = unit.code symbols function.name := by
  simp only [ModuleCode.definitions, List.mem_map, List.mem_filter,
    Bool.not_eq_true', Prod.mk.injEq, and_assoc]
  refine exists_congr fun function => and_congr_right fun _ =>
    and_congr_right fun _ => ?_
  exact and_congr eq_comm eq_comm

/-- A module compiled alone finds its definitions. -/
theorem functions_entry (member : function ∈ unit.module.functions)
    (defined : function.isDeclaration = false) :
    unit.functions symbols function.name =
      some (unit.code symbols function.name) := by
  apply lookup_eq
  · exact mem_definitions.mpr ⟨function, member, defined, by simp, rfl⟩
  · intro other found
    obtain ⟨function', -, -, same, rfl⟩ := mem_definitions.mp found
    rw [String.empty_append] at same
    rw [same]

/-- The linked module has the entry of every program under its fused name. -/
theorem linked_entry {units : List ModuleCode} {i : Nat}
    (at_i : units[i]? = some unit)
    (member : function ∈ unit.module.functions)
    (defined : function.isDeclaration = false) :
    lookup (linkedDefinitions units symbols) (fusedName i function.name) =
      some (unit.code symbols function.name) := by
  apply lookup_eq
  · refine List.mem_flatMap.mpr ⟨(unit, i), ?_, ?_⟩
    · exact List.mem_zipIdx_iff_getElem?.mpr at_i
    · exact mem_definitions.mpr ⟨function, member, defined, rfl, rfl⟩
  · intro other found
    obtain ⟨⟨unit', i'⟩, atUnit, found'⟩ := List.mem_flatMap.mp found
    obtain ⟨function', -, -, same, rfl⟩ := mem_definitions.mp found'
    obtain ⟨rfl, names⟩ := fusedName_inj.mp same
    have atUnit' := List.mem_zipIdx_iff_getElem?.mp atUnit
    obtain rfl := Option.some.inj (at_i.symm.trans atUnit')
    rw [names]

end Lookup

end Cgir.Llvm
