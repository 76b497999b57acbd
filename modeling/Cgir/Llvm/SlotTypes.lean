import Cgir.Llvm.Fuse
import Cgir.Llvm.PackedAgree

/-!
# The types of fused slots

A fused slot has the type of the first unpacked parameter that is routed to it,
and every other one is asserted to have that type.  Only value keys hold a type,
so `wellTyped_iff` asks that no two parameters of different types meet in one of
the other keys.
-/

namespace Cgir.Llvm

open Cgir.Library Cgir.Model

/-- Parameter `j` of the unpacked leaf `i`. -/
structure LeafParam (inputs : List FuseInput) (i j : Nat) (input : FuseInput)
    (type : IrType) : Prop where
  here : inputs[i]? = some input
  leaf : input.isWrapper = false
  unpacked : input.isPackedLeaf = false
  typed : input.entry.params[j]? = some type

/-- Types that are used in a chain have different addresses. -/
def TypesUniqued (typeId : IrType → Address) (inputs : List FuseInput) :
    Prop :=
  ∀ i j input type i' j' input' type', LeafParam inputs i j input type →
    LeafParam inputs i' j' input' type' → typeId type = typeId type' →
      type = type'

/--
No slot is used with two types, and the value that is passed for a parameter has
the parameter's type.
-/
structure WellTyped (inputs : List FuseInput) (dedup : Deduplicated) :
    Prop where
  consistent : ∀ i j input type i' j' input' type',
    LeafParam inputs i j input type → LeafParam inputs i' j' input' type' →
      dedup.index i j = dedup.index i' j' → type = type'
  passed : ∀ i j input type, LeafParam inputs i j input type →
    ∃ k, dedup.index i j = some k ∧
      (slotTypes inputs dedup)[k]? = some (some type)

/-- The identity of a parameter; a null slot is identified by its address. -/
def FuseInput.slotIdentity (input : FuseInput) (j : Nat) : Identity :=
  if input.slot j = 0 then .address else input.identity j

/--
Two slots are identified alike by what is not their type: both by descriptors of
one kind and one size with the same bytes, or both by one address.
-/
def MeetUntyped (memory : Memory) (first second : Identity)
    (slot slot' : Address) : Prop :=
  match first, second with
  | .described param, .described param' =>
      param.kind = param'.kind ∧ paramWidth param = paramWidth param' ∧
        readBytes memory slot (paramWidth param) =
          readBytes memory slot' (paramWidth param)
  | .address, .address => slot = slot'
  | _, _ => False

/-- Parameters of different types are identified apart. -/
def TypesSeparated (memory : Memory) (inputs : List FuseInput) : Prop :=
  ∀ i j input type i' j' input' type', LeafParam inputs i j input type →
    LeafParam inputs i' j' input' type' → type ≠ type' →
      ¬ MeetUntyped memory (input.slotIdentity j) (input'.slotIdentity j')
        (input.slot j) (input'.slot j')

/-! ## Leaves -/

/-- An unpacked leaf has a slot for every parameter of its entry. -/
theorem fuseInput_leaf {prog : CommandProg} {input : FuseInput}
    (run : fuseInput prog = some input) (leaf : input.isWrapper = false)
    (unpacked : input.isPackedLeaf = false) :
    input.arity = input.entry.params.length := by
  simp only [fuseInput, Option.bind_eq_bind, Option.bind_eq_some_iff,
    Option.pure_def, Option.some.injEq] at run
  obtain ⟨module, -, ⟨found, entry⟩, -, classified, isClass, slots, taken,
    rfl⟩ := run
  simp only [FuseInput.isWrapper, FuseInput.isPackedLeaf,
    decide_eq_false_iff_not] at leaf unpacked
  have arity : classified.arity = entry.params.length := by
    cases found with
    | taskSpawn =>
        rw [classify] at isClass
        split at isClass
        · obtain rfl := Option.some.inj isClass
          exact (leaf rfl).elim
        · split at isClass
          · obtain ⟨params, -, rfl⟩ := Option.map_eq_some_iff.mp isClass
            exact (unpacked rfl).elim
          · obtain rfl := Option.some.inj isClass
            rfl
    | wrapper =>
        obtain rfl := Option.some.inj isClass
        exact (leaf rfl).elim
    | symbol | kernel =>
        obtain rfl := Option.some.inj isClass
        rfl
  exact (snapshot_length taken).trans arity

section Leaves

variable {memory : Memory} {typeId : IrType → Address}
  {progs : List CommandProg} {inputs : List FuseInput}

theorem LeafParam.bound (run : fuseInputs progs = some inputs) {i j : Nat}
    {input : FuseInput} {type : IrType}
    (param : LeafParam inputs i j input type) : j < input.arity := by
  obtain ⟨prog, -, isInput⟩ := fuseInputs_getElem? run param.here
  rw [fuseInput_leaf isInput param.leaf param.unpacked]
  exact (List.getElem?_eq_some_iff.mp param.typed).1

/-- The key of a slot is the key of its identity. -/
theorem slotKey_eq_slotIdentity (input : FuseInput) (j : Nat) :
    slotKey memory typeId input j =
      (input.slotIdentity j).key memory typeId (input.slot j) := by
  unfold FuseInput.slotIdentity
  split
  · rename_i null
    rw [slotKey, if_pos null, Identity.key, null]
  · rename_i nonNull
    exact slotKey_eq_key nonNull

/-- A value identity has the type of its parameter. -/
theorem LeafParam.type_of_value {i j : Nat} {input : FuseInput}
    {type other : IrType} (param : LeafParam inputs i j input type)
    (identity : input.slotIdentity j = .value other) : other = type := by
  unfold FuseInput.slotIdentity at identity
  split at identity
  · cases identity
  · rcases identity_cases input j with
      ⟨_, -, -, described⟩ | ⟨-, ⟨found, typed, value⟩ | address⟩
    · rw [described] at identity
      cases identity
    · rw [value] at identity
      obtain rfl := Identity.value.inj identity
      have entry := ptypes_entry typed
      rw [param.typed] at entry
      exact (Option.some.inj entry).symm
    · rw [address] at identity
      cases identity

/-- Parameters that share a key have one type, or are identified without it. -/
theorem meetUntyped_of_slotKey {i j i' j' : Nat} {input input' : FuseInput}
    {type type' : IrType} (uniqued : TypesUniqued typeId inputs)
    (param : LeafParam inputs i j input type)
    (param' : LeafParam inputs i' j' input' type')
    (same : slotKey memory typeId input j = slotKey memory typeId input' j') :
    type = type' ∨
      MeetUntyped memory (input.slotIdentity j) (input'.slotIdentity j')
        (input.slot j) (input'.slot j') := by
  rw [slotKey_eq_slotIdentity, slotKey_eq_slotIdentity, Identity.key_eq_iff]
    at same
  cases first : input.slotIdentity j <;>
    cases second : input'.slotIdentity j' <;> rw [first, second] at same
  case described.described => exact Or.inr same
  case address.address => exact Or.inr same
  case value.value found found' =>
    obtain rfl := param.type_of_value first
    obtain rfl := param'.type_of_value second
    exact
      Or.inl
        (uniqued i j input found i' j' input' found' param param' same.1)
  all_goals exact same.elim

/-- Slots that are identified alike without a type share a key. -/
theorem slotKey_of_meetUntyped {j j' : Nat} {input input' : FuseInput}
    (meet : MeetUntyped memory (input.slotIdentity j) (input'.slotIdentity j')
      (input.slot j) (input'.slot j')) :
    slotKey memory typeId input j = slotKey memory typeId input' j' := by
  rw [slotKey_eq_slotIdentity, slotKey_eq_slotIdentity, Identity.key_eq_iff]
  cases first : input.slotIdentity j <;>
    cases second : input'.slotIdentity j' <;> rw [first, second] at meet
  case described.described => exact meet
  case address.address => exact meet
  all_goals exact meet.elim

/-! ## Uses -/

/-- A use of a slot is one by a parameter of an unpacked leaf. -/
theorem mem_slotUses {dedup : Deduplicated} {k : Nat} {type : IrType} :
    (k, type) ∈ slotUses inputs dedup ↔
      ∃ i j input, LeafParam inputs i j input type ∧
        dedup.index i j = some k := by
  simp only [slotUses, List.mem_flatMap, Prod.exists]
  constructor
  · rintro ⟨input, i, here, use⟩
    split at use
    · cases use
    · rename_i unpacked
      simp only [Bool.or_eq_true, not_or, Bool.not_eq_true] at unpacked
      obtain ⟨⟨found, j⟩, typed, mapped⟩ := List.mem_filterMap.mp use
      obtain ⟨index, atIndex, same⟩ := Option.map_eq_some_iff.mp mapped
      obtain ⟨rfl, rfl⟩ := Prod.mk.inj same
      exact
        ⟨i, j, input,
          ⟨List.mem_zipIdx_iff_getElem?.mp here, unpacked.1, unpacked.2,
            List.mem_zipIdx_iff_getElem?.mp typed⟩, atIndex⟩
  · rintro ⟨i, j, input, param, atIndex⟩
    refine ⟨input, i, List.mem_zipIdx_iff_getElem?.mpr param.here, ?_⟩
    rw [param.leaf, param.unpacked]
    refine List.mem_filterMap.mpr
      ⟨(type, j), List.mem_zipIdx_iff_getElem?.mpr param.typed, ?_⟩
    simp [atIndex]

/-- A slot that is used with one type has it. -/
theorem slotTypes_of_consistent {dedup : Deduplicated} {k : Nat}
    {type : IrType} (bound : k < dedup.table.entries.length)
    (used : (k, type) ∈ slotUses inputs dedup)
    (consistent : ∀ other, (k, other) ∈ slotUses inputs dedup →
      other = type) :
    (slotTypes inputs dedup)[k]? = some (some type) := by
  rw [slotTypes, List.getElem?_map, List.getElem?_range bound,
    Option.map_some, Option.some.injEq]
  cases found : (slotUses inputs dedup).find? fun use => use.1 = k with
  | none =>
      have absent := List.find?_eq_none.mp found _ used
      simp at absent
  | some first =>
      obtain ⟨index, other⟩ := first
      have same : index = k := by
        simpa using List.find?_some found
      obtain rfl := same
      rw [consistent other (List.mem_of_find?_eq_some found)]
      rfl

end Leaves

/--
The slots of a chain are well typed exactly when no two parameters of different
types are identified alike.
-/
theorem wellTyped_iff (memory : Memory) (typeId : IrType → Address)
    (progs : List CommandProg) (inputs : List FuseInput)
    (dedup : Deduplicated)
    (fused : fuseDedup memory typeId progs = some (inputs, dedup))
    (uniqued : TypesUniqued typeId inputs) :
    WellTyped inputs dedup ↔ TypesSeparated memory inputs := by
  obtain ⟨run, rfl⟩ := fuseDedup_eq fused
  have keys : ∀ i j input type i' j' input' type',
      LeafParam inputs i j input type →
        LeafParam inputs i' j' input' type' →
          ((deduplicate memory typeId inputs).index i j =
              (deduplicate memory typeId inputs).index i' j' ↔
            slotKey memory typeId input j =
              slotKey memory typeId input' j') := by
    intro i j input type i' j' input' type' param param'
    exact
      index_eq_iff param.here param'.here param.leaf param'.leaf
        (param.bound run) (param'.bound run)
  constructor
  · intro typed i j input type i' j' input' type' param param' differ meet
    apply differ
    apply typed.consistent i j input type i' j' input' type' param param'
    exact
      (keys i j input type i' j' input' type' param param').mpr
        (slotKey_of_meetUntyped meet)
  · intro separated
    have consistent : ∀ i j input type i' j' input' type',
        LeafParam inputs i j input type →
          LeafParam inputs i' j' input' type' →
            (deduplicate memory typeId inputs).index i j =
                (deduplicate memory typeId inputs).index i' j' →
              type = type' := by
      intro i j input type i' j' input' type' param param' shared
      rw [keys i j input type i' j' input' type' param param'] at shared
      rcases meetUntyped_of_slotKey uniqued param param' shared with
        same | meet
      · exact same
      · by_contra differ
        exact
          separated i j input type i' j' input' type' param param' differ meet
    refine ⟨consistent, ?_⟩
    intro i j input type param
    have built := deduplicate_deduped memory typeId inputs
    obtain ⟨k, atIndex, found⟩ :=
      built.leaf param.here param.leaf (param.bound run)
    obtain ⟨unique, stored, -⟩ := built.records.stored found
    refine ⟨k, atIndex, ?_⟩
    apply slotTypes_of_consistent (List.getElem?_eq_some_iff.mp stored).1
    · exact mem_slotUses.mpr ⟨i, j, input, param, atIndex⟩
    · intro other used
      obtain ⟨i', j', input', param', atIndex'⟩ := mem_slotUses.mp used
      exact
        consistent i' j' input' other i j input type param' param
          (atIndex'.trans atIndex.symm)

/-- A body over one scalar. -/
def scalarBody (type : IrType) : IrFunction where
  name := "body"
  linkage := .external
  isDeclaration := false
  returnsVoid := true
  params := [type]

/-- A task over one scalar, captured by copy. -/
def scalarTask (type : IrType) (slot : Address) : CommandProg :=
  let task := onePointerTask .unpackedParams
  { task with
    args := some (.slots [some slot])
    source :=
      { task.source with
        raw := some (.module ⟨[scalarBody type]⟩)
        params := some [⟨.copy, type.storeSize, 0⟩] } }

/-- The input for such a task. -/
def scalarInput (type : IrType) (slot : Address) : FuseInput where
  entry := scalarBody type
  shape := .leaf
  bufSize := 0
  slots := [slot]
  valueDedup := true
  params := some [⟨.copy, type.storeSize, 0⟩]

theorem scalarInput_describes (type : IrType) (slot : Address) :
    (scalarInput type slot).DescribesEntry := by
  intro j param other _ described typed
  match j with
  | 0 =>
      obtain rfl := Option.some.inj described
      obtain rfl := Option.some.inj typed
      rfl
  | _ + 1 => exact (Option.some_ne_none _ typed.symm).elim

/-- A counter and a weight. -/
def intAndFloat : List FuseInput :=
  [scalarInput (.integer 32) 4096, scalarInput .float 8192]

theorem intAndFloat_uniqued : TypesUniqued pagedTypeId intAndFloat := by
  have types : ∀ i j input type, LeafParam intAndFloat i j input type →
      type = .integer 32 ∨ type = .float := by
    intro i j input type param
    match i, j, param.here, param.typed with
    | 0, 0, here, typed =>
        obtain rfl := Option.some.inj here
        exact Or.inl (Option.some.inj typed).symm
    | 1, 0, here, typed =>
        obtain rfl := Option.some.inj here
        exact Or.inr (Option.some.inj typed).symm
    | 0, _ + 1, here, typed | 1, _ + 1, here, typed =>
        obtain rfl := Option.some.inj here
        cases typed
    | _ + 2, _, here, _ => cases here
  intro i j input type i' j' input' type' param param' same
  rcases types i j input type param with rfl | rfl <;>
    rcases types i' j' input' type' param' with rfl | rfl
  · rfl
  · exact absurd same (by decide)
  · exact absurd same (by decide)
  · rfl

theorem wellTyped_iff_intAndFloat :
    WellTyped intAndFloat
        (deduplicate pagedMemory pagedTypeId intAndFloat) ↔
      TypesSeparated pagedMemory intAndFloat :=
  wellTyped_iff pagedMemory pagedTypeId
    [scalarTask (.integer 32) 4096, scalarTask .float 8192] _ _ rfl
    intAndFloat_uniqued

/-- Both are zero and share a slot. -/
theorem not_wellTyped_zeros :
    fuseDedup (fun _ => 0) pagedTypeId
        [scalarTask (.integer 32) 4096, scalarTask .float 8192] =
          some (intAndFloat,
            deduplicate (fun _ => 0) pagedTypeId intAndFloat) ∧
      (∀ input ∈ intAndFloat, input.DescribesEntry) ∧
      (deduplicate (fun _ => 0) pagedTypeId intAndFloat).indexMap =
          [[0], [0]] ∧
        ¬ WellTyped intAndFloat
          (deduplicate (fun _ => 0) pagedTypeId intAndFloat) := by
  refine ⟨rfl, ?_, by decide, ?_⟩
  · intro input member
    simp only [intAndFloat, List.mem_cons, List.not_mem_nil, or_false]
      at member
    rcases member with rfl | rfl <;> exact scalarInput_describes _ _
  · intro typed
    have same :=
      typed.consistent 0 0 (scalarInput (.integer 32) 4096) (.integer 32) 1 0
        (scalarInput .float 8192) .float ⟨rfl, rfl, rfl, rfl⟩
        ⟨rfl, rfl, rfl, rfl⟩ (by decide)
    cases same

end Cgir.Llvm
