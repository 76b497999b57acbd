import Cgir.Llvm.Dedup

/-!
# Deduplication keeps arguments, and where it loses aliases

A key determines the bytes of its slot, so a shared slot holds the value of
every parameter that is routed to it (`dedup_keeps_args`).  The converse needs
one form of identity: `aliasComplete_iff` says when two pointer parameters that
hold the same pointer share a slot.
-/

namespace Cgir.Llvm

open Cgir.Library Cgir.Model

namespace FuseInput

/--
The number of bytes of a leaf parameter: the size of the capture for a packed
body, the store size of the entry's parameter otherwise.
-/
def paramSize (input : FuseInput) (j : Nat) : Nat :=
  if input.isPackedLeaf then
    input.slotSize j
  else
    match input.entry.params[j]? with
    | some type => type.storeSize
    | none => 0

/--
A parameter of pointer type; a packed body knows its pointers by the kind of
the capture.
-/
def isPointerParam (input : FuseInput) (j : Nat) : Bool :=
  if input.isPackedLeaf then
    input.slotIsRef j
  else
    match input.entry.params[j]? with
    | some type => type.isPointerTy
    | none => false

/-- The descriptors that are present have the sizes of the entry's parameters. -/
def DescribesEntry (input : FuseInput) : Prop :=
  ∀ j param type, input.isPackedLeaf = false →
    input.descriptor j = some param → input.entry.params[j]? = some type →
      paramWidth param = type.storeSize

end FuseInput

/-! ## No argument changes -/

/-- The slots of the leaves of a chain are not null. -/
def NonNull (inputs : List FuseInput) : Prop :=
  ∀ input ∈ inputs, input.isWrapper = false →
    ∀ j < input.arity, input.slot j ≠ 0

/-- Every input finds its arguments behind the unique slots. -/
structure ArgsKept (memory : Memory) (inputs : List FuseInput)
    (dedup : Deduplicated) : Prop where
  leaf : ∀ {i j : Nat} {input : FuseInput}, inputs[i]? = some input →
    input.isWrapper = false → j < input.arity →
      ∃ unique, dedup.slotOf i j = some unique ∧
        readBytes memory unique.slot (input.paramSize j) =
          readBytes memory (input.slot j) (input.paramSize j)
  wrapper : ∀ {i : Nat} {input : FuseInput}, inputs[i]? = some input →
    input.isWrapper = true →
      ∃ block, dedup.block i input.arity = some block ∧
        block.map UniqueSlot.slot = input.slots

section Keeping

variable {memory : Memory} {typeId : IrType → Address}
  {inputs : List FuseInput} {dedup : Deduplicated}

/-- An identity by value compares all bytes of its parameter. -/
theorem paramSize_le_width {input : FuseInput} {j : Nat}
    (describes : input.DescribesEntry)
    (byValue : input.identity j ≠ .address) :
    input.paramSize j ≤ (input.identity j).width := by
  unfold FuseInput.paramSize
  rcases identity_cases input j with
    ⟨param, described, -, identity⟩ | ⟨size, ⟨type, typed, identity⟩ | identity⟩
  · rw [identity, Identity.width]
    split
    · exact Nat.le_of_eq (slotSize_eq described)
    · rename_i notPacked
      rw [Bool.not_eq_true] at notPacked
      cases entry : input.entry.params[j]? with
      | none => exact Nat.zero_le _
      | some type =>
          exact Nat.le_of_eq (describes j param type notPacked described entry).symm
  · rw [identity, Identity.width, size, ptypes_entry typed]
    split
    · exact Nat.zero_le _
    · exact Nat.le_refl _
  · exact (byValue identity).elim

/-- Slots with one key hold the same bytes. -/
theorem readBytes_of_slotKey {first second : FuseInput} {j k : Nat}
    (describes : second.DescribesEntry) (nonNull : first.slot j ≠ 0)
    (nonNull' : second.slot k ≠ 0)
    (same : slotKey memory typeId first j = slotKey memory typeId second k) :
    readBytes memory (first.slot j) (second.paramSize k) =
      readBytes memory (second.slot k) (second.paramSize k) := by
  rw [slotKey_eq_key nonNull, slotKey_eq_key nonNull', Identity.key_eq_iff]
    at same
  by_cases address : second.identity k = .address
  · rw [address] at same
    rw [same.slot_eq]
  · exact readBytes_le same.readBytes_eq
      (paramSize_le_width describes address)

end Keeping

/--
Deduplication never changes an argument of a chain, if its leaf slots are not
null and its descriptors have the sizes of the parameters.
-/
theorem dedup_keeps_args (memory : Memory) (typeId : IrType → Address)
    (progs : List CommandProg) (inputs : List FuseInput)
    (dedup : Deduplicated)
    (fused : fuseDedup memory typeId progs = some (inputs, dedup))
    (describes : ∀ input ∈ inputs, input.DescribesEntry)
    (nonNull : NonNull inputs) : ArgsKept memory inputs dedup := by
  obtain rfl := (fuseDedup_eq fused).2
  constructor
  · intro i j input at_i leaf bound
    obtain ⟨user, member, userLeaf, k, userBound, same, unique⟩ :=
      slotOf_user memory typeId at_i leaf bound
    have here := List.mem_of_getElem? at_i
    exact ⟨_, unique, readBytes_of_slotKey (describes input here)
      (nonNull user member userLeaf k userBound)
      (nonNull input here leaf j bound) same⟩
  · intro i input at_i wrapper
    obtain ⟨start, atStart, -, block⟩ :=
      (deduplicate_deduped memory typeId inputs).wrapper at_i wrapper
    refine ⟨input.slots.map wrapperSlot, ?_, ?_⟩
    · rw [Deduplicated.block, atStart, Option.map_some, block]
    · simp [Function.comp_def, wrapperSlot]

/-- A memory whose pages look alike. -/
def pagedMemory : Memory :=
  fun address => address.setWidth 8

/-- Addresses of the types in a context. -/
def pagedTypeId : IrType → Address
  | .pointer space => 4096 + BitVec.ofNat 64 space
  | .integer bits => 8192 + BitVec.ofNat 64 bits
  | .float => 12288
  | .double => 12289
  | .other id _ => 65536 + BitVec.ofNat 64 id

/-- A body over a pointer and a double. -/
def arrayBody : IrFunction where
  name := "body"
  linkage := .external
  isDeclaration := false
  returnsVoid := true
  params := [.ptr, .double]

/-- A task with that body, whose pointer is captured as `kind` says. -/
def arrayTask (kind : CommandProgParamKind) (slot : Address) : CommandProg :=
  let task := onePointerTask .unpackedParams
  { task with
    args := some (.slots [some slot, some (slot + 8)])
    nArgs := 2
    source :=
      { task.source with
        raw := some (.module ⟨[arrayBody]⟩)
        params := some [⟨kind, 8, 0⟩, ⟨.copy, 8, 8⟩] } }

/-- The input for such a task. -/
def arrayInput (kind : CommandProgParamKind) (slot : Address) :
    FuseInput where
  entry := arrayBody
  shape := .leaf
  bufSize := 0
  slots := [slot, slot + 8]
  valueDedup := true
  params := some [⟨kind, 8, 0⟩, ⟨.copy, 8, 8⟩]

/-- The input for a wrapper of one slot. -/
def wrapperInput : FuseInput where
  entry := onePointer
  shape := .wrapper
  bufSize := 0
  slots := [4096]
  valueDedup := false
  params := none

theorem arrayInput_describes (kind : CommandProgParamKind) (slot : Address) :
    (arrayInput kind slot).DescribesEntry := by
  intro j param type _ described typed
  match j with
  | 0 =>
      obtain rfl := Option.some.inj described
      obtain rfl := Option.some.inj typed
      cases kind <;> rfl
  | 1 =>
      obtain rfl := Option.some.inj described
      obtain rfl := Option.some.inj typed
      rfl
  | _ + 2 => exact (Option.some_ne_none _ typed.symm).elim

/-- Two tasks with a wrapper between them. -/
def mixedInputs : List FuseInput :=
  [arrayInput .reference 4096, wrapperInput, arrayInput .reference 8192]

theorem dedup_keeps_args_mixed :
    ArgsKept pagedMemory mixedInputs
      (deduplicate pagedMemory pagedTypeId mixedInputs) := by
  refine dedup_keeps_args pagedMemory pagedTypeId
    [arrayTask .reference 4096, onePointerTask .voidPtrptr,
      arrayTask .reference 8192] _ _ rfl ?_ (by unfold NonNull; decide)
  intro input member
  simp only [mixedInputs, List.mem_cons, List.not_mem_nil, or_false] at member
  rcases member with rfl | rfl | rfl
  · exact arrayInput_describes .reference 4096
  · exact fun j param type _ described =>
      (Option.some_ne_none _ described.symm).elim
  · exact arrayInput_describes .reference 8192

/-! ## Aliases -/

/-- Two pointer parameters of leaves of a chain, not null, with one pointer. -/
structure SamePointer (memory : Memory) (inputs : List FuseInput)
    (i j i' j' : Nat) (input input' : FuseInput) : Prop where
  first : inputs[i]? = some input
  second : inputs[i']? = some input'
  leaf : input.isWrapper = false
  leaf' : input'.isWrapper = false
  bound : j < input.arity
  bound' : j' < input'.arity
  nonNull : input.slot j ≠ 0
  nonNull' : input'.slot j' ≠ 0
  pointer : input.isPointerParam j
  pointer' : input'.isPointerParam j'
  same : readBytes memory (input.slot j) 8 =
    readBytes memory (input'.slot j') 8

/-- Pointer parameters that hold one pointer are routed to one slot. -/
def AliasComplete (memory : Memory) (inputs : List FuseInput)
    (dedup : Deduplicated) : Prop :=
  ∀ i j i' j' input input', SamePointer memory inputs i j i' j' input input' →
    dedup.index i j = dedup.index i' j'

/--
Two slots that hold one pointer have one identity: both are references, both are
copies of one size with the same bytes behind the pointer, both are identified
by value and have one type, or both by one address.
-/
def SharesIdentity (memory : Memory) (typeId : IrType → Address)
    (first second : Identity) (slot slot' : Address) : Prop :=
  match first, second with
  | .described param, .described param' =>
      param.kind = param'.kind ∧
        (param.kind = .copy → param.size = param'.size ∧
          ∀ k, 8 ≤ k → k < param.size →
            memory (slot + BitVec.ofNat 64 k) =
              memory (slot' + BitVec.ofNat 64 k))
  | .value type, .value type' => typeId type = typeId type'
  | .address, .address => slot = slot'
  | _, _ => False

/-- Pointer parameters that hold one pointer have one identity. -/
def PointersIdentified (memory : Memory) (typeId : IrType → Address)
    (inputs : List FuseInput) : Prop :=
  ∀ i j i' j' input input', SamePointer memory inputs i j i' j' input input' →
    SharesIdentity memory typeId (input.identity j) (input'.identity j')
      (input.slot j) (input'.slot j')

section Aliases

variable {memory : Memory} {typeId : IrType → Address}
  {slot slot' : Address}

/-- The value identity of a pointer parameter has a pointer type. -/
theorem pointer_of_value {input : FuseInput} {j : Nat} {type : IrType}
    (pointer : input.isPointerParam j)
    (identity : input.identity j = .value type) : type.storeSize = 8 := by
  rcases identity_cases input j with
    ⟨param, -, -, described⟩ | ⟨size, ⟨type', typed, value⟩ | address⟩
  · rw [identity] at described
    exact Identity.noConfusion described
  · obtain rfl : type = type' :=
      Identity.value.inj (identity.symm.trans value)
    rw [FuseInput.isPointerParam, ptypes_entry typed] at pointer
    split at pointer
    · -- A reference has a width, so its identity is no value.
      cases described : input.descriptor j with
      | none =>
          rw [FuseInput.slotIsRef, described] at pointer
          exact Bool.noConfusion pointer
      | some param =>
          rw [slotIsRef_iff described] at pointer
          rw [slotSize_eq described, paramWidth_reference pointer] at size
          exact absurd size (by decide)
    · cases type with
      | pointer space => rfl
      | _ => exact Bool.noConfusion pointer
  · rw [identity] at address
    exact Identity.noConfusion address

/-- Bytes agree when their first eight and the others agree. -/
theorem readBytes_eq_iff_rest {size : Nat}
    (pointers : readBytes memory slot 8 = readBytes memory slot' 8) :
    readBytes memory slot size = readBytes memory slot' size ↔
      ∀ k, 8 ≤ k → k < size →
        memory (slot + BitVec.ofNat 64 k) =
          memory (slot' + BitVec.ofNat 64 k) := by
  have bytes : ∀ size,
      readBytes memory slot size = readBytes memory slot' size ↔
        ∀ k < size, memory (slot + BitVec.ofNat 64 k) =
          memory (slot' + BitVec.ofNat 64 k) := by
    intro size
    simp [readBytes]
  rw [bytes] at pointers ⊢
  constructor
  · exact fun same k _ bound => same k bound
  · intro rest k bound
    rcases Nat.lt_or_ge k 8 with low | high
    · exact pointers k low
    · exact rest k high bound

/-- For pointer parameters that hold one pointer, keys agree as identities do. -/
theorem agree_iff_shares {input input' : FuseInput} {j j' : Nat}
    (pointer : input.isPointerParam j) (pointer' : input'.isPointerParam j')
    (pointers : readBytes memory slot 8 = readBytes memory slot' 8) :
    Identity.Agree memory typeId (input.identity j) (input'.identity j')
        slot slot' ↔
      SharesIdentity memory typeId (input.identity j) (input'.identity j')
        slot slot' := by
  cases first : input.identity j <;> cases second : input'.identity j'
  case described.described param param' =>
    rw [Identity.Agree, SharesIdentity]
    refine and_congr_right fun kinds => ?_
    cases kind : param.kind with
    | copy =>
        rw [paramWidth_copy kind, paramWidth_copy (kinds.symm.trans kind),
          readBytes_eq_iff_rest pointers]
        exact ⟨fun same _ => same, fun same => same rfl⟩
    | reference =>
        rw [paramWidth_reference kind,
          paramWidth_reference (kinds.symm.trans kind)]
        exact iff_of_true ⟨rfl, pointers⟩ fun same => CommandProgParamKind.noConfusion same
  case value.value type type' =>
    have width := pointer_of_value pointer first
    have width' := pointer_of_value pointer' second
    rw [Identity.Agree, SharesIdentity, width, width']
    exact and_iff_left ⟨rfl, pointers⟩
  case address.address => exact Iff.rfl
  all_goals exact Iff.rfl

/-- Two leaf parameters share an index exactly when their keys are equal. -/
theorem index_eq_iff {inputs : List FuseInput} {i j i' j' : Nat}
    {input input' : FuseInput} (at_i : inputs[i]? = some input)
    (at_i' : inputs[i']? = some input') (leaf : input.isWrapper = false)
    (leaf' : input'.isWrapper = false) (bound : j < input.arity)
    (bound' : j' < input'.arity) :
    (deduplicate memory typeId inputs).index i j =
        (deduplicate memory typeId inputs).index i' j' ↔
      slotKey memory typeId input j = slotKey memory typeId input' j' := by
  have built := deduplicate_deduped memory typeId inputs
  obtain ⟨index, atIndex, found⟩ := built.leaf at_i leaf bound
  obtain ⟨index', atIndex', found'⟩ := built.leaf at_i' leaf' bound'
  rw [atIndex, atIndex', Option.some.injEq]
  constructor
  · rintro rfl
    exact built.records.injective found found'
  · intro same
    rw [same, found', Option.some.injEq] at found
    exact found.symm

end Aliases

/--
Pointer parameters that hold one pointer share a slot if and only if they have
one identity.
-/
theorem aliasComplete_iff (memory : Memory) (typeId : IrType → Address)
    (progs : List CommandProg) (inputs : List FuseInput)
    (dedup : Deduplicated)
    (fused : fuseDedup memory typeId progs = some (inputs, dedup)) :
    AliasComplete memory inputs dedup ↔
      PointersIdentified memory typeId inputs := by
  obtain rfl := (fuseDedup_eq fused).2
  have pair : ∀ i j i' j' input input',
      SamePointer memory inputs i j i' j' input input' →
        ((deduplicate memory typeId inputs).index i j =
            (deduplicate memory typeId inputs).index i' j' ↔
          SharesIdentity memory typeId (input.identity j) (input'.identity j')
            (input.slot j) (input'.slot j')) := by
    intro i j i' j' input input' pointers
    rw [index_eq_iff pointers.first pointers.second pointers.leaf
        pointers.leaf' pointers.bound pointers.bound',
      slotKey_eq_key pointers.nonNull, slotKey_eq_key pointers.nonNull',
      Identity.key_eq_iff, agree_iff_shares pointers.pointer
        pointers.pointer' pointers.same]
  constructor
  · intro complete i j i' j' input input' pointers
    exact (pair i j i' j' input input' pointers).mp
      (complete i j i' j' input input' pointers)
  · intro identified i j i' j' input input' pointers
    exact (pair i j i' j' input input' pointers).mpr
      (identified i j i' j' input input' pointers)

/-- One array, captured by reference and by a copied pointer. -/
def sharedAndPrivate : List FuseInput :=
  [arrayInput .reference 4096, arrayInput .copy 8192]

theorem aliasComplete_iff_sharedAndPrivate :
    AliasComplete pagedMemory sharedAndPrivate
        (deduplicate pagedMemory pagedTypeId sharedAndPrivate) ↔
      PointersIdentified pagedMemory pagedTypeId sharedAndPrivate :=
  aliasComplete_iff pagedMemory pagedTypeId
    [arrayTask .reference 4096, arrayTask .copy 8192] _ _ rfl

/-- The pointer has a slot for the reference and one for the copy. -/
theorem not_aliasComplete :
    fuseDedup pagedMemory pagedTypeId
        [arrayTask .reference 4096, arrayTask .copy 8192] =
          some (sharedAndPrivate,
            deduplicate pagedMemory pagedTypeId sharedAndPrivate) ∧
      (deduplicate pagedMemory pagedTypeId sharedAndPrivate).indexMap =
          [[0, 1], [2, 1]] ∧
        ¬AliasComplete pagedMemory sharedAndPrivate
          (deduplicate pagedMemory pagedTypeId sharedAndPrivate) := by
  have pointers : SamePointer pagedMemory sharedAndPrivate 0 0 1 0
      (arrayInput .reference 4096) (arrayInput .copy 8192) := by
    constructor <;> decide
  refine ⟨rfl, by decide, fun complete => ?_⟩
  have same := complete _ _ _ _ _ _ pointers
  revert same
  decide

end Cgir.Llvm
