import Cgir.Library.Intern
import Cgir.Library.Loop
import Cgir.Llvm.FuseInput

/-!
# Argument deduplication

Fusion gives every leaf slot an identity key and keeps one slot for each key; a
wrapper keeps its slots as one block.  `dedup_keeps_args` says that no leaf sees
another value and no wrapper another block; `aliasComplete_iff` says when two
parameters that hold one pointer share a slot.
-/

namespace Cgir.Llvm

open Cgir.Library Cgir.Model

/-! ## Identity keys -/

/-- An identity key, a byte string. -/
abbrev Key := List (BitVec 8)

/-- The first byte of a key: the forms of identity. -/
def addressTag : BitVec 8 := 0x41
def copyTag : BitVec 8 := 0x43
def referenceTag : BitVec 8 := 0x52
def valueTag : BitVec 8 := 0x56

/-- The bytes of a described slot: a reference is a pointer. -/
def paramWidth (param : CommandProgParam) : Nat :=
  match param.kind with
  | .copy => param.size
  | .reference => 8

def kindTag : CommandProgParamKind → BitVec 8
  | .copy => copyTag
  | .reference => referenceTag

namespace FuseInput

/-- The descriptor of a parameter, if there is one. -/
def descriptor (input : FuseInput) (j : Nat) : Option CommandProgParam :=
  input.params.bind (·[j]?)

/-- `slot_size`: the size that the descriptor gives a slot, 0 without one. -/
def slotSize (input : FuseInput) (j : Nat) : Nat :=
  match input.descriptor j with
  | some param => paramWidth param
  | none => 0

/-- `slot_is_ref`. -/
def slotIsRef (input : FuseInput) (j : Nat) : Bool :=
  match input.descriptor j with
  | some param => param.kind = .reference
  | none => false

end FuseInput

/-- A described slot is identified by its bytes, unless there are none. -/
def describedKey (memory : Memory) (slot : Address)
    (param : CommandProgParam) : Option Key :=
  if 0 < paramWidth param then
    some (kindTag param.kind ::
      (wordBytes (BitVec.ofNat 64 (paramWidth param)) ++
        readBytes memory slot (paramWidth param)))
  else
    none

/-- The widths that are deduplicated by value. -/
def isValueWidth (width : Nat) : Bool :=
  0 < width && width ≤ 64

/--
A slot that is deduplicated by value is identified by its type and its bytes.
`typeId` is the address of a type in the shared context.
-/
def valueKey (memory : Memory) (typeId : IrType → Address) (slot : Address)
    (type : IrType) : Option Key :=
  if isValueWidth type.storeSize then
    some (valueTag ::
      (wordBytes (typeId type) ++ readBytes memory slot type.storeSize))
  else
    none

/-- Any other slot, a null slot too, is identified by its address. -/
def addressKey (slot : Address) : Key :=
  addressTag :: wordBytes slot

/-- `slots[j]`. -/
def FuseInput.slot (input : FuseInput) (j : Nat) : Address :=
  input.slots.getD j 0

/-- `slot_key`. -/
def slotKey (memory : Memory) (typeId : IrType → Address) (input : FuseInput)
    (j : Nat) : Key :=
  if input.slot j = 0 then
    addressKey 0
  else
    (((input.descriptor j).bind (describedKey memory (input.slot j))).orElse
      fun _ => (input.ptypes[j]?).bind
        (valueKey memory typeId (input.slot j))).getD
      (addressKey (input.slot j))

/-! ## Unique slots -/

/--
An entry of `unique_slots`, `unique_slot_size` and `unique_slot_is_ref`, three
vectors that grow together.
-/
structure UniqueSlot where
  slot : Address
  size : Nat
  isRef : Bool
  deriving DecidableEq, Repr

/-- What deduplication builds for a chain. -/
structure Deduplicated where
  table : InternTable Key UniqueSlot
  indexMap : List (List Nat)
  wrapperBlockStart : List Nat
  deriving DecidableEq, Repr

/-- The unique slot that a leaf slot becomes at the first use of its key. -/
def uniqueSlot (input : FuseInput) (j : Nat) : UniqueSlot where
  slot := input.slot j
  size := input.slotSize j
  isRef := input.slotIsRef j

/-- A slot of a wrapper's block. -/
def wrapperSlot (slot : Address) : UniqueSlot where
  slot := slot
  size := 8
  isRef := true

/-- The keyed slots of a leaf. -/
def leafSlots (memory : Memory) (typeId : IrType → Address)
    (input : FuseInput) : List (Key × UniqueSlot) :=
  (List.range input.arity).map fun j =>
    (slotKey memory typeId input j, uniqueSlot input j)

/-- One input: a block for a wrapper, keyed slots for a leaf. -/
def dedupInput (memory : Memory) (typeId : IrType → Address)
    (dedup : Deduplicated) (input : FuseInput) : Deduplicated :=
  if input.isWrapper then
    { table := dedup.table.append (input.slots.map wrapperSlot)
      indexMap := dedup.indexMap ++ [[]]
      wrapperBlockStart :=
        dedup.wrapperBlockStart ++ [dedup.table.entries.length] }
  else
    let interned := dedup.table.internAll (leafSlots memory typeId input)
    { table := interned.1
      indexMap := dedup.indexMap ++ [interned.2]
      wrapperBlockStart := dedup.wrapperBlockStart ++ [0] }

/-- The deduplication loop of `command_graph_prog_fuse_llvmir`. -/
def deduplicate (memory : Memory) (typeId : IrType → Address)
    (inputs : List FuseInput) : Deduplicated :=
  inputs.foldl (dedupInput memory typeId)
    { table := InternTable.empty, indexMap := [], wrapperBlockStart := [] }

/-- The inputs of a chain with their deduplicated slots. -/
def fuseDedup (memory : Memory) (typeId : IrType → Address)
    (progs : List CommandProg) : Option (List FuseInput × Deduplicated) :=
  (fuseInputs progs).map fun inputs =>
    (inputs, deduplicate memory typeId inputs)

section Sizes

variable {param : CommandProgParam}

theorem paramWidth_copy (kind : param.kind = .copy) :
    paramWidth param = param.size := by
  rw [paramWidth, kind]

theorem paramWidth_reference (kind : param.kind = .reference) :
    paramWidth param = 8 := by
  rw [paramWidth, kind]

theorem slotSize_eq {input : FuseInput} {j : Nat}
    (described : input.descriptor j = some param) :
    input.slotSize j = paramWidth param := by
  rw [FuseInput.slotSize, described]

theorem slotIsRef_iff {input : FuseInput} {j : Nat}
    (described : input.descriptor j = some param) :
    input.slotIsRef j ↔ param.kind = .reference := by
  rw [FuseInput.slotIsRef, described]
  exact decide_eq_true_iff

end Sizes

/-- Deduplication runs on the inputs of a chain. -/
theorem fuseDedup_eq {memory : Memory} {typeId : IrType → Address}
    {progs : List CommandProg} {inputs : List FuseInput}
    {dedup : Deduplicated}
    (fused : fuseDedup memory typeId progs = some (inputs, dedup)) :
    fuseInputs progs = some inputs ∧
      dedup = deduplicate memory typeId inputs := by
  obtain ⟨collected, run, same⟩ := Option.map_eq_some_iff.mp fused
  rw [Prod.mk.injEq] at same
  obtain ⟨rfl, rfl⟩ := same
  exact ⟨run, rfl⟩

namespace Deduplicated

/-- `index_map[i][j]`. -/
def index (dedup : Deduplicated) (i j : Nat) : Option Nat :=
  dedup.indexMap[i]?.bind (·[j]?)

/-- `unique_slots[index_map[i][j]]` with its size and kind. -/
def slotOf (dedup : Deduplicated) (i j : Nat) : Option UniqueSlot :=
  (dedup.index i j).bind (dedup.table.entries[·]?)

/-- The `arity` unique slots from `wrapper_block_start[i]` on. -/
def block (dedup : Deduplicated) (i arity : Nat) : Option (List UniqueSlot) :=
  dedup.wrapperBlockStart[i]?.map fun start =>
    (dedup.table.entries.drop start).take arity

end Deduplicated

/-! ## What the loop builds -/

section Building

variable (memory : Memory) (typeId : IrType → Address)

/-- The keyed slots of a chain, in the order of the loop. -/
def keyedSlots (inputs : List FuseInput) : List (Key × UniqueSlot) :=
  inputs.flatMap fun input =>
    if input.isWrapper then [] else leafSlots memory typeId input

/-- The state of the loop after the inputs `done`. -/
structure Deduped (done : List FuseInput) (dedup : Deduplicated) : Prop where
  records : dedup.table.Records (keyedSlots memory typeId done)
  rows : dedup.indexMap.length = done.length
  starts : dedup.wrapperBlockStart.length = done.length
  leaf : ∀ {i j : Nat} {input : FuseInput}, done[i]? = some input →
    input.isWrapper = false → j < input.arity →
      ∃ index, dedup.index i j = some index ∧
        dedup.table.find (slotKey memory typeId input j) = some index
  wrapper : ∀ {i : Nat} {input : FuseInput}, done[i]? = some input →
    input.isWrapper = true →
      ∃ start, dedup.wrapperBlockStart[i]? = some start ∧
        start + input.arity ≤ dedup.table.entries.length ∧
          (dedup.table.entries.drop start).take input.arity =
            input.slots.map wrapperSlot

variable {memory typeId} {inputs done : List FuseInput} {dedup : Deduplicated}

/-- A keyed slot is one of a leaf. -/
theorem mem_keyedSlots {item : Key × UniqueSlot} :
    item ∈ keyedSlots memory typeId inputs ↔
      ∃ input ∈ inputs, input.isWrapper = false ∧ ∃ j < input.arity,
        item = (slotKey memory typeId input j, uniqueSlot input j) := by
  rw [keyedSlots, List.mem_flatMap]
  refine exists_congr fun input => and_congr_right fun _ => ?_
  cases input.isWrapper <;> simp [leafSlots, eq_comm]

/-- Position `i` of a longer list: an earlier one, or the last. -/
theorem getElem?_concat_cases {α : Type} {list : List α} {last item : α}
    {i : Nat} (found : (list ++ [last])[i]? = some item) :
    list[i]? = some item ∨ i = list.length ∧ item = last := by
  rcases Nat.lt_trichotomy i list.length with below | rfl | above
  · rw [List.getElem?_append_left below] at found
    exact Or.inl found
  · rw [List.getElem?_concat_length] at found
    exact Or.inr ⟨rfl, (Option.some.inj found).symm⟩
  · rw [List.getElem?_append_right (Nat.le_of_lt above),
      List.getElem?_eq_none (by simp only [List.length_singleton]; omega)]
      at found
    exact (Option.some_ne_none _ found.symm).elim

/-- A block stays where it is when the table grows. -/
theorem take_drop_grown {α : Type} {earlier later : List α} {start size : Nat}
    (grows : earlier <+: later) (bound : start + size ≤ earlier.length) :
    (later.drop start).take size = (earlier.drop start).take size := by
  obtain ⟨rest, rfl⟩ := grows
  rw [List.drop_append_of_le_length (by omega),
    List.take_append_of_le_length (by rw [List.length_drop]; omega)]

theorem leafSlots_getElem? {input : FuseInput} {j : Nat}
    (bound : j < input.arity) :
    (leafSlots memory typeId input)[j]? =
      some (slotKey memory typeId input j, uniqueSlot input j) := by
  simp [leafSlots, bound]

/-- The earlier inputs keep what they have when the tables grow. -/
private theorem Deduped.grown (before : Deduped memory typeId done dedup)
    {table : InternTable Key UniqueSlot} (later : table.Extends dedup.table)
    (row : List Nat) (first : Nat) :
    let after : Deduplicated :=
      { table := table
        indexMap := dedup.indexMap ++ [row]
        wrapperBlockStart := dedup.wrapperBlockStart ++ [first] }
    (∀ {i j : Nat} {input : FuseInput}, done[i]? = some input →
      input.isWrapper = false → j < input.arity →
        ∃ index, after.index i j = some index ∧
          table.find (slotKey memory typeId input j) = some index) ∧
      ∀ {i : Nat} {input : FuseInput}, done[i]? = some input →
        input.isWrapper = true →
          ∃ start, after.wrapperBlockStart[i]? = some start ∧
            start + input.arity ≤ table.entries.length ∧
              (table.entries.drop start).take input.arity =
                input.slots.map wrapperSlot := by
  intro after
  refine ⟨fun {i j input} at_i leaf bound => ?_,
    fun {i input} at_i wrapper => ?_⟩
  · obtain ⟨index, atIndex, found⟩ := before.leaf at_i leaf bound
    have below : i < dedup.indexMap.length := by
      rw [before.rows]
      exact (List.getElem?_eq_some_iff.mp at_i).1
    refine ⟨index, ?_, later.find found⟩
    rw [Deduplicated.index, List.getElem?_append_left below]
    exact atIndex
  · obtain ⟨start, atStart, bound, block⟩ := before.wrapper at_i wrapper
    have below : i < dedup.wrapperBlockStart.length := by
      rw [before.starts]
      exact (List.getElem?_eq_some_iff.mp at_i).1
    refine ⟨start, ?_, Nat.le_trans bound later.entries.length_le, ?_⟩
    · rw [List.getElem?_append_left below]
      exact atStart
    · rw [take_drop_grown later.entries bound, block]

/-- The step of the loop. -/
theorem Deduped.step (before : Deduped memory typeId done dedup)
    (input : FuseInput) :
    Deduped memory typeId (done ++ [input])
      (dedupInput memory typeId dedup input) := by
  have keyed : keyedSlots memory typeId (done ++ [input]) =
      keyedSlots memory typeId done ++
        if input.isWrapper then [] else leafSlots memory typeId input := by
    simp [keyedSlots]
  unfold dedupInput
  split
  · rename_i isWrapper
    obtain ⟨leaves, wrappers⟩ := before.grown
      (InternTable.append_extends (input.slots.map wrapperSlot)) []
      dedup.table.entries.length
    refine
      { records := by
          rw [keyed, if_pos isWrapper, List.append_nil]
          exact before.records.append _
        rows := by simp [before.rows]
        starts := by simp [before.starts]
        leaf := ?_
        wrapper := ?_ }
    · intro i j input' at_i leaf bound
      rcases getElem?_concat_cases at_i with earlier | ⟨-, rfl⟩
      · exact leaves earlier leaf bound
      · rw [isWrapper] at leaf
        exact Bool.noConfusion leaf
    · intro i input' at_i wrapper
      rcases getElem?_concat_cases at_i with earlier | ⟨rfl, rfl⟩
      · exact wrappers earlier wrapper
      · refine ⟨dedup.table.entries.length, ?_, ?_, ?_⟩
        · rw [← before.starts, List.getElem?_concat_length]
        · simp [InternTable.append, FuseInput.arity]
        · rw [InternTable.append, List.drop_left]
          exact List.take_of_length_le (by simp [FuseInput.arity])
  · rename_i notWrapper
    rw [Bool.not_eq_true] at notWrapper
    have interned :=
      before.records.internAll (leafSlots memory typeId input)
    obtain ⟨leaves, wrappers⟩ := before.grown interned.later
      (dedup.table.internAll (leafSlots memory typeId input)).2 0
    refine
      { records := by
          rw [keyed, notWrapper]
          exact interned.records
        rows := by simp [before.rows]
        starts := by simp [before.starts]
        leaf := ?_
        wrapper := ?_ }
    · intro i j input' at_i leaf bound
      rcases getElem?_concat_cases at_i with earlier | ⟨rfl, rfl⟩
      · exact leaves earlier leaf bound
      · obtain ⟨index, atIndex, found⟩ :=
          interned.found (leafSlots_getElem? bound)
        refine ⟨index, ?_, found⟩
        rw [Deduplicated.index, ← before.rows, List.getElem?_concat_length]
        exact atIndex
    · intro i input' at_i wrapper
      rcases getElem?_concat_cases at_i with earlier | ⟨-, rfl⟩
      · exact wrappers earlier wrapper
      · rw [notWrapper] at wrapper
        exact Bool.noConfusion wrapper

/-- What the loop has built at its end. -/
theorem deduplicate_deduped (memory : Memory) (typeId : IrType → Address)
    (inputs : List FuseInput) :
    Deduped memory typeId inputs (deduplicate memory typeId inputs) := by
  apply Loop.foldl_invariant (dedupInput memory typeId)
    (Deduped memory typeId)
  · intro done input rest dedup _ before
    exact before.step input
  · exact
      { records := InternTable.records_empty
        rows := rfl
        starts := rfl
        leaf := fun found => (Option.some_ne_none _ found.symm).elim
        wrapper := fun found => (Option.some_ne_none _ found.symm).elim }

variable (memory typeId) in
/-- The unique slot of a leaf parameter comes from a leaf slot with its key. -/
theorem slotOf_user {i j : Nat} {input : FuseInput}
    (at_i : inputs[i]? = some input) (leaf : input.isWrapper = false)
    (bound : j < input.arity) :
    ∃ user ∈ inputs, user.isWrapper = false ∧ ∃ k < user.arity,
      slotKey memory typeId user k = slotKey memory typeId input j ∧
        (deduplicate memory typeId inputs).slotOf i j =
          some (uniqueSlot user k) := by
  have built := deduplicate_deduped memory typeId inputs
  obtain ⟨index, atIndex, found⟩ := built.leaf at_i leaf bound
  obtain ⟨unique, stored, first⟩ := built.records.stored found
  obtain ⟨user, member, userLeaf, k, userBound, same⟩ :=
    mem_keyedSlots.mp (List.mem_of_find?_eq_some first)
  rw [Prod.mk.injEq] at same
  refine ⟨user, member, userLeaf, k, userBound, same.1.symm, ?_⟩
  rw [Deduplicated.slotOf, atIndex, Option.bind_some, stored, same.2]

end Building

/-! ## Identities -/

/-- What identifies a slot: a described value, a typed value or its address. -/
inductive Identity where
  | described (param : CommandProgParam)
  | value (type : IrType)
  | address
  deriving DecidableEq, Repr

/-- The identity of a parameter that no descriptor gives a width. -/
def FuseInput.typedIdentity (input : FuseInput) (j : Nat) : Identity :=
  match (input.ptypes[j]?).filter fun type : IrType =>
      isValueWidth type.storeSize with
  | some type => .value type
  | none => .address

/-- The identity of a parameter whose slot is not null. -/
def FuseInput.identity (input : FuseInput) (j : Nat) : Identity :=
  match (input.descriptor j).filter fun param => 0 < paramWidth param with
  | some param => .described param
  | none => input.typedIdentity j

namespace Identity

/-- When two slots have one identity. -/
def Agree (memory : Memory) (typeId : IrType → Address)
    (first second : Identity) (slot slot' : Address) : Prop :=
  match first, second with
  | .described param, .described param' =>
      param.kind = param'.kind ∧ paramWidth param = paramWidth param' ∧
        readBytes memory slot (paramWidth param) =
          readBytes memory slot' (paramWidth param)
  | .value type, .value type' =>
      typeId type = typeId type' ∧ type.storeSize = type'.storeSize ∧
        readBytes memory slot type.storeSize =
          readBytes memory slot' type.storeSize
  | .address, .address => slot = slot'
  | _, _ => False

/-- The number of bytes that an identity compares. -/
def width : Identity → Nat
  | .described param => paramWidth param
  | .value type => type.storeSize
  | .address => 0

/-- The key of a slot. -/
def key (memory : Memory) (typeId : IrType → Address) (slot : Address) :
    Identity → Key
  | .described param =>
      kindTag param.kind ::
        (wordBytes (BitVec.ofNat 64 (paramWidth param)) ++
          readBytes memory slot (paramWidth param))
  | .value type =>
      valueTag ::
        (wordBytes (typeId type) ++ readBytes memory slot type.storeSize)
  | .address => addressKey slot

theorem kindTag_injective : Function.Injective kindTag := by
  intro first second
  cases first <;> cases second <;> decide

theorem kindTag_ne (kind : CommandProgParamKind) :
    kindTag kind ≠ valueTag ∧ kindTag kind ≠ addressTag := by
  cases kind <;> decide

variable {memory : Memory} {typeId : IrType → Address}
  {slot slot' : Address}

/-- The length of the bytes is part of a key, so it tells where they start. -/
private theorem payload_eq_iff {tag tag' : BitVec 8} {word word' : BitVec 64}
    {size size' : Nat} :
    tag :: (wordBytes word ++ readBytes memory slot size) =
        tag' :: (wordBytes word' ++ readBytes memory slot' size') ↔
      tag = tag' ∧ word = word' ∧ size = size' ∧
        readBytes memory slot size = readBytes memory slot' size := by
  constructor
  · intro same
    obtain ⟨rfl, rest⟩ := List.cons.inj same
    obtain ⟨words, bytes⟩ := List.append_inj rest (by simp)
    have sizes : size = size' := by
      simpa using congrArg List.length bytes
    subst sizes
    exact ⟨rfl, wordBytes_injective words, rfl, bytes⟩
  · rintro ⟨rfl, rfl, rfl, bytes⟩
    rw [bytes]

/-- Keys are equal exactly for equal identities: no two forms collide. -/
theorem key_eq_iff (first second : Identity) :
    first.key memory typeId slot = second.key memory typeId slot' ↔
      Agree memory typeId first second slot slot' := by
  have distinct : ∀ {tag tag' : BitVec 8} {rest rest' : Key}, tag ≠ tag' →
      (tag :: rest = tag' :: rest' ↔ False) := fun different =>
    iff_false_intro fun same => different (List.cons.inj same).1
  cases first with
  | described param =>
      cases second with
      | described param' =>
          rw [key, key, payload_eq_iff, Agree, kindTag_injective.eq_iff]
          refine and_congr_right fun _ => ?_
          constructor
          · exact And.right
          · exact fun same => ⟨congrArg _ same.1, same⟩
      | value type => exact distinct (kindTag_ne _).1
      | address => exact distinct (kindTag_ne _).2
  | value type =>
      cases second with
      | described param' => exact distinct (kindTag_ne _).1.symm
      | value type' =>
          rw [key, key, payload_eq_iff, Agree]
          exact and_iff_right rfl
      | address => exact distinct (by decide)
  | address =>
      cases second with
      | described param' => exact distinct (kindTag_ne _).2.symm
      | value type => exact distinct (by decide)
      | address =>
          rw [key, key, addressKey, addressKey, Agree]
          constructor
          · intro same
            exact wordBytes_injective (List.cons.inj same).2
          · rintro rfl
            rfl

/-- Slots of one identity hold the same bytes. -/
theorem Agree.readBytes_eq {first second : Identity}
    (agree : Agree memory typeId first second slot slot') :
    readBytes memory slot second.width =
      readBytes memory slot' second.width := by
  cases first <;> cases second
  case described.described =>
    obtain ⟨-, sizes, bytes⟩ := agree
    rw [sizes] at bytes
    exact bytes
  case value.value =>
    obtain ⟨-, sizes, bytes⟩ := agree
    rw [sizes] at bytes
    exact bytes
  case address.address => rfl
  all_goals exact agree.elim

/-- A slot identified by its address shares only with itself. -/
theorem Agree.slot_eq {first : Identity}
    (agree : Agree memory typeId first .address slot slot') :
    slot = slot' := by
  cases first
  case address => exact agree
  all_goals exact agree.elim

end Identity

section Identities

variable {memory : Memory} {typeId : IrType → Address} {input : FuseInput}
  {j : Nat}

/-- The key of a slot that is not null is the key of its identity. -/
theorem slotKey_eq_key (nonNull : input.slot j ≠ 0) :
    slotKey memory typeId input j =
      (input.identity j).key memory typeId (input.slot j) := by
  have value :
      ((input.ptypes[j]?).bind
          (valueKey memory typeId (input.slot j))).getD
        (addressKey (input.slot j)) =
      (input.typedIdentity j).key memory typeId (input.slot j) := by
    rw [FuseInput.typedIdentity]
    cases input.ptypes[j]? with
    | none => rfl
    | some type =>
        cases fits : isValueWidth type.storeSize <;>
          simp [valueKey, fits, Identity.key, Option.filter]
  rw [slotKey, if_neg nonNull]
  simp only [FuseInput.identity]
  cases input.descriptor j with
  | none => exact value
  | some param =>
      by_cases wide : 0 < paramWidth param
      · simp [describedKey, wide, Identity.key, Option.filter]
      · simpa [describedKey, wide, Option.filter] using value

/-- What the identity says about the descriptor and the type. -/
theorem identity_cases (input : FuseInput) (j : Nat) :
    (∃ param, input.descriptor j = some param ∧ 0 < paramWidth param ∧
        input.identity j = .described param) ∨
      input.slotSize j = 0 ∧
        ((∃ type, input.ptypes[j]? = some type ∧
            input.identity j = .value type) ∨
          input.identity j = .address) := by
  have undescribed : (input.descriptor j).filter
        (fun param => 0 < paramWidth param) = none →
      (∃ type, input.ptypes[j]? = some type ∧
          input.identity j = .value type) ∨
        input.identity j = .address := by
    intro none
    simp only [FuseInput.identity, none, FuseInput.typedIdentity]
    cases input.ptypes[j]? with
    | none => exact Or.inr rfl
    | some type =>
        cases fits : isValueWidth type.storeSize <;>
          simp [Option.filter, fits]
  cases described : input.descriptor j with
  | none =>
      refine Or.inr ⟨by rw [FuseInput.slotSize, described], ?_⟩
      exact undescribed (by rw [described, Option.filter_none])
  | some param =>
      by_cases wide : 0 < paramWidth param
      · refine Or.inl ⟨param, rfl, wide, ?_⟩
        simp [FuseInput.identity, described, Option.filter, wide]
      · refine Or.inr ⟨?_, ?_⟩
        · rw [FuseInput.slotSize, described]
          exact Nat.eq_zero_of_not_pos wide
        · exact undescribed (by simp [described, Option.filter, wide])

/-- The types of value identities are those of the entry. -/
theorem ptypes_entry {type : IrType} (found : input.ptypes[j]? = some type) :
    input.entry.params[j]? = some type := by
  rw [FuseInput.ptypes] at found
  split at found
  · exact found
  · simp at found

end Identities

end Cgir.Llvm
