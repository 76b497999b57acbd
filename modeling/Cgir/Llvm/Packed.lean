import Cgir.Library.Buffer
import Cgir.Llvm.Dedup

/-!
# Packed argument buffers

A chain of packed bodies is fused over one byte buffer that holds every unique
slot.  The fused wrapper rebuilds the buffer of every body from it; a body that
is compiled alone gets a buffer straight from its own slots.
-/

namespace Cgir.Llvm

open Cgir.Library Cgir.Model

/-! ## The fused buffer -/

/-- `(size + align - 1) & ~(align - 1)`, for a power of two. -/
def alignUp (size align : Nat) : Nat :=
  (size + align - 1) / align * align

namespace UniqueSlot

/-- The bytes that a unique slot takes in the fused buffer. -/
def footprint (unique : UniqueSlot) : Nat :=
  if unique.size = 0 then 1 else unique.size

/-- The alignment of a unique slot: references are aligned as pointers. -/
def align (unique : UniqueSlot) : Nat :=
  if unique.isRef then 8 else 1

/-- The width of the load that is hoisted for a slot; aggregates have none. -/
def hoistWidth (unique : UniqueSlot) : Option Nat :=
  if unique.isRef then
    some 8
  else if unique.size = 1 ∨ unique.size = 2 ∨ unique.size = 4 ∨
      unique.size = 8 then
    some unique.size
  else
    none

end UniqueSlot

/--
Place slots of the given sizes and alignments one after the other, and return
where the last one ends.
-/
def placeSlots : Nat → List (Nat × Nat) → List Nat × Nat
  | stop, [] => ([], stop)
  | stop, (size, align) :: rest =>
      let offset := alignUp stop align
      let others := placeSlots (offset + size) rest
      (offset :: others.1, others.2)

/-- `slot_offset` and `packed_size`. -/
structure PackedLayout where
  offsets : List Nat
  size : Nat
  deriving DecidableEq, Repr

/-- The layout of slots of the given sizes and alignments. -/
def layoutOf (extents : List (Nat × Nat)) : PackedLayout :=
  let placed := placeSlots 0 extents
  { offsets := placed.1
    size := if placed.2 = 0 then 1 else placed.2 }

/-- The layout of the fused buffer of packed bodies. -/
def packedLayout (slots : List UniqueSlot) : PackedLayout :=
  layoutOf (slots.map fun unique => (unique.footprint, unique.align))

/-- The value of a slot; a null slot is skipped and keeps its zeros. -/
def slotValue (memory : Memory) (slot : Address) (size : Nat) :
    List (BitVec 8) :=
  if slot = 0 then [] else readBytes memory slot size

/-- What is copied into the fused buffer for every unique slot. -/
def fusedSegments (memory : Memory) (slots : List UniqueSlot) :
    List (Segment (BitVec 8)) :=
  ((packedLayout slots).offsets.zip slots).map fun (offset, unique) =>
    ⟨offset, slotValue memory unique.slot unique.size⟩

/-- The fused argument buffer. -/
def fusedBuffer (memory : Memory) (slots : List UniqueSlot) :
    Nat → BitVec 8 :=
  Buffer.writeAll (fun _ => 0) (fusedSegments memory slots)

/-! ## The buffer of a body -/

/-- The captures of a packed body. -/
def FuseInput.captures (input : FuseInput) : List CommandProgParam :=
  input.params.getD []

/-- Where capture `j` of input `i` lies in the fused buffer. -/
def reconSource (dedup : Deduplicated) (i j : Nat) : Nat :=
  (packedLayout dedup.table.entries).offsets.getD
    ((dedup.index i j).getD 0) 0

/--
How many bytes are stored for capture `j` of input `i`: those of the hoisted
load, whatever the size of the capture, or as many as the capture has.
-/
def reconWidth (dedup : Deduplicated) (i j : Nat) (param : CommandProgParam) :
    Nat :=
  ((dedup.table.entries[(dedup.index i j).getD 0]?).bind
    UniqueSlot.hoistWidth).getD param.size

/-- What the fused wrapper stores for capture `j` of input `i`. -/
def reconSegment (memory : Memory) (dedup : Deduplicated) (i j : Nat)
    (param : CommandProgParam) : Segment (BitVec 8) where
  offset := param.offset
  values := Buffer.read (fusedBuffer memory dedup.table.entries)
    (reconSource dedup i j) (reconWidth dedup i j param)

def reconSegments (memory : Memory) (dedup : Deduplicated) (i : Nat)
    (input : FuseInput) : List (Segment (BitVec 8)) :=
  input.captures.zipIdx.map fun item =>
    reconSegment memory dedup i item.2 item.1

/-- Capture `j` is read inside the fused buffer and stored inside the slot. -/
structure ReconInside (dedup : Deduplicated) (i : Nat) (input : FuseInput)
    (j : Nat) (param : CommandProgParam) : Prop where
  read : reconSource dedup i j + reconWidth dedup i j param ≤
    (packedLayout dedup.table.entries).size
  store : param.offset + reconWidth dedup i j param ≤ input.bufSize

instance (dedup : Deduplicated) (i : Nat) (input : FuseInput) (j : Nat)
    (param : CommandProgParam) :
    Decidable (ReconInside dedup i input j param) :=
  decidable_of_iff
    (reconSource dedup i j + reconWidth dedup i j param ≤
        (packedLayout dedup.table.entries).size ∧
      param.offset + reconWidth dedup i j param ≤ input.bufSize)
    ⟨fun ⟨read, store⟩ => ⟨read, store⟩, fun inside =>
      ⟨inside.read, inside.store⟩⟩

/--
The buffer that the fused wrapper rebuilds for input `i`.  It starts as a stack
slot of `bufSize` bytes with the contents `junk`.  An access past the end of the
stack slot or of the fused buffer is undefined.
-/
def reconBuffer (memory : Memory) (dedup : Deduplicated) (i : Nat)
    (input : FuseInput) (junk : Nat → BitVec 8) : Option (Nat → BitVec 8) :=
  input.captures.zipIdx.foldlM
    (fun buffer item =>
      if ReconInside dedup i input item.2 item.1 then
        some (Buffer.write buffer (reconSegment memory dedup i item.2 item.1))
      else none) junk

/-- The buffer is rebuilt when no access is past an end. -/
theorem reconBuffer_eq_some_iff {memory : Memory} {dedup : Deduplicated}
    {i : Nat} {input : FuseInput} {junk buffer : Nat → BitVec 8} :
    reconBuffer memory dedup i input junk = some buffer ↔
      (∀ (j : Nat) (param : CommandProgParam),
        input.captures[j]? = some param →
          ReconInside dedup i input j param) ∧
        Buffer.writeAll junk (reconSegments memory dedup i input) =
          buffer := by
  rw [reconBuffer, Loop.foldlM_guard_eq_some_iff, Buffer.writeAll,
    reconSegments, List.foldl_map]
  refine and_congr_left fun _ => ⟨fun inside j param atCapture => ?_, ?_⟩
  · exact inside (param, j) (List.mem_zipIdx_iff_getElem?.mpr atCapture)
  · intro inside item member
    exact inside item.2 item.1 (List.mem_zipIdx_iff_getElem?.mp member)

/-! ## The buffer of a body compiled alone -/

/-- What `command_graph_jit_llvmir` copies for every parameter. -/
def packSegments (memory : Memory) (params : List CommandProgParam)
    (slots : List Address) : List (Segment (BitVec 8)) :=
  params.zipIdx.map fun (param, k) =>
    ⟨param.offset, slotValue memory (slots.getD k 0) param.size⟩

/-- The buffer that `command_graph_jit_llvmir` fills. -/
def packBuffer (memory : Memory) (params : List CommandProgParam)
    (slots : List Address) : List (BitVec 8) :=
  Buffer.read (Buffer.writeAll (fun _ => 0) (packSegments memory params slots))
    0 (packedBufSize params)

/--
The packed arguments that `command_graph_jit_llvmir` gives a packed body with a
params table whose slots have not been packed yet.
-/
def jitPack (memory : Memory) (prog : CommandProg) :
    Option (List (BitVec 8)) :=
  match prog.source.params with
  | none => none
  | some params =>
      if 0 < params.length ∧ prog.argsSize = 0 then
        match prog.args with
        | none => some (packBuffer memory params [])
        | some args =>
            ((List.range params.length).mapM (slotAt args)).map
              (packBuffer memory params)
      else
        none

/-! ## The fused layout -/

section Layout

theorem size_le_footprint (unique : UniqueSlot) :
    unique.size ≤ unique.footprint := by
  unfold UniqueSlot.footprint
  split <;> omega

theorem le_alignUp (stop : Nat) {align : Nat} (aligned : 0 < align) :
    stop ≤ alignUp stop align := by
  have whole := Nat.div_add_mod (stop + align - 1) align
  have part := Nat.mod_lt (stop + align - 1) aligned
  rw [alignUp, Nat.mul_comm]
  omega

/-- Extents are placed in order, without overlaps, from `first` to `stop`. -/
structure Arranged (first : Nat) (extents : List (Nat × Nat))
    (offsets : List Nat) (stop : Nat) : Prop where
  length : offsets.length = extents.length
  first_le : first ≤ stop
  within : ∀ {k offset : Nat} {extent : Nat × Nat},
    offsets[k]? = some offset → extents[k]? = some extent →
      first ≤ offset ∧ offset + extent.1 ≤ stop
  ordered : ∀ {k k' offset offset' : Nat} {extent : Nat × Nat}, k < k' →
    offsets[k]? = some offset → extents[k]? = some extent →
      offsets[k']? = some offset' → offset + extent.1 ≤ offset'

theorem placeSlots_arranged (first : Nat) (extents : List (Nat × Nat))
    (aligned : ∀ extent ∈ extents, 0 < extent.2) :
    Arranged first extents (placeSlots first extents).1
      (placeSlots first extents).2 := by
  induction extents generalizing first with
  | nil =>
      exact
        { length := rfl
          first_le := Nat.le_refl first
          within := fun found => (Option.some_ne_none _ found.symm).elim
          ordered := fun _ found => (Option.some_ne_none _ found.symm).elim }
  | cons extent rest ih =>
      obtain ⟨size, align⟩ := extent
      have above := le_alignUp first
        (aligned (size, align) List.mem_cons_self)
      change first ≤ alignUp first align at above
      have others := ih (alignUp first align + size)
        fun extent member => aligned extent (List.mem_cons_of_mem _ member)
      have after := others.first_le
      simp only [placeSlots]
      refine
        { length := congrArg Nat.succ others.length
          first_le := by omega
          within := ?_
          ordered := ?_ }
      · intro k offset extent atOffset atExtent
        cases k with
        | zero =>
            obtain rfl := Option.some.inj atOffset
            obtain rfl := Option.some.inj atExtent
            exact ⟨above, after⟩
        | succ k =>
            have bounds := others.within atOffset atExtent
            exact ⟨by omega, bounds.2⟩
      · intro k k' offset offset' extent before atOffset atExtent atOffset'
        cases k' with
        | zero => exact (Nat.not_lt_zero _ before).elim
        | succ k' =>
            cases k with
            | zero =>
                obtain rfl := Option.some.inj atOffset
                obtain rfl := Option.some.inj atExtent
                obtain ⟨extent', atExtent'⟩ :
                    ∃ extent', rest[k']? = some extent' := by
                  have bound := (List.getElem?_eq_some_iff.mp atOffset').1
                  rw [List.length_cons, others.length] at bound
                  exact ⟨_, List.getElem?_eq_getElem (by omega)⟩
                exact (others.within atOffset' atExtent').1
            | succ k =>
                exact others.ordered (Nat.lt_of_succ_lt_succ before) atOffset
                  atExtent atOffset'

/-- Slots are placed in order, without overlaps, from `start` to `stop`. -/
structure Placed (start : Nat) (slots : List UniqueSlot)
    (offsets : List Nat) (stop : Nat) : Prop where
  length : offsets.length = slots.length
  start_le : start ≤ stop
  within : ∀ {k offset : Nat} {unique : UniqueSlot},
    offsets[k]? = some offset → slots[k]? = some unique →
      start ≤ offset ∧ offset + unique.footprint ≤ stop
  ordered : ∀ {k k' offset offset' : Nat} {unique : UniqueSlot}, k < k' →
    offsets[k]? = some offset → slots[k]? = some unique →
      offsets[k']? = some offset' → offset + unique.footprint ≤ offset'

theorem align_pos (unique : UniqueSlot) : 0 < unique.align := by
  unfold UniqueSlot.align
  split <;> omega

theorem placeSlots_placed (start : Nat) (slots : List UniqueSlot) :
    let placed := placeSlots start
      (slots.map fun unique => (unique.footprint, unique.align))
    Placed start slots placed.1 placed.2 := by
  have arranged := placeSlots_arranged start
    (slots.map fun unique => (unique.footprint, unique.align)) (by
      intro extent member
      obtain ⟨unique, -, rfl⟩ := List.mem_map.mp member
      exact align_pos unique)
  have extent : ∀ {k : Nat} {unique : UniqueSlot}, slots[k]? = some unique →
      (slots.map fun unique => (unique.footprint, unique.align))[k]? =
        some (unique.footprint, unique.align) := by
    intro k unique atSlot
    rw [List.getElem?_map, atSlot, Option.map_some]
  exact
    { length := by simpa using arranged.length
      start_le := arranged.first_le
      within := fun atOffset atSlot =>
        arranged.within atOffset (extent atSlot)
      ordered := fun before atOffset atSlot =>
        arranged.ordered before atOffset (extent atSlot) }

/-- The fused slots are in order, without overlaps and inside the buffer. -/
theorem packedLayout_placed (slots : List UniqueSlot) :
    Placed 0 slots (packedLayout slots).offsets (packedLayout slots).size := by
  have placed := placeSlots_placed 0 slots
  have larger : (placeSlots 0
      (slots.map fun unique => (unique.footprint, unique.align))).2 ≤
        (packedLayout slots).size := by
    simp only [packedLayout, layoutOf]
    split <;> omega
  exact
    { length := placed.length
      start_le := Nat.zero_le _
      within := fun atOffset atSlot =>
        ⟨Nat.zero_le _,
          Nat.le_trans (placed.within atOffset atSlot).2 larger⟩
      ordered := placed.ordered }

theorem slotValue_length_le (memory : Memory) (slot : Address) (size : Nat) :
    (slotValue memory slot size).length ≤ size := by
  unfold slotValue
  split <;> simp

variable {memory : Memory} {slots : List UniqueSlot} {k offset : Nat}
  {unique : UniqueSlot}

theorem fusedSegments_getElem? (atOffset :
      (packedLayout slots).offsets[k]? = some offset)
    (atSlot : slots[k]? = some unique) :
    (fusedSegments memory slots)[k]? =
      some ⟨offset, slotValue memory unique.slot unique.size⟩ := by
  have pair : ((packedLayout slots).offsets.zip slots)[k]? =
      some (offset, unique) :=
    List.getElem?_zip_eq_some.mpr ⟨atOffset, atSlot⟩
  rw [fusedSegments, List.getElem?_map, pair, Option.map_some]

/-- A slot of the fused buffer holds the value of its unique slot. -/
theorem fusedBuffer_at {byte : Nat} (value : BitVec 8)
    (atOffset : (packedLayout slots).offsets[k]? = some offset)
    (atSlot : slots[k]? = some unique) (inside : byte < unique.footprint)
    (stored : (slotValue memory unique.slot unique.size)[byte]? = some value) :
    fusedBuffer memory slots (offset + byte) = value := by
  have placed := packedLayout_placed slots
  refine Buffer.writeAll_eq (fusedSegments_getElem? atOffset atSlot)
    ((Segment.at?_add byte).trans stored) ?_
  -- Later slots begin behind this one.
  intro j other later at_j value' covered
  obtain ⟨⟨offset', unique'⟩, atPair, rfl⟩ :=
    Option.map_eq_some_iff.mp ((List.getElem?_map ..).symm.trans at_j)
  have behind := placed.ordered later atOffset atSlot
    (List.getElem?_zip_eq_some.mp atPair).1
  rw [Segment.at?_eq_none_iff.mpr (Or.inl (by show _ < offset'; omega))]
    at covered
  exact (Option.some_ne_none _ covered.symm).elim

/-- The slot of a null pointer holds zeros. -/
theorem fusedBuffer_null {byte : Nat}
    (atOffset : (packedLayout slots).offsets[k]? = some offset)
    (atSlot : slots[k]? = some unique) (inside : byte < unique.footprint)
    (null : unique.slot = 0) :
    fusedBuffer memory slots (offset + byte) = 0 := by
  have placed := packedLayout_placed slots
  refine Buffer.writeAll_outside fun segment member => ?_
  obtain ⟨j, at_j⟩ := List.getElem?_of_mem member
  obtain ⟨⟨offset', unique'⟩, atPair, rfl⟩ :=
    Option.map_eq_some_iff.mp ((List.getElem?_map ..).symm.trans at_j)
  obtain ⟨atOffset', atSlot'⟩ := List.getElem?_zip_eq_some.mp atPair
  have short := slotValue_length_le memory unique'.slot unique'.size
  have fits := size_le_footprint unique'
  rw [Segment.at?_eq_none_iff]
  show offset + byte < offset' ∨
    offset' + (slotValue memory unique'.slot unique'.size).length ≤
      offset + byte
  rcases Nat.lt_trichotomy j k with before | rfl | after
  · have behind : offset' + unique'.footprint ≤ offset :=
      placed.ordered before atOffset' atSlot' atOffset
    omega
  · rw [atOffset, Option.some.injEq] at atOffset'
    rw [atSlot, Option.some.injEq] at atSlot'
    subst atOffset'
    subst atSlot'
    rw [slotValue, if_pos null]
    exact Or.inr (Nat.le_add_right _ _)
  · have behind : offset + unique.footprint ≤ offset' :=
      placed.ordered after atOffset atSlot atOffset'
    omega

end Layout

end Cgir.Llvm
