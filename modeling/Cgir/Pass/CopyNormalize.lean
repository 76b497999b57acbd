import Mathlib.Data.Fin.VecNotation
import Cgir.Library.Loop
import Cgir.Pass.CopyFuse

/-!
# Copy normalization

`command_graph_t::pass_copy_normalize`: every 2-D copy whose columns lie one
after the other on both sides becomes a 1-D copy, every other 2-D copy is
expressed in bytes.

The two records of a copy share their storage in the union of `command_t`, so
that the pass writes one record over the other (`CopyStorage`).
-/

namespace Cgir.Pass.CopyNormalize

open Cgir.Library
open Cgir.Model
open Cgir.Pass.CopyFuse

/-! ## The storage of a copy -/

/-- The two device bytes of a copy, and the words behind them. -/
structure CopyStorage where
  srcDeviceUniqueId : DeviceUniqueId
  dstDeviceUniqueId : DeviceUniqueId
  word : Fin 7 → BitVec 64

namespace CopyStorage

variable (storage : CopyStorage)

/-- The storage as `copy_1D`. -/
def copy1D : CommandCopy1D where
  srcDeviceUniqueId := storage.srcDeviceUniqueId
  dstDeviceUniqueId := storage.dstDeviceUniqueId
  srcDeviceAddr := storage.word 0
  dstDeviceAddr := storage.word 1
  size := storage.word 2

/-- The storage as `copy_2D`. -/
def copy2D : CommandCopy2D where
  srcDeviceUniqueId := storage.srcDeviceUniqueId
  dstDeviceUniqueId := storage.dstDeviceUniqueId
  srcAddr := storage.word 0
  srcLd := storage.word 1
  dstAddr := storage.word 2
  dstLd := storage.word 3
  m := storage.word 4
  n := storage.word 5
  sizeofType := storage.word 6

/-- The storage that holds a 2-D copy. -/
def ofCopy2D (copy : CommandCopy2D) : CopyStorage where
  srcDeviceUniqueId := copy.srcDeviceUniqueId
  dstDeviceUniqueId := copy.dstDeviceUniqueId
  word :=
    ![copy.srcAddr, copy.srcLd, copy.dstAddr, copy.dstLd, copy.m, copy.n,
      copy.sizeofType]

/-- Write one word. -/
def write (i : Fin 7) (value : BitVec 64) : CopyStorage :=
  { storage with word := Function.update storage.word i value }

end CopyStorage

/-! ## The pass -/

section Source

/-- The fields of `copy_1D`, written in the order of the source. -/
def writeCopy1D (storage : CopyStorage) (srcAddr dstAddr size : BitVec 64) :
    CopyStorage :=
  ((storage.write 0 srcAddr).write 1 dstAddr).write 2 size

/-- The fields of `copy_2D` in bytes; each right-hand side reads the storage. -/
def scaleCopy2D (storage : CopyStorage) : CopyStorage :=
  let s := storage.copy2D.sizeofType
  let storage := storage.write 6 1
  let storage := storage.write 4 (storage.copy2D.m * s)
  let storage := storage.write 1 (storage.copy2D.srcLd * s)
  storage.write 3 (storage.copy2D.dstLd * s)

/-- The case of one 2-D copy type. -/
def handleCase (direction : CopyDirection) (storage : CopyStorage) :
    Command :=
  let copy := storage.copy2D
  if copy.m = copy.srcLd ∧ copy.m = copy.dstLd then
    .copy1D direction
      (writeCopy1D storage copy.srcAddr copy.dstAddr
        (copy.m * copy.n * copy.sizeofType)).copy1D
  else
    .copy2D direction (scaleCopy2D storage).copy2D

/-- The switch over the type of a command. -/
def normalizeCommand : Command → Command
  | .copy2D direction copy => handleCase direction (.ofCopy2D copy)
  | command => command

/-- The body of the loop; a command node without a command is refused. -/
def normalizeNode (heap : Heap) (u : NodeId) : Option Heap :=
  match (heap.nodes u).type, (heap.nodes u).command with
  | .command, none => none
  | .command, some command => some (heap.setCommand u (normalizeCommand command))
  | _, _ => some heap

/-- `command_graph_t::pass_copy_normalize`. -/
def passCopyNormalize (heap : Heap) (graph : GraphId) : Option Heap := do
  let (heap, nodes) ← heap.createNodeIterators graph false
  nodes.foldlM normalizeNode heap

end Source

/-! ## One copy -/

section Copy

variable (direction : CopyDirection) (copy : CommandCopy2D)

/-- Both sides store the columns one after the other. -/
def Contiguous : Prop :=
  copy.m = copy.srcLd ∧ copy.m = copy.dstLd

instance : Decidable (Contiguous copy) :=
  inferInstanceAs (Decidable (_ ∧ _))

/-- The 1-D copy of a contiguous copy. -/
def flattened : CommandCopy1D where
  srcDeviceUniqueId := copy.srcDeviceUniqueId
  dstDeviceUniqueId := copy.dstDeviceUniqueId
  srcDeviceAddr := copy.srcAddr
  dstDeviceAddr := copy.dstAddr
  size := copy.m * copy.n * copy.sizeofType

/-- The copy in bytes. -/
def scaled : CommandCopy2D :=
  { copy with
    m := copy.m * copy.sizeofType
    srcLd := copy.srcLd * copy.sizeofType
    dstLd := copy.dstLd * copy.sizeofType
    sizeofType := 1 }

/-- No field is overwritten before it is read. -/
theorem normalizeCommand_copy2D :
    normalizeCommand (.copy2D direction copy) =
      if Contiguous copy then .copy1D direction (flattened copy)
      else .copy2D direction (scaled copy) :=
  rfl

/-- The extents of the copy in bytes fit in 64 bits. -/
structure Fits : Prop where
  column : copy.m.toNat * copy.sizeofType.toNat < 2 ^ 64
  srcPitch : copy.srcLd.toNat * copy.sizeofType.toNat < 2 ^ 64
  dstPitch : copy.dstLd.toNat * copy.sizeofType.toNat < 2 ^ 64
  total : copy.m.toNat * copy.n.toNat * copy.sizeofType.toNat < 2 ^ 64

/-- The bytes a 2-D copy moves: byte `b` of the element `i` of the column `j`. -/
def Copy2DTransfers (transfer : Transfer) : Prop :=
  ∃ i < copy.m.toNat, ∃ j < copy.n.toNat, ∃ b < copy.sizeofType.toNat,
    transfer =
      (copy.srcDeviceUniqueId,
        copy.srcAddr + BitVec.ofNat 64
          ((j * copy.srcLd.toNat + i) * copy.sizeofType.toNat + b),
        copy.dstDeviceUniqueId,
        copy.dstAddr + BitVec.ofNat 64
          ((j * copy.dstLd.toNat + i) * copy.sizeofType.toNat + b))

/-- The bytes a command copies. -/
def CommandTransfers : Command → Transfer → Prop
  | .copy1D _ copy, transfer => CopyTransfers copy transfer
  | .copy2D _ copy, transfer => Copy2DTransfers copy transfer
  | _, _ => False

/-- The direction of a copy of either dimension. -/
def copyDirection : Command → Option CopyDirection
  | .copy1D direction _ => some direction
  | .copy2D direction _ => some direction
  | _ => none

variable {copy}

theorem toNat_mul {a b : BitVec 64} (fits : a.toNat * b.toNat < 2 ^ 64) :
    (a * b).toNat = a.toNat * b.toNat := by
  rw [BitVec.toNat_mul, Nat.mod_eq_of_lt fits]

/-- A byte of a column is a byte of one of its elements. -/
theorem exists_element {m s k : Nat} (inside : k < m * s) :
    ∃ i < m, ∃ b < s, k = i * s + b := by
  have positive : 0 < s := by
    rcases Nat.eq_zero_or_pos s with rfl | positive
    · omega
    · exact positive
  refine ⟨k / s, ?_, k % s, Nat.mod_lt k positive, ?_⟩
  · exact Nat.div_lt_of_lt_mul (by rwa [Nat.mul_comm])
  · rw [Nat.mul_comm]
    exact (Nat.div_add_mod k s).symm

/-- A byte of an element is a byte of the column. -/
theorem element_lt {m s i b : Nat} (iLt : i < m) (bLt : b < s) :
    i * s + b < m * s := by
  calc i * s + b < i * s + s := by omega
    _ = (i + 1) * s := by rw [Nat.succ_mul]
    _ ≤ m * s := Nat.mul_le_mul_right s iLt

/-- A flattened copy moves the same bytes. -/
theorem flattened_transfers (contiguous : Contiguous copy) (fits : Fits copy)
    (transfer : Transfer) :
    CopyTransfers (flattened copy) transfer ↔
      Copy2DTransfers copy transfer := by
  have rows : (copy.m * copy.n * copy.sizeofType).toNat =
      copy.n.toNat * (copy.m.toNat * copy.sizeofType.toNat) := by
    rw [BitVec.toNat_mul, BitVec.toNat_mul, Nat.mod_mul_mod,
      Nat.mod_eq_of_lt fits.total, ← Nat.mul_assoc,
      Nat.mul_comm copy.n.toNat]
  obtain ⟨srcEq, dstEq⟩ := contiguous
  unfold CopyTransfers Copy2DTransfers flattened
  rw [← srcEq, ← dstEq]
  constructor
  · rintro ⟨k, inside, rfl⟩
    rw [rows] at inside
    obtain ⟨j, jLt, l, lLt, rfl⟩ := exists_element inside
    obtain ⟨i, iLt, b, bLt, rfl⟩ := exists_element lLt
    refine ⟨i, iLt, j, jLt, b, bLt, ?_⟩
    rw [Nat.add_mul, Nat.mul_assoc, Nat.add_assoc]
  · rintro ⟨i, iLt, j, jLt, b, bLt, rfl⟩
    refine ⟨(j * copy.m.toNat + i) * copy.sizeofType.toNat + b, ?_, rfl⟩
    rw [rows, Nat.add_mul, Nat.mul_assoc, Nat.add_assoc]
    exact element_lt jLt (element_lt iLt bLt)

/-- A scaled copy moves the same bytes. -/
theorem scaled_transfers (fits : Fits copy) (transfer : Transfer) :
    Copy2DTransfers (scaled copy) transfer ↔
      Copy2DTransfers copy transfer := by
  have columns := toNat_mul fits.column
  have srcPitch := toNat_mul fits.srcPitch
  have dstPitch := toNat_mul fits.dstPitch
  unfold Copy2DTransfers scaled
  simp only [columns, srcPitch, dstPitch]
  have offset : ∀ ld i j b : Nat,
      (j * (ld * copy.sizeofType.toNat) + (i * copy.sizeofType.toNat + b)) *
          (1 : BitVec 64).toNat + 0 =
        (j * ld + i) * copy.sizeofType.toNat + b := by
    intro ld i j b
    have one : (1 : BitVec 64).toNat = 1 := rfl
    rw [one, Nat.mul_one, Nat.add_zero, Nat.add_mul, Nat.mul_assoc,
      Nat.add_assoc]
  constructor
  · rintro ⟨k, inside, j, jLt, c, single, rfl⟩
    obtain rfl : c = 0 := Nat.lt_one_iff.mp single
    obtain ⟨i, iLt, b, bLt, rfl⟩ := exists_element inside
    refine ⟨i, iLt, j, jLt, b, bLt, ?_⟩
    rw [offset, offset]
  · rintro ⟨i, iLt, j, jLt, b, bLt, rfl⟩
    refine
      ⟨i * copy.sizeofType.toNat + b, element_lt iLt bLt, j, jLt, 0,
        Nat.one_pos, ?_⟩
    rw [offset, offset]

/-- Scaling by a positive size keeps the copy apart from the 1-D case. -/
theorem not_contiguous_scaled (fits : Fits copy)
    (sized : 1 ≤ copy.sizeofType.toNat)
    (apart : ¬ Contiguous copy) : ¬ Contiguous (scaled copy) := by
  have cancel : ∀ ld : BitVec 64,
      ld.toNat * copy.sizeofType.toNat < 2 ^ 64 →
        copy.m * copy.sizeofType = ld * copy.sizeofType → copy.m = ld := by
    intro ld ldFits same
    have nat := congrArg BitVec.toNat same
    rw [toNat_mul fits.column, toNat_mul ldFits] at nat
    exact BitVec.eq_of_toNat_eq (Nat.eq_of_mul_eq_mul_right sized nat)
  rintro ⟨src, dst⟩
  exact apart ⟨cancel _ fits.srcPitch src, cancel _ fits.dstPitch dst⟩

/-- A copy in bytes is not scaled again. -/
theorem scaled_scaled : scaled (scaled copy) = scaled copy := by
  have one : ∀ a : BitVec 64, a * 1 = a := fun a => BitVec.mul_one a
  simp only [scaled, one]

/-- What is left of a copy: its direction, its bytes and a normal form. -/
theorem normalizeCommand_spec (fits : Fits copy)
    (sized : 1 ≤ copy.sizeofType.toNat) :
    copyDirection (normalizeCommand (.copy2D direction copy)) =
        some direction ∧
      (∀ transfer,
        CommandTransfers (normalizeCommand (.copy2D direction copy))
            transfer ↔ Copy2DTransfers copy transfer) ∧
      normalizeCommand (normalizeCommand (.copy2D direction copy)) =
        normalizeCommand (.copy2D direction copy) := by
  rw [normalizeCommand_copy2D]
  split_ifs with contiguous
  · exact ⟨rfl, flattened_transfers contiguous fits, rfl⟩
  · refine ⟨rfl, scaled_transfers fits, ?_⟩
    rw [normalizeCommand_copy2D,
      if_neg (not_contiguous_scaled fits sized contiguous), scaled_scaled]

end Copy

/-! ## The graph -/

section Graph

variable {heap : Heap} {graph : GraphId}

/-- The node once the pass has been at it. -/
def normalized (node : CommandGraphNode) : CommandGraphNode :=
  if node.type = .command then
    { node with command := node.command.map normalizeCommand }
  else node

/-- The heap once the pass has been at the given nodes. -/
def normalizeOn (heap : Heap) (done : List NodeId) : Heap :=
  { heap with
    nodes := fun n =>
      if n ∈ done then normalized (heap.nodes n) else heap.nodes n }

/-- Every command node of the graph holds a command. -/
def Commanded (heap : Heap) (graph : GraphId) : Prop :=
  ∀ n, heap.Reachable graph n → (heap.nodes n).type = .command →
    (heap.nodes n).command ≠ none

theorem normalizeOn_concat {done : List NodeId} {u : NodeId}
    (fresh : u ∉ done) :
    normalizeOn heap (done ++ [u]) =
      (normalizeOn heap done).updateNode u normalized := by
  have here : (normalizeOn heap done).nodes u = heap.nodes u := if_neg fresh
  have nodes : (normalizeOn heap (done ++ [u])).nodes =
      Function.update (normalizeOn heap done).nodes u
        (normalized ((normalizeOn heap done).nodes u)) := by
    funext n
    rw [Function.update_apply, here]
    by_cases same : n = u
    · simp [normalizeOn, same]
    · simp [normalizeOn, same]
  unfold Heap.updateNode
  rw [← nodes]
  rfl

/-- One iteration of the pass. -/
theorem normalizeNode_spec {done : List NodeId} {u : NodeId}
    (fresh : u ∉ done)
    (commanded : (heap.nodes u).type = .command →
      (heap.nodes u).command ≠ none) :
    normalizeNode (normalizeOn heap done) u =
      some (normalizeOn heap (done ++ [u])) := by
  have here : (normalizeOn heap done).nodes u = heap.nodes u := if_neg fresh
  rw [normalizeOn_concat fresh]
  rw [← here] at commanded
  generalize normalizeOn heap done = state at commanded ⊢
  unfold normalizeNode
  by_cases isCommand : (state.nodes u).type = .command
  · obtain ⟨command, holds⟩ :=
      Option.ne_none_iff_exists'.mp (commanded isCommand)
    have change : normalized (state.nodes u) =
        { state.nodes u with command := some (normalizeCommand command) } := by
      rw [normalized, if_pos isCommand, holds]
      rfl
    rw [isCommand, holds, Heap.updateNode, change]
    rfl
  · have change : normalized (state.nodes u) = state.nodes u :=
      if_neg isCommand
    rw [Heap.updateNode, change, Function.update_eq_self]
    split
    · rename_i isCommand' _
      exact (isCommand isCommand').elim
    · rename_i isCommand' _
      exact (isCommand isCommand').elim
    · rfl

/-- The pass on a graph whose command nodes hold commands. -/
theorem passCopyNormalize_eq (formed : heap.WellFormed graph)
    (ready : heap.WalkReady graph) (commanded : Commanded heap graph) :
    ∃ indexed nodes, indexed.unmarked = heap.unmarked ∧
      indexed.WalkReady graph ∧
      (∀ n, n ∈ nodes ↔ heap.Reachable graph n ∧
        n ≠ (heap.graphs graph).entry ∧ n ≠ (heap.graphs graph).exit) ∧
      passCopyNormalize heap graph = some (normalizeOn indexed nodes) := by
  obtain ⟨indexed, nodes, listed, iterated⟩ :=
    Heap.createNodeIterators_spec formed.allocated ready false
  have same := iterated.unmarked_eq
  have memIff : ∀ n, n ∈ nodes ↔ heap.Reachable graph n ∧
      n ≠ (heap.graphs graph).entry ∧ n ≠ (heap.graphs graph).exit := by
    intro n
    rw [iterated.mem_iff]
    simp
  obtain ⟨after, ran, rfl⟩ :=
    Loop.foldlM_invariant normalizeNode
      (fun done state => state = normalizeOn indexed done) nodes indexed
      (by
        rintro done u rest state split rfl
        refine ⟨_, normalizeNode_spec ?_ ?_, rfl⟩
        · intro member
          have nodup := split ▸ iterated.nodup
          exact
            (List.nodup_append.mp nodup).2.2 u member u
              List.mem_cons_self rfl
        · rw [Heap.unmarked_type same, Heap.unmarked_command same]
          apply commanded
          exact ((memIff u).mp (by simp [split])).1)
      (by simp [normalizeOn])
  refine ⟨indexed, nodes, same, iterated.ready, memIff, ?_⟩
  simp only [passCopyNormalize, listed]
  exact ran

/-- The lists of the nodes are not touched. -/
theorem normalizeOn_kept (nodes : List NodeId) (n : NodeId) :
    ((normalizeOn heap nodes).nodes n).type = (heap.nodes n).type ∧
      ((normalizeOn heap nodes).nodes n).deviceUniqueId =
          (heap.nodes n).deviceUniqueId ∧
        ((normalizeOn heap nodes).nodes n).walkId = (heap.nodes n).walkId ∧
          (normalizeOn heap nodes).successors n = heap.successors n ∧
            (normalizeOn heap nodes).predecessors n =
              heap.predecessors n := by
  simp only [normalizeOn, normalized, Heap.successors, Heap.predecessors]
  split_ifs <;> exact ⟨rfl, rfl, rfl, rfl, rfl⟩

theorem normalizeOn_command (nodes : List NodeId) (n : NodeId) :
    ((normalizeOn heap nodes).nodes n).command =
      if n ∈ nodes ∧ (heap.nodes n).type = .command then
        (heap.nodes n).command.map normalizeCommand
      else (heap.nodes n).command := by
  simp only [normalizeOn, normalized]
  split_ifs with member isCommand both both both
  all_goals first | rfl | simp_all

theorem normalizeOn_successors (nodes : List NodeId) :
    (normalizeOn heap nodes).successors = heap.successors :=
  funext fun n => (normalizeOn_kept nodes n).2.2.2.1

theorem normalizeOn_predecessors (nodes : List NodeId) :
    (normalizeOn heap nodes).predecessors = heap.predecessors :=
  funext fun n => (normalizeOn_kept nodes n).2.2.2.2

theorem normalizeOn_reachable (nodes : List NodeId) :
    (normalizeOn heap nodes).Reachable graph = heap.Reachable graph := by
  unfold Heap.Reachable
  rw [normalizeOn_successors]
  rfl

theorem normalizeOn_wellFormed (nodes : List NodeId)
    (formed : heap.WellFormed graph) :
    (normalizeOn heap nodes).WellFormed graph := by
  have linkEq : (normalizeOn heap nodes).Link graph = heap.Link graph := by
    unfold Heap.Link
    rw [normalizeOn_reachable, normalizeOn_successors]
  exact {
    graph_lt := formed.graph_lt
    allocated := by
      rw [normalizeOn_reachable]
      exact formed.allocated
    successors_nodup := by
      rw [normalizeOn_reachable, normalizeOn_successors]
      exact formed.successors_nodup
    predecessors_nodup := by
      rw [normalizeOn_reachable, normalizeOn_predecessors]
      exact formed.predecessors_nodup
    mem_predecessors := by
      rw [normalizeOn_reachable, normalizeOn_predecessors, linkEq]
      exact formed.mem_predecessors
    acyclic := by
      rw [linkEq]
      exact formed.acyclic
    reaches_exit := by
      rw [normalizeOn_reachable, normalizeOn_successors]
      exact formed.reaches_exit }

theorem normalizeOn_commanded (nodes : List NodeId)
    (commanded : Commanded heap graph) :
    Commanded (normalizeOn heap nodes) graph := by
  intro n reachable isCommand
  rw [normalizeOn_reachable] at reachable
  rw [(normalizeOn_kept nodes n).1] at isCommand
  rw [normalizeOn_command]
  have holds := commanded n reachable isCommand
  split_ifs
  · rwa [Ne, Option.map_eq_none_iff]
  · exact holds

/-- Nodes that are normalized already are left as they are. -/
theorem normalizeOn_eq_self {nodes : List NodeId}
    (done : ∀ n ∈ nodes, (heap.nodes n).type = .command →
      (heap.nodes n).command.map normalizeCommand =
        (heap.nodes n).command) :
    normalizeOn heap nodes = heap := by
  have same : ∀ n, (if n ∈ nodes then normalized (heap.nodes n)
      else heap.nodes n) = heap.nodes n := by
    intro n
    split_ifs with member
    · unfold normalized
      split_ifs with isCommand
      · rw [done n member isCommand]
      · rfl
    · rfl
  unfold normalizeOn
  rw [funext same]

/-- A run of the pass, and a second one on its result. -/
structure Normalized (heap after again : Heap) : Prop where
  kept : ∀ n, (after.nodes n).type = (heap.nodes n).type ∧
    (after.nodes n).deviceUniqueId = (heap.nodes n).deviceUniqueId ∧
      after.successors n = heap.successors n ∧
        after.predecessors n = heap.predecessors n
  others : ∀ n,
    (∀ direction copy,
      (heap.nodes n).command ≠ some (.copy2D direction copy)) →
      (after.nodes n).command = (heap.nodes n).command
  transfers : ∀ n direction copy,
    (heap.nodes n).command = some (.copy2D direction copy) →
      Fits copy → 1 ≤ copy.sizeofType.toNat →
        ∃ command, (after.nodes n).command = some command ∧
          copyDirection command = some direction ∧
          (∀ transfer, CommandTransfers command transfer ↔
            Copy2DTransfers copy transfer) ∧
          (again.nodes n).command = some command
  unchanged :
    (∀ n direction copy,
      (heap.nodes n).command = some (.copy2D direction copy) →
        Fits copy ∧ 1 ≤ copy.sizeofType.toNat) →
      again.unmarked = after.unmarked

/-- Commands other than 2-D copies are left as they are. -/
theorem normalizeCommand_other {command : Command}
    (other : ∀ direction copy, command ≠ .copy2D direction copy) :
    normalizeCommand command = command := by
  cases command with
  | copy2D direction copy => exact (other direction copy rfl).elim
  | _ => rfl

/-- Normalization is idempotent where all extents fit. -/
theorem map_normalizeCommand_idem {command : Option Command}
    (fits : ∀ direction copy, command = some (.copy2D direction copy) →
      Fits copy ∧ 1 ≤ copy.sizeofType.toNat) :
    (command.map normalizeCommand).map normalizeCommand =
      command.map normalizeCommand := by
  cases command with
  | none => rfl
  | some command =>
      refine congrArg some ?_
      by_cases is2D : ∃ direction copy, command = .copy2D direction copy
      · obtain ⟨direction, copy, rfl⟩ := is2D
        obtain ⟨copyFits, sized⟩ := fits direction copy rfl
        exact (normalizeCommand_spec direction copyFits sized).2.2
      · have other : ∀ direction copy, command ≠ .copy2D direction copy :=
          fun direction copy same => is2D ⟨direction, copy, same⟩
        rw [normalizeCommand_other other, normalizeCommand_other other]

/--
The pass keeps the bytes and the direction of every 2-D copy whose extents fit
in 64 bits, and a second run leaves what the first one made of it.
-/
theorem passCopyNormalize_keeps_transfers (formed : heap.WellFormed graph)
    (ready : heap.WalkReady graph) (commanded : Commanded heap graph) :
    ∃ after again, passCopyNormalize heap graph = some after ∧
      passCopyNormalize after graph = some again ∧
        Normalized heap after again := by
  obtain ⟨indexed, nodes, same, ready', memIff, ran⟩ :=
    passCopyNormalize_eq formed ready commanded
  have formed' := formed.congr same
  have commanded' : Commanded indexed graph := by
    intro n
    rw [Heap.reachable_congr same, Heap.unmarked_type same,
      Heap.unmarked_command same]
    exact commanded n
  have readyAfter : (normalizeOn indexed nodes).WalkReady graph := by
    intro n reachable notEntry
    rw [normalizeOn_reachable] at reachable
    rw [(normalizeOn_kept nodes n).2.2.1]
    exact ready' n reachable notEntry
  obtain ⟨indexed', nodes', same', -, memIff', ran'⟩ :=
    passCopyNormalize_eq (normalizeOn_wellFormed nodes formed') readyAfter
      (normalizeOn_commanded nodes commanded')
  obtain ⟨entryEq, exitEq, -⟩ := Heap.unmarked_graphs same graph
  have nodesEq : ∀ n, n ∈ nodes' ↔ n ∈ nodes := by
    intro n
    rw [memIff', memIff, normalizeOn_reachable, Heap.reachable_congr same,
      ← entryEq, ← exitEq]
    rfl
  have typeEq : ∀ n, ((normalizeOn indexed nodes).nodes n).type =
      (heap.nodes n).type := fun n =>
    (normalizeOn_kept nodes n).1.trans (Heap.unmarked_type same n)
  have afterCommand : ∀ n, ((normalizeOn indexed nodes).nodes n).command =
      if n ∈ nodes ∧ (heap.nodes n).type = .command then
        (heap.nodes n).command.map normalizeCommand
      else (heap.nodes n).command := by
    intro n
    rw [normalizeOn_command, Heap.unmarked_type same,
      Heap.unmarked_command same]
  have againCommand : ∀ n, ((normalizeOn indexed' nodes').nodes n).command =
      if n ∈ nodes ∧ (heap.nodes n).type = .command then
        ((normalizeOn indexed nodes).nodes n).command.map normalizeCommand
      else ((normalizeOn indexed nodes).nodes n).command := by
    intro n
    rw [normalizeOn_command, Heap.unmarked_type same',
      Heap.unmarked_command same', typeEq]
    simp only [nodesEq]
  refine ⟨_, _, ran, ran', ?_, ?_, ?_, ?_⟩
  · intro n
    rw [← Heap.unmarked_type same, ← Heap.unmarked_deviceUniqueId same,
      ← Heap.unmarked_successors same, ← Heap.unmarked_predecessors same]
    obtain ⟨type, device, -, successors, predecessors⟩ :=
      normalizeOn_kept nodes n
    exact ⟨type, device, successors, predecessors⟩
  · intro n other
    rw [afterCommand]
    split_ifs
    · cases holds : (heap.nodes n).command with
      | none => rfl
      | some command =>
          refine congrArg some (normalizeCommand_other ?_)
          rintro direction copy rfl
          exact other direction copy holds
    · rfl
  · intro n direction copy holds fits sized
    obtain ⟨directionEq, transfersIff, stable⟩ :=
      normalizeCommand_spec direction fits sized
    rw [againCommand, afterCommand, holds]
    split_ifs with visited
    · exact ⟨_, rfl, directionEq, transfersIff, congrArg some stable⟩
    · exact ⟨_, rfl, rfl, fun _ => Iff.rfl, rfl⟩
  · intro fits
    have idle : normalizeOn indexed' nodes' = indexed' := by
      apply normalizeOn_eq_self
      intro n member isCommand
      rw [Heap.unmarked_type same', typeEq] at isCommand
      rw [Heap.unmarked_command same', afterCommand,
        if_pos ⟨(nodesEq n).mp member, isCommand⟩]
      exact map_normalizeCommand_idem (fits n)
    rw [idle, same']

end Graph

/-! ## A tile and a whole matrix -/

/-- A copy of `m` by 8 elements of 4 bytes out of columns of 16. -/
def tileCopy (m : BitVec 64) : CommandCopy2D where
  srcDeviceUniqueId := 1
  dstDeviceUniqueId := 2
  srcAddr := 4096
  srcLd := 16
  dstAddr := 8192
  dstLd := 16
  m := m
  n := 8
  sizeofType := 4

/-- A tile of a matrix, then the whole matrix. -/
def tiles : Heap :=
  Heap.ofNodes
    [Heap.linkedNode unspecifiedDeviceUniqueId .empty [] [1],
      { Heap.linkedNode 1 .command [0] [2] with
        command := some (.copy2D .d2d (tileCopy 3)) },
      { Heap.linkedNode 1 .command [1] [3] with
        command := some (.copy2D .d2d (tileCopy 16)) },
      Heap.linkedNode unspecifiedDeviceUniqueId .empty [2] []]
    { entry := 0, exit := 3, walkId := 0, isSequence := false }

theorem passCopyNormalize_keeps_transfers_tiles :
    ∃ after again, passCopyNormalize tiles 0 = some after ∧
      passCopyNormalize after 0 = some again ∧
        Normalized tiles after again := by
  have numbered : tiles.Numbered 0 := by decide
  have commanded : ∀ n : Nat, n < tiles.nodeCount →
      (tiles.nodes n).type = .command → (tiles.nodes n).command ≠ none := by
    decide
  apply passCopyNormalize_keeps_transfers
  · exact numbered.wellFormed
  · exact numbered.walkReady (by decide)
  · intro n reachable
    exact commanded n (numbered.lt_of_reachable reachable)

/-- The tile is expressed in bytes, the matrix becomes one segment. -/
example :
    (passCopyNormalize tiles 0).map (fun after =>
        ((after.nodes 1).command, (after.nodes 2).command)) =
      some
        (some (.copy2D .d2d
            { tileCopy 12 with srcLd := 64, dstLd := 64, sizeofType := 1 }),
          some (.copy1D .d2d
            { srcDeviceUniqueId := 1
              dstDeviceUniqueId := 2
              srcDeviceAddr := 4096
              dstDeviceAddr := 8192
              size := 512 })) := by
  decide

end Cgir.Pass.CopyNormalize
