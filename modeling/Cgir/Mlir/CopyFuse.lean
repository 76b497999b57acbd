import Mathlib.Algebra.Group.Nat.Defs
import Mathlib.Data.Finset.Basic
import Cgir.Mlir.Cg

/-!
# The copy-fuse pass of the dialect

`CopyFusePass` merges false-twin 1-D copies whose source ranges overlap or are
adjacent.  An absorbed copy loses its users at once but stays in the block, a
user of its operands, until all copies have been visited.

The order in which a token lists its users is a parameter.
-/

namespace Cgir.Mlir

/-! ## Copies -/

namespace Copy1DAttrs

variable (u v : Copy1DAttrs)

/-- `ubias`. -/
def bias : BitVec 64 :=
  u.srcAddr - u.dstAddr

/-- The source ranges overlap or are adjacent. -/
def touches : Bool :=
  u.srcAddr ≤ v.srcAddr + v.size && v.srcAddr ≤ u.srcAddr + u.size

/-- The tests of `try_fuse` on two false twins. -/
def fusable : Bool :=
  u.srcDuid = v.srcDuid && u.dstDuid = v.dstDuid && u.bias = v.bias &&
    u.touches v

/-- `u` spanning both ranges. -/
def fused : Copy1DAttrs :=
  let uEnd := u.srcAddr + u.size
  let vEnd := v.srcAddr + v.size
  let sb := if v.srcAddr < u.srcAddr then v.srcAddr else u.srcAddr
  let se := if uEnd < vEnd then vEnd else uEnd
  { u with srcAddr := sb, dstAddr := sb - u.bias, size := se - sb }

end Copy1DAttrs

/-- The attributes of a `cg.copy_1d`. -/
def Op.copy1D? (op : Op) : Option Copy1DAttrs :=
  match op.kind with
  | .copy1D attrs => some attrs
  | _ => none

/-! ## Uses -/

namespace Graph

variable (cg : Graph)

/-- `getUsers`, in the order of the block. -/
def users (token : OpId) : List OpId :=
  cg.body.flatMap fun op => List.replicate ((cg.operands op).count token) op

/-- `false_twins`. -/
def falseTwins (u v : OpId) : Bool :=
  (cg.operands u).toFinset = (cg.operands v).toFinset &&
    (cg.users u).toFinset = (cg.users v).toFinset

/-- Erase the token from the operands of its users. -/
def disconnect (token : OpId) : Graph :=
  (cg.users token).foldl
    (fun cg user =>
      cg.setOperands user ((cg.operands user).filter (· ≠ token)))
    cg

/-- `try_fuse`, without the fused graph when it returns false. -/
def tryFuse (u v : OpId) : Option Graph :=
  match (cg.ops u).copy1D?, (cg.ops v).copy1D? with
  | some uCopy, some vCopy =>
      if u ≠ v ∧ cg.falseTwins u v ∧ uCopy.fusable vCopy then
        some
          ((cg.updateOp u fun op =>
            { op with kind := .copy1D (uCopy.fused vCopy) }).disconnect v)
      else
        none
  | _, _ => none

end Graph

/-! ## The pass -/

/-- The graph, and `dead`. -/
structure Fusing where
  cg : Graph
  dead : List OpId

/-- Try the siblings one by one until one is fused. -/
def fuseSibling (state : Fusing) (u : OpId) : List OpId → Option Fusing
  | [] => none
  | v :: rest =>
      if v = u ∨ v ∈ state.dead then
        fuseSibling state u rest
      else
        match state.cg.tryFuse u v with
        | some cg => some { cg := cg, dead := state.dead ++ [v] }
        | none => fuseSibling state u rest

/-- `while (changed)`. -/
def fuseOp (getUsers : Graph → OpId → List OpId) (u : OpId) :
    Nat → Fusing → Option Fusing
  | 0, _ => none
  | fuel + 1, state =>
      match state.cg.operands u with
      | [] => some state
      | p0 :: _ =>
          match fuseSibling state u (getUsers state.cg p0) with
          | some fused => fuseOp getUsers u fuel fused
          | none => some state

/-- One element of `work`. -/
def fuseNext (getUsers : Graph → OpId → List OpId) (state : Fusing)
    (u : OpId) : Option Fusing :=
  if u ∈ state.dead then
    some state
  else
    fuseOp getUsers u (state.cg.body.length + 1) state

/-- `CopyFusePass::runOnOperation`. -/
def copyFuse (getUsers : Graph → OpId → List OpId) (cg : Graph) :
    Option Graph := do
  let work := cg.body.filter fun op => (cg.ops op).copy1D?.isSome
  let state ← work.foldlM (fuseNext getUsers) { cg := cg, dead := [] }
  return state.dead.foldl Graph.erase state.cg

/-! ## Data movement -/

/-- One byte moved: source device and address, destination device and address. -/
abbrev Transfer := BitVec 32 × BitVec 64 × BitVec 32 × BitVec 64

namespace Copy1DAttrs

/-- The copy moves the byte. -/
def Moves (copy : Copy1DAttrs) (transfer : Transfer) : Prop :=
  ∃ offset < copy.size.toNat,
    transfer =
      (copy.srcDuid, copy.srcAddr + BitVec.ofNat 64 offset,
        copy.dstDuid, copy.dstAddr + BitVec.ofNat 64 offset)

/-- The end of the source range. -/
def srcEnd (copy : Copy1DAttrs) : Nat :=
  copy.srcAddr.toNat + copy.size.toNat

/-- The source range ends within the address space. -/
def Unwrapped (copy : Copy1DAttrs) : Prop :=
  copy.srcEnd < 2 ^ 64

/-- Copies between the same devices with the same bias. -/
structure Parallel (u v : Copy1DAttrs) : Prop where
  srcDuid_eq : u.srcDuid = v.srcDuid
  dstDuid_eq : u.dstDuid = v.dstDuid
  bias_eq : u.bias = v.bias

theorem Parallel.symm {u v : Copy1DAttrs} (parallel : Parallel u v) :
    Parallel v u :=
  ⟨parallel.1.symm, parallel.2.symm, parallel.3.symm⟩

theorem Parallel.trans {u v w : Copy1DAttrs} (first : Parallel u v)
    (second : Parallel v w) : Parallel u w :=
  ⟨first.1.trans second.1, first.2.trans second.2, first.3.trans second.3⟩

variable {u v : Copy1DAttrs}

theorem fusable_iff :
    u.fusable v = true ↔ Parallel u v ∧ u.touches v = true := by
  simp only [fusable, Bool.and_eq_true, decide_eq_true_eq]
  constructor
  · rintro ⟨⟨⟨srcSame, dstSame⟩, biasSame⟩, touching⟩
    exact ⟨⟨srcSame, dstSame, biasSame⟩, touching⟩
  · rintro ⟨⟨srcSame, dstSame, biasSame⟩, touching⟩
    exact ⟨⟨⟨srcSame, dstSame⟩, biasSame⟩, touching⟩

/-- The end of a range that does not wrap is computed exactly. -/
theorem toNat_end (unwrapped : u.Unwrapped) :
    (u.srcAddr + u.size).toNat = u.srcEnd := by
  rw [BitVec.toNat_add]
  exact Nat.mod_eq_of_lt unwrapped

theorem touches_iff (uUnwrapped : u.Unwrapped) (vUnwrapped : v.Unwrapped) :
    u.touches v = true ↔
      u.srcAddr.toNat ≤ v.srcEnd ∧ v.srcAddr.toNat ≤ u.srcEnd := by
  rw [touches, Bool.and_eq_true, decide_eq_true_eq, decide_eq_true_eq,
    BitVec.le_def, BitVec.le_def, toNat_end uUnwrapped, toNat_end vUnwrapped]

/-- The fused copy spans both ranges. -/
theorem fused_range (uUnwrapped : u.Unwrapped) (vUnwrapped : v.Unwrapped) :
    (u.fused v).srcAddr.toNat = min u.srcAddr.toNat v.srcAddr.toNat ∧
      (u.fused v).srcEnd = max u.srcEnd v.srcEnd := by
  have start : (u.fused v).srcAddr.toNat =
      min u.srcAddr.toNat v.srcAddr.toNat := by
    simp only [fused, BitVec.lt_def]
    split <;> omega
  have stop : (if u.srcAddr + u.size < v.srcAddr + v.size then
      v.srcAddr + v.size else u.srcAddr + u.size).toNat =
        max u.srcEnd v.srcEnd := by
    have less := @BitVec.lt_def 64 (u.srcAddr + u.size) (v.srcAddr + v.size)
    rw [toNat_end uUnwrapped, toNat_end vUnwrapped] at less
    split
    · rename_i longer
      rw [toNat_end vUnwrapped, Nat.max_eq_right (less.mp longer).le]
    · rename_i shorter
      rw [less, Nat.not_lt] at shorter
      rw [toNat_end uUnwrapped, Nat.max_eq_left shorter]
  refine ⟨start, ?_⟩
  have size : (u.fused v).size.toNat =
      max u.srcEnd v.srcEnd - (u.fused v).srcAddr.toNat := by
    have ordered : (u.fused v).srcAddr.toNat ≤ max u.srcEnd v.srcEnd := by
      rw [start]
      unfold srcEnd
      omega
    rw [← stop] at ordered ⊢
    exact BitVec.toNat_sub_of_le (BitVec.le_def.mpr ordered)
  rw [srcEnd, size, start]
  unfold srcEnd
  omega

theorem fused_unwrapped (uUnwrapped : u.Unwrapped)
    (vUnwrapped : v.Unwrapped) : (u.fused v).Unwrapped := by
  rw [Unwrapped, (fused_range uUnwrapped vUnwrapped).2]
  exact Nat.max_lt.mpr ⟨uUnwrapped, vUnwrapped⟩

theorem fused_parallel : Parallel (u.fused v) u where
  srcDuid_eq := rfl
  dstDuid_eq := rfl
  bias_eq := by
    simp only [fused, bias]
    grind

/-- The bytes of a copy, by their source address. -/
theorem moves_iff (unwrapped : u.Unwrapped) (transfer : Transfer) :
    u.Moves transfer ↔
      transfer.1 = u.srcDuid ∧ transfer.2.2.1 = u.dstDuid ∧
        transfer.2.2.2 = transfer.2.1 - u.bias ∧
          u.srcAddr.toNat ≤ transfer.2.1.toNat ∧
            transfer.2.1.toNat < u.srcEnd := by
  have small := unwrapped
  unfold Unwrapped srcEnd at small
  constructor
  · rintro ⟨offset, bound, rfl⟩
    have address : (u.srcAddr + BitVec.ofNat 64 offset).toNat =
        u.srcAddr.toNat + offset := by
      rw [BitVec.toNat_add, BitVec.toNat_ofNat]
      omega
    refine ⟨rfl, rfl, ?_, ?_, ?_⟩
    · simp only [bias]
      grind
    · rw [address]
      exact Nat.le_add_right _ _
    · rw [address]
      exact Nat.add_lt_add_left bound _
  · obtain ⟨srcDuid, srcByte, dstDuid, dstByte⟩ := transfer
    rintro ⟨rfl, rfl, shifted, low, high⟩
    dsimp only at shifted low high
    unfold srcEnd at high
    have address : srcByte =
        u.srcAddr + BitVec.ofNat 64 (srcByte.toNat - u.srcAddr.toNat) := by
      apply BitVec.eq_of_toNat_eq
      rw [BitVec.toNat_add, BitVec.toNat_ofNat]
      omega
    refine ⟨srcByte.toNat - u.srcAddr.toNat, by omega, ?_⟩
    rw [← address, shifted]
    simp only [bias, Prod.mk.injEq, true_and]
    grind

/-- The fused copy moves the bytes of both copies. -/
theorem moves_fused (uUnwrapped : u.Unwrapped) (vUnwrapped : v.Unwrapped)
    (parallel : Parallel u v) (touching : u.touches v = true)
    (transfer : Transfer) :
    (u.fused v).Moves transfer ↔ u.Moves transfer ∨ v.Moves transfer := by
  obtain ⟨start, stop⟩ := fused_range uUnwrapped vUnwrapped
  rw [touches_iff uUnwrapped vUnwrapped] at touching
  rw [moves_iff (fused_unwrapped uUnwrapped vUnwrapped), moves_iff uUnwrapped,
    moves_iff vUnwrapped, start, stop, ← parallel.srcDuid_eq,
    ← parallel.dstDuid_eq, ← parallel.bias_eq, fused_parallel.bias_eq]
  have between :
      (min u.srcAddr.toNat v.srcAddr.toNat ≤ transfer.2.1.toNat ∧
          transfer.2.1.toNat < max u.srcEnd v.srcEnd) ↔
        (u.srcAddr.toNat ≤ transfer.2.1.toNat ∧
            transfer.2.1.toNat < u.srcEnd) ∨
          (v.srcAddr.toNat ≤ transfer.2.1.toNat ∧
            transfer.2.1.toNat < v.srcEnd) := by
    omega
  rw [between]
  tauto

/-- A range apart from two ranges that touch is apart from their union. -/
theorem touches_fused {w : Copy1DAttrs} (uUnwrapped : u.Unwrapped)
    (vUnwrapped : v.Unwrapped) (wUnwrapped : w.Unwrapped)
    (touching : u.touches v = true) (apart : ¬ w.touches u = true)
    (apart' : ¬ w.touches v = true) : ¬ w.touches (u.fused v) = true := by
  obtain ⟨start, stop⟩ := fused_range uUnwrapped vUnwrapped
  rw [touches_iff uUnwrapped vUnwrapped] at touching
  rw [touches_iff wUnwrapped uUnwrapped] at apart
  rw [touches_iff wUnwrapped vUnwrapped] at apart'
  rw [touches_iff wUnwrapped (fused_unwrapped uUnwrapped vUnwrapped), start,
    stop]
  have ordered : w.srcAddr.toNat ≤ w.srcEnd := Nat.le_add_right _ _
  omega

end Copy1DAttrs

end Cgir.Mlir
