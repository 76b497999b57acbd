import Cgir.Model.Bitset2d

/-!
# The indices of the reachability matrix

The reduce-edge pass on operations keeps its matrix in a
`bitset2d_t<uint64_t, int>`, so that the index computations of its constructor
and of `row` are ones of `int`.  They are those of the matrix over unbounded
indices up to 370703 operations.
-/

namespace Cgir.Mlir.Reachability

open Cgir.Model

/-! ## Computations of `int` -/

/-- The smallest value of `int`. -/
def intMin : Int := -2 ^ 31

/-- The largest value of `int`. -/
def intMax : Int := 2 ^ 31 - 1

/-- The result of an operation on `int`, and nothing when it overflows. -/
def int (value : Int) : Option Int :=
  if intMin ≤ value ∧ value ≤ intMax then some value else none

/-- `(n + BITS - 1) / BITS`, with a quotient that is rounded to zero. -/
def stride (n : Int) : Option Int := do
  let sum ← int (n + 64)
  let last ← int (sum - 1)
  int (last.tdiv 64)

/-- `n * stride`, the number of words that the constructor allocates. -/
def allocated (n : Int) : Option Int := do
  int (n * (← stride n))

/-- `i * this->stride`, the offset of a row. -/
def rowOffset (n i : Int) : Option Int := do
  int (i * (← stride n))

/-- The largest number of operations whose matrix is allocated. -/
def maxOps : Nat := 370703

/-- The stride that the matrix over unbounded indices has. -/
abbrev fullStride (n : Nat) : Nat :=
  (Bitset2d.new 6 n).stride

/--
The computations for `n` operations stay in the range of `int` and give the
stride, the size and the addresses of the matrix over unbounded indices.
-/
structure Intended (n : Nat) : Prop where
  stride : stride n = some (fullStride n : Int)
  allocated : allocated n = some (n * fullStride n : Int)
  row : ∀ i < n,
    rowOffset n i = some ((Bitset2d.new 6 n).wordIndex i 0 : Int)
  word : ∀ i < n, ∀ w < fullStride n,
    int ((Bitset2d.new 6 n).wordIndex i w) =
      some ((Bitset2d.new 6 n).wordIndex i w : Int)

/-! ## The bound -/

theorem int_eq_some_iff {value result : Int} :
    int value = some result ↔
      (intMin ≤ value ∧ value ≤ intMax) ∧ value = result := by
  unfold int
  split
  · rename_i fits
    simp [fits]
  · rename_i overflows
    simp [overflows]

/-- Natural numbers up to the largest value are ones of `int`. -/
theorem int_natCast {value : Nat} (bound : (value : Int) ≤ intMax) :
    int value = some (value : Int) := by
  rw [int_eq_some_iff]
  refine ⟨⟨?_, bound⟩, rfl⟩
  simp only [intMin]
  omega

theorem fullStride_eq (n : Nat) : fullStride n = (n + 63) / 64 :=
  rfl

/-- The size grows with the number of operations. -/
theorem size_le_iff (n : Nat) :
    ((n * fullStride n : Nat) : Int) ≤ intMax ↔ n ≤ 370703 := by
  have largest : intMax = ((2147483647 : Nat) : Int) := rfl
  rw [largest, Int.ofNat_le, fullStride_eq]
  constructor
  · intro fits
    by_contra past
    have rows : 370704 ≤ n := by omega
    have words : 5793 ≤ (n + 63) / 64 := by omega
    have size := Nat.mul_le_mul rows words
    omega
  · intro rows
    have words : (n + 63) / 64 ≤ 5793 := by omega
    have size := Nat.mul_le_mul rows words
    omega

theorem stride_eq {n : Nat} (bound : n ≤ 370703) :
    stride n = some (fullStride n : Int) := by
  have largest : intMax = 2147483647 := rfl
  have sum : int ((n : Int) + 64) = some ((n + 64 : Nat) : Int) := by
    have fits : ((n + 64 : Nat) : Int) ≤ intMax := by omega
    exact_mod_cast int_natCast fits
  have last : int (((n + 64 : Nat) : Int) - 1) =
      some ((n + 63 : Nat) : Int) := by
    have same : ((n + 64 : Nat) : Int) - 1 = ((n + 63 : Nat) : Int) := by omega
    rw [same, int_natCast (by omega)]
  have quotient : Int.tdiv ((n + 63 : Nat) : Int) 64 =
      ((fullStride n : Nat) : Int) := by
    rw [fullStride_eq]
    rfl
  simp only [stride, sum, last, quotient, Option.bind_eq_bind,
    Option.bind_some]
  exact int_natCast (by rw [fullStride_eq]; omega)

/-- No index of an allocated matrix overflows. -/
theorem index_eq {n index : Nat} (bound : n ≤ 370703)
    (inside : index ≤ n * fullStride n) :
    int (index : Int) = some (index : Int) := by
  have size := (size_le_iff n).mpr bound
  have cast : (index : Int) ≤ ((n * fullStride n : Nat) : Int) := by
    exact_mod_cast inside
  exact int_natCast (cast.trans size)

/-- The matrix for at most `maxOps` operations is allocated. -/
theorem allocated_eq {n : Nat} (bound : n ≤ maxOps) :
    allocated n = some (n * fullStride n : Int) := by
  simp only [allocated, stride_eq bound, Option.bind_eq_bind,
    Option.bind_some]
  exact_mod_cast index_eq bound le_rfl

/-- A matrix is allocated for at most `maxOps` operations. -/
theorem exists_allocated_iff {n : Nat} :
    (∃ size, allocated n = some size) ↔ n ≤ maxOps := by
  refine ⟨?_, fun bound => ⟨_, allocated_eq bound⟩⟩
  rintro ⟨size, isSize⟩
  simp only [allocated, stride, Option.bind_eq_bind, Option.bind_eq_some_iff,
    int_eq_some_iff] at isSize
  obtain ⟨words, ⟨_, ⟨-, rfl⟩, _, ⟨-, rfl⟩, -, rfl⟩, fits, -⟩ := isSize
  have last : (n : Int) + 64 - 1 = ((n + 63 : Nat) : Int) := by omega
  rw [last] at fits
  exact (size_le_iff n).mp (by exact_mod_cast fits.2)

/--
The index computations of the matrix stay in the range of `int` for at most
370703 operations, and for these they address what they are meant to.
-/
theorem intended_iff (n : Nat) : Intended n ↔ n ≤ 370703 := by
  constructor
  · intro intended
    exact exists_allocated_iff.mp ⟨_, intended.allocated⟩
  · intro bound
    have stride := stride_eq bound
    refine ⟨stride, allocated_eq bound, ?_, ?_⟩
    · intro i rowLt
      simp only [rowOffset, stride, Option.bind_eq_bind, Option.bind_some]
      have below : i * fullStride n ≤ n * fullStride n :=
        Nat.mul_le_mul_right _ rowLt.le
      exact_mod_cast index_eq bound below
    · intro i rowLt w wordLt
      exact index_eq bound (Bitset2d.wordIndex_lt rowLt wordLt).le

/-- The first number of operations for which the size of the matrix overflows. -/
theorem allocated_overflows :
    ((370704 : Nat) : Int) ≤ intMax ∧ stride 370704 = some 5793 ∧
      allocated 370704 = none ∧
        ¬ ∀ n : Nat, (n : Int) ≤ intMax → Intended n := by
  have overflows : allocated 370704 = none := by decide
  refine ⟨by decide, by decide, overflows, ?_⟩
  intro all
  have intended := (all 370704 (by decide)).allocated
  rw [show ((370704 : Nat) : Int) = 370704 from rfl, overflows] at intended
  cases intended

end Cgir.Mlir.Reachability
