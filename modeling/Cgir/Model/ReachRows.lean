import Cgir.Library.MarkSearch
import Cgir.Model.Bitset2d

/-!
# Reachability matrices

The row of a vertex holds the vertex itself and the rows of its successors.
Rows that are made in an order in which successors come first are the sets of
vertices reachable from each vertex (`Rows.foldl`).
-/

namespace Cgir.Model.ReachRows

open Relation
open Cgir.Library

variable {Vertex : Type} {shift : Nat}

/-- Set the bit of a vertex in its row and join the rows of its successors. -/
def fill (succ : Vertex → List Vertex) (index : Vertex → Nat)
    (r : Bitset2d shift) (vertex : Vertex) : Bitset2d shift :=
  (succ vertex).foldl
    (fun r next => r.orRows (index vertex) (index next))
    (r.set (index vertex) (index vertex))

/-- The indices of the vertices of a list are their positions. -/
def Indexed (index : Vertex → Nat) (vertices : List Vertex) : Prop :=
  ∀ vertex ∈ vertices, vertices[index vertex]? = some vertex

variable {index : Vertex → Nat} {vertices : List Vertex}

theorem Indexed.lt (indexed : Indexed index vertices) {vertex : Vertex}
    (member : vertex ∈ vertices) : index vertex < vertices.length :=
  (List.getElem?_eq_some_iff.mp (indexed vertex member)).1

theorem Indexed.inj (indexed : Indexed index vertices)
    {vertex other : Vertex} (member : vertex ∈ vertices)
    (otherMember : other ∈ vertices) (same : index vertex = index other) :
    vertex = other := by
  have position := indexed vertex member
  rw [same, indexed other otherMember] at position
  exact (Option.some.inj position).symm

/-- The matrix after the bit of a vertex is set in its row. -/
theorem test_set {r : Bitset2d shift} (shaped : r.Shaped vertices.length)
    (indexed : Indexed index vertices) {vertex w v : Vertex}
    (member : vertex ∈ vertices) (wMember : w ∈ vertices)
    (vMember : v ∈ vertices) :
    (r.set (index vertex) (index vertex)).test (index w) (index v) = true ↔
      (w = vertex ∧ v = vertex) ∨ r.test (index w) (index v) = true := by
  rw [Bitset2d.test_set (shaped.word_lt (indexed.lt member))
      (shaped.word_lt (indexed.lt vMember)),
    Bool.or_eq_true, decide_eq_true_eq]
  apply or_congr_left
  constructor
  · rintro ⟨wSame, vSame⟩
    exact
      ⟨indexed.inj wMember member wSame, indexed.inj vMember member vSame⟩
  · rintro ⟨rfl, rfl⟩
    exact ⟨rfl, rfl⟩

theorem test_orRows {r : Bitset2d shift} (shaped : r.Shaped vertices.length)
    (indexed : Indexed index vertices) {vertex next w v : Vertex}
    (member : vertex ∈ vertices) (wMember : w ∈ vertices)
    (vMember : v ∈ vertices) :
    (r.orRows (index vertex) (index next)).test (index w) (index v) = true ↔
      r.test (index w) (index v) = true ∨
        (w = vertex ∧ r.test (index next) (index v) = true) := by
  rw [Bitset2d.test_orRows (shaped.word_lt (indexed.lt vMember)),
    Bool.or_eq_true, Bool.and_eq_true, decide_eq_true_eq]
  apply or_congr_right
  apply and_congr_left
  intro _
  exact ⟨indexed.inj wMember member, fun equal => by rw [equal]⟩

/-- Joining the rows of a list of other vertices to the row of a vertex. -/
theorem test_orAll (indexed : Indexed index vertices) {vertex : Vertex}
    (member : vertex ∈ vertices) (list : List Vertex)
    (apart : vertex ∉ list) :
    ∀ r : Bitset2d shift, r.Shaped vertices.length →
      let after :=
        list.foldl (fun r next => r.orRows (index vertex) (index next)) r
      after.Shaped vertices.length ∧
        ∀ w ∈ vertices, ∀ v ∈ vertices, (∀ next ∈ list, next ∈ vertices) →
          (after.test (index w) (index v) = true ↔
            r.test (index w) (index v) = true ∨
              (w = vertex ∧
                ∃ next ∈ list, r.test (index next) (index v) = true)) := by
  induction list with
  | nil =>
      intro r shaped
      exact ⟨shaped, by simp⟩
  | cons head rest induction =>
      intro r shaped
      obtain ⟨afterShaped, after⟩ :=
        induction (fun inRest => apart (List.mem_cons_of_mem head inRest)) _
          (shaped.orRows (index vertex) (index head))
      refine ⟨afterShaped, ?_⟩
      intro w wMember v vMember inside
      rw [List.foldl_cons, after w wMember v vMember
        (fun next nextMember =>
          inside next (List.mem_cons_of_mem _ nextMember)),
        test_orRows shaped indexed member wMember vMember]
      -- The rows of the rest are those from before the first join.
      have untouched : ∀ next ∈ rest,
          ((r.orRows (index vertex) (index head)).test (index next)
              (index v) = true ↔
            r.test (index next) (index v) = true) := by
        intro next nextMember
        rw [test_orRows shaped indexed member
          (inside next (List.mem_cons_of_mem _ nextMember)) vMember]
        have different : next ≠ vertex := by
          rintro rfl
          exact apart (List.mem_cons_of_mem _ nextMember)
        simp [different]
      constructor
      · rintro ((old | ⟨rfl, viaHead⟩) | ⟨rfl, next, nextMember, viaRest⟩)
        · exact Or.inl old
        · exact Or.inr ⟨rfl, head, by simp, viaHead⟩
        · exact
            Or.inr ⟨rfl, next, List.mem_cons_of_mem _ nextMember,
              (untouched next nextMember).mp viaRest⟩
      · rintro (old | ⟨rfl, next, nextMember, via⟩)
        · exact Or.inl (Or.inl old)
        · rcases List.mem_cons.mp nextMember with rfl | inRest
          · exact Or.inl (Or.inr ⟨rfl, via⟩)
          · exact Or.inr ⟨rfl, next, inRest, (untouched next inRest).mpr via⟩

/-- The rows of some vertices are the vertices reachable from them. -/
structure Rows (succ : Vertex → List Vertex) (index : Vertex → Nat)
    (vertices done : List Vertex) (r : Bitset2d shift) : Prop where
  shaped : r.Shaped vertices.length
  test_iff : ∀ w ∈ vertices, ∀ v ∈ vertices,
    r.test (index w) (index v) = true ↔
      w ∈ done ∧ MarkSearch.Reach succ w v

theorem Rows.nil (shift : Nat) (succ : Vertex → List Vertex)
    (index : Vertex → Nat) (vertices : List Vertex) :
    Rows succ index vertices [] (Bitset2d.new shift vertices.length) where
  shaped := Bitset2d.new_shaped shift vertices.length
  test_iff := by simp

variable {succ : Vertex → List Vertex}

/-- One more row, once the rows of the successors are made. -/
theorem Rows.fill (indexed : Indexed index vertices) {done : List Vertex}
    {r : Bitset2d shift} (rows : Rows succ index vertices done r)
    {vertex : Vertex} (member : vertex ∈ vertices) (new : vertex ∉ done)
    (below : ∀ next ∈ succ vertex, next ∈ vertices ∧ next ∈ done) :
    Rows succ index vertices (done ++ [vertex])
      (ReachRows.fill succ index r vertex) := by
  have apart : vertex ∉ succ vertex := fun loop => new (below vertex loop).2
  obtain ⟨shaped, joined⟩ :=
    test_orAll indexed member (succ vertex) apart _
      (rows.shaped.set (index vertex) (index vertex))
  refine ⟨shaped, ?_⟩
  intro w wMember v vMember
  unfold ReachRows.fill
  rw [joined w wMember v vMember fun next edge => (below next edge).1,
    test_set rows.shaped indexed member wMember vMember,
    rows.test_iff w wMember v vMember]
  have viaSuccessor : ∀ next ∈ succ vertex,
      ((r.set (index vertex) (index vertex)).test (index next)
          (index v) = true ↔
        MarkSearch.Reach succ next v) := by
    intro next edge
    rw [test_set rows.shaped indexed member (below next edge).1 vMember,
      rows.test_iff next (below next edge).1 v vMember]
    have different : next ≠ vertex := fun equal => apart (equal ▸ edge)
    simp [different, (below next edge).2]
  by_cases isVertex : w = vertex
  · subst isVertex
    have firstStep : MarkSearch.Reach succ w v ↔
        w = v ∨ ∃ next, next ∈ succ w ∧ MarkSearch.Reach succ next v :=
      ReflTransGen.cases_head_iff
    rw [firstStep]
    simp only [new, false_and, or_false, true_and, List.mem_append,
      List.mem_singleton, or_true]
    constructor
    · rintro (equal | ⟨next, edge, via⟩)
      · exact Or.inl equal.symm
      · exact Or.inr ⟨next, edge, (viaSuccessor next edge).mp via⟩
    · rintro (equal | ⟨next, edge, path⟩)
      · exact Or.inl equal.symm
      · exact Or.inr ⟨next, edge, (viaSuccessor next edge).mpr path⟩
  · simp [isVertex]

/-- The rows of a list in which successors come first. -/
theorem Rows.foldl (indexed : Indexed index vertices)
    (inside : ∀ vertex ∈ vertices, ∀ next ∈ succ vertex, next ∈ vertices)
    {visited : List Vertex} (distinct : visited.Nodup)
    (members : ∀ vertex ∈ visited, vertex ∈ vertices)
    (sorted : MarkSearch.PostSorted succ (fun _ => False) visited)
    (later : List Vertex) :
    ∀ (done : List Vertex) (r : Bitset2d shift), visited = done ++ later →
      Rows succ index vertices done r →
        Rows succ index vertices visited
          (later.foldl (ReachRows.fill succ index) r) := by
  induction later with
  | nil =>
      intro done r split rows
      rw [List.append_nil] at split
      exact split ▸ rows
  | cons vertex rest induction =>
      intro done r split rows
      have member : vertex ∈ visited := by simp [split]
      have new : vertex ∉ done := by
        intro earlier
        rw [split] at distinct
        exact
          (List.nodup_append.mp distinct).2.2 vertex earlier vertex (by simp)
            rfl
      apply induction (done ++ [vertex])
      · simp [split]
      · apply rows.fill indexed (members vertex member) new
        intro next edge
        refine ⟨inside vertex (members vertex member) next edge, ?_⟩
        rcases sorted done vertex rest split next edge with earlier | excused
        · exact earlier
        · exact excused.elim

end Cgir.Model.ReachRows
