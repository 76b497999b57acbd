import Mathlib.Data.List.Basic
import Mathlib.Data.List.Nodup

/-!
# Vectors without duplicates

A vector that ignores what it already holds, so that insertion order is kept.
-/

namespace Cgir.Library.SetVector

variable {Item : Type} [DecidableEq Item]

/-- Insert an item at the end unless it is there. -/
def insert (vector : List Item) (item : Item) : List Item :=
  if item ∈ vector then vector else vector ++ [item]

/-- Insert the items of a list one after another. -/
def insertAll (vector items : List Item) : List Item :=
  items.foldl insert vector

@[simp]
theorem mem_insert {vector : List Item} {item other : Item} :
    other ∈ insert vector item ↔ other ∈ vector ∨ other = item := by
  unfold insert
  split
  · rename_i present
    constructor
    · exact Or.inl
    · rintro (member | rfl)
      · exact member
      · exact present
  · simp

theorem nodup_insert {vector : List Item} (nodup : vector.Nodup)
    (item : Item) : (insert vector item).Nodup := by
  unfold insert
  split
  · exact nodup
  · rename_i absent
    rw [← List.concat_eq_append]
    exact nodup.concat absent

@[simp]
theorem mem_insertAll {vector items : List Item} {other : Item} :
    other ∈ insertAll vector items ↔ other ∈ vector ∨ other ∈ items := by
  induction items generalizing vector with
  | nil => simp [insertAll]
  | cons item rest induction =>
      refine (induction).trans ?_
      rw [mem_insert, List.mem_cons, or_assoc]

theorem nodup_insertAll {vector : List Item} (nodup : vector.Nodup)
    (items : List Item) : (insertAll vector items).Nodup := by
  induction items generalizing vector with
  | nil => exact nodup
  | cons item rest induction => exact induction (nodup_insert nodup item)

/-- New items without duplicates are appended as they are. -/
theorem insertAll_of_nodup {vector items : List Item}
    (nodup : (vector ++ items).Nodup) :
    insertAll vector items = vector ++ items := by
  induction items generalizing vector with
  | nil => exact (List.append_nil _).symm
  | cons item rest induction =>
      have absent : item ∉ vector := by
        intro member
        exact
          (List.nodup_append.mp nodup).2.2 item member item (by simp) rfl
      refine (induction ?_).trans ?_
      · rw [insert, if_neg absent]
        simpa using nodup
      · rw [insert, if_neg absent, List.append_assoc]
        rfl

end Cgir.Library.SetVector
