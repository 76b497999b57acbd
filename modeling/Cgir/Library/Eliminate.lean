import Mathlib.Data.Set.Card
import Cgir.Library.Digraph

/-!
# Elimination of a vertex

The vertex is taken out of a digraph and its predecessors are joined to its
successors.  Paths between the other vertices are kept, and the number of edges
changes by at most the difference between the product of the two degrees and
their sum.
-/

namespace Cgir.Library.Digraph

open Relation

variable {Vertex : Type}

/-- The edges after a vertex has been bypassed. -/
def Eliminate (edge : Vertex → Vertex → Prop) (vertex : Vertex)
    (source target : Vertex) : Prop :=
  source ≠ vertex ∧ target ≠ vertex ∧
    (edge source target ∨ (edge source vertex ∧ edge vertex target))

section Paths

variable {edge : Vertex → Vertex → Prop} {vertex : Vertex}

theorem Eliminate.transGen {source target : Vertex}
    (step : Eliminate edge vertex source target) :
    TransGen edge source target := by
  obtain ⟨-, -, direct | ⟨before, after⟩⟩ := step
  · exact TransGen.single direct
  · exact (TransGen.single before).tail after

theorem transGen_of_eliminate {source target : Vertex}
    (path : TransGen (Eliminate edge vertex) source target) :
    TransGen edge source target := by
  induction path with
  | single step => exact step.transGen
  | tail _ step induction => exact induction.trans step.transGen

theorem acyclic_eliminate (acyclic : Acyclic edge) :
    Acyclic (Eliminate edge vertex) :=
  fun cyclic cycle => acyclic cyclic (transGen_of_eliminate cycle)

/-- A path that does not start at the vertex, with its last step held back. -/
theorem reach_eliminate_or {source target : Vertex}
    (away : source ≠ vertex) (path : ReflTransGen edge source target) :
    (target ≠ vertex ∧
        ReflTransGen (Eliminate edge vertex) source target) ∨
      (target = vertex ∧ ∃ pred, pred ≠ vertex ∧ edge pred vertex ∧
        ReflTransGen (Eliminate edge vertex) source pred) := by
  induction path with
  | refl => exact .inl ⟨away, ReflTransGen.refl⟩
  | @tail middle last _ step induction =>
      by_cases isVertex : last = vertex
      · subst isVertex
        rcases induction with ⟨apart, before⟩ | ⟨-, known⟩
        · exact .inr ⟨rfl, middle, apart, step, before⟩
        · exact .inr ⟨rfl, known⟩
      · rcases induction with ⟨apart, before⟩ | ⟨rfl, pred, apart, into, before⟩
        · exact .inl ⟨isVertex, before.tail ⟨apart, isVertex, .inl step⟩⟩
        · exact
            .inl
              ⟨isVertex, before.tail ⟨apart, isVertex, .inr ⟨into, step⟩⟩⟩

/-- The vertices that stay reach each other as before. -/
theorem reach_eliminate_iff {source target : Vertex}
    (sourceAway : source ≠ vertex) (targetAway : target ≠ vertex) :
    ReflTransGen (Eliminate edge vertex) source target ↔
      ReflTransGen edge source target := by
  constructor
  · intro path
    induction path with
    | refl => exact ReflTransGen.refl
    | tail _ step induction =>
        exact (induction step.1).trans step.transGen.to_reflTransGen
  · intro path
    rcases reach_eliminate_or sourceAway path with ⟨-, kept⟩ | ⟨same, -⟩
    · exact kept
    · exact (targetAway same).elim

end Paths

/-! ## The number of edges -/

/-- The number of edges of a finite digraph. -/
noncomputable def edgeCount (edge : Vertex → Vertex → Prop) : Nat :=
  Set.ncard {pair : Vertex × Vertex | edge pair.1 pair.2}

/-- An edge relation between the vertices of a finite set is finite. -/
theorem finite_edges {edge : Vertex → Vertex → Prop} (domain : Finset Vertex)
    (inside : ∀ source target, edge source target →
      source ∈ domain ∧ target ∈ domain) :
    Set.Finite {pair : Vertex × Vertex | edge pair.1 pair.2} := by
  apply Set.Finite.subset (domain ×ˢ domain).finite_toSet
  rintro ⟨source, target⟩ step
  rw [Finset.mem_coe, Finset.mem_product]
  exact inside source target step

section Count

variable [DecidableEq Vertex] {edge : Vertex → Vertex → Prop} {vertex : Vertex}

/-- Bypassing a vertex trades its edges for at most the product of them. -/
theorem edgeCount_eliminate_le (preds succs : Finset Vertex)
    (finite : Set.Finite {pair : Vertex × Vertex | edge pair.1 pair.2})
    (mem_preds : ∀ source, source ∈ preds ↔ edge source vertex)
    (mem_succs : ∀ target, target ∈ succs ↔ edge vertex target)
    (loopless : ¬ edge vertex vertex) :
    edgeCount (Eliminate edge vertex) + (preds.card + succs.card) ≤
      edgeCount edge + preds.card * succs.card := by
  let edges := finite.toFinset
  let incoming := preds.image fun source => (source, vertex)
  let outgoing := succs.image fun target => (vertex, target)
  have mem_edges : ∀ source target,
      (source, target) ∈ edges ↔ edge source target := fun _ _ => by
    simp [edges]
  have incoming_card : incoming.card = preds.card := by
    apply Finset.card_image_of_injective
    exact fun _ _ same => (Prod.mk.inj same).1
  have outgoing_card : outgoing.card = succs.card := by
    apply Finset.card_image_of_injective
    exact fun _ _ same => (Prod.mk.inj same).2
  have disjoint : Disjoint incoming outgoing := by
    rw [Finset.disjoint_left]
    rintro ⟨source, target⟩ enters leaves
    obtain ⟨pred, member, same⟩ := Finset.mem_image.mp enters
    obtain ⟨succ, -, same'⟩ := Finset.mem_image.mp leaves
    obtain ⟨rfl, rfl⟩ := Prod.mk.inj same
    obtain ⟨rfl, -⟩ := Prod.mk.inj same'
    exact loopless ((mem_preds _).mp member)
  have adjacent : incoming ∪ outgoing ⊆ edges := by
    rintro ⟨source, target⟩ member
    rw [mem_edges]
    rcases Finset.mem_union.mp member with enters | leaves
    · obtain ⟨pred, isPred, same⟩ := Finset.mem_image.mp enters
      obtain ⟨rfl, rfl⟩ := Prod.mk.inj same
      exact (mem_preds _).mp isPred
    · obtain ⟨succ, isSucc, same⟩ := Finset.mem_image.mp leaves
      obtain ⟨rfl, rfl⟩ := Prod.mk.inj same
      exact (mem_succs _).mp isSucc
  have covered :
      {pair : Vertex × Vertex | Eliminate edge vertex pair.1 pair.2} ⊆
        ((edges \ (incoming ∪ outgoing)) ∪ preds ×ˢ succs : Finset _) := by
    rintro ⟨source, target⟩ ⟨sourceAway, targetAway, direct | ⟨into, out⟩⟩
    · apply Finset.mem_coe.mpr
      apply Finset.mem_union_left
      rw [Finset.mem_sdiff, mem_edges]
      refine ⟨direct, ?_⟩
      intro member
      rcases Finset.mem_union.mp member with enters | leaves
      · obtain ⟨_, -, same⟩ := Finset.mem_image.mp enters
        exact targetAway (Prod.mk.inj same).2.symm
      · obtain ⟨_, -, same⟩ := Finset.mem_image.mp leaves
        exact sourceAway (Prod.mk.inj same).1.symm
    · apply Finset.mem_coe.mpr
      apply Finset.mem_union_right
      exact
        Finset.mem_product.mpr
          ⟨(mem_preds source).mpr into, (mem_succs target).mpr out⟩
  have bound : edgeCount (Eliminate edge vertex) ≤
      (edges \ (incoming ∪ outgoing)).card + preds.card * succs.card := by
    calc edgeCount (Eliminate edge vertex)
        ≤ ((edges \ (incoming ∪ outgoing)) ∪ preds ×ˢ succs).card := by
          rw [← Set.ncard_coe_finset]
          exact Set.ncard_le_ncard covered (Finset.finite_toSet _)
      _ ≤ (edges \ (incoming ∪ outgoing)).card + (preds ×ˢ succs).card :=
          Finset.card_union_le _ _
      _ = (edges \ (incoming ∪ outgoing)).card +
            preds.card * succs.card := by
          rw [Finset.card_product]
  have split : (edges \ (incoming ∪ outgoing)).card +
      (preds.card + succs.card) = edgeCount edge := by
    rw [← incoming_card, ← outgoing_card,
      ← Finset.card_union_of_disjoint disjoint,
      Finset.card_sdiff_add_card_eq_card adjacent]
    exact (Set.ncard_eq_toFinset_card _ finite).symm
  omega

end Count

end Cgir.Library.Digraph
