import Cgir.Library.Digraph

/-!
# Contracting an acyclic digraph pair by pair

A contraction is coarsened by merging one block into another.  Merging two
blocks that no detour joins keeps the contraction acyclic; neither series
pairs nor twins have a detour.  A partition that merges only some of the blocks
of an acyclic contraction is acyclic as well.
-/

namespace Cgir.Library.Digraph

open Relation

variable {Vertex Block : Type}

section Merge

variable [DecidableEq Block]

/-- Merge the second block into the first. -/
def mergeInto (first second : Block) (rep : Vertex → Block)
    (vertex : Vertex) : Block :=
  if rep vertex = second then first else rep vertex

variable {edge : Vertex → Vertex → Prop} {rep : Vertex → Block}
  {first second : Block}

theorem mergeInto_ne (different : first ≠ second) (vertex : Vertex) :
    mergeInto first second rep vertex ≠ second := by
  unfold mergeInto
  split
  · exact different
  · rename_i other
    exact other

theorem mergeInto_eq_iff (different : first ≠ second) (vertex : Vertex)
    (block : Block) :
    mergeInto first second rep vertex = block ↔
      block ≠ second ∧
        (rep vertex = block ∨ (block = first ∧ rep vertex = second)) := by
  unfold mergeInto
  by_cases merged : rep vertex = second
  · rw [if_pos merged, merged]
    constructor
    · rintro rfl
      exact ⟨different, Or.inr ⟨rfl, rfl⟩⟩
    · rintro ⟨apart, same | ⟨same, -⟩⟩
      · exact (apart same.symm).elim
      · exact same.symm
  · rw [if_neg merged]
    constructor
    · rintro rfl
      exact ⟨merged, Or.inl rfl⟩
    · rintro ⟨-, same | ⟨-, same⟩⟩
      · exact same
      · exact (merged same).elim

/-- The edges of a coarser contraction, from those of the finer one. -/
theorem contract_mergeInto_iff (different : first ≠ second)
    (source target : Block) :
    Contract edge (mergeInto first second rep) source target ↔
      source ≠ target ∧ source ≠ second ∧ target ≠ second ∧
        (Contract edge rep source target ∨
          (source = first ∧ Contract edge rep second target) ∨
          (target = first ∧ Contract edge rep source second)) := by
  constructor
  · rintro ⟨apart, upper, lower, step, upperEq, lowerEq⟩
    obtain ⟨sourceNe, upperCases⟩ :=
      (mergeInto_eq_iff different upper source).mp upperEq
    obtain ⟨targetNe, lowerCases⟩ :=
      (mergeInto_eq_iff different lower target).mp lowerEq
    refine ⟨apart, sourceNe, targetNe, ?_⟩
    rcases upperCases with upperRep | ⟨isFirst, upperRep⟩
    · rcases lowerCases with lowerRep | ⟨isFirst, lowerRep⟩
      · exact Or.inl ⟨apart, upper, lower, step, upperRep, lowerRep⟩
      · exact
          Or.inr
            (Or.inr
              ⟨isFirst, sourceNe, upper, lower, step, upperRep, lowerRep⟩)
    · rcases lowerCases with lowerRep | ⟨isFirst', lowerRep⟩
      · exact
          Or.inr
            (Or.inl
              ⟨isFirst, targetNe.symm, upper, lower, step, upperRep,
                lowerRep⟩)
      · exact (apart (isFirst.trans isFirst'.symm)).elim
  · rintro ⟨apart, sourceNe, targetNe, cases⟩
    have merge : ∀ vertex block,
        mergeInto first second rep vertex = block ↔ _ :=
      mergeInto_eq_iff different
    rcases cases with
      ⟨-, upper, lower, step, upperRep, lowerRep⟩ |
        ⟨isFirst, -, upper, lower, step, upperRep, lowerRep⟩ |
        ⟨isFirst, -, upper, lower, step, upperRep, lowerRep⟩
    · exact
        ⟨apart, upper, lower, step,
          (merge upper source).mpr ⟨sourceNe, Or.inl upperRep⟩,
          (merge lower target).mpr ⟨targetNe, Or.inl lowerRep⟩⟩
    · exact
        ⟨apart, upper, lower, step,
          (merge upper source).mpr
            ⟨sourceNe, Or.inr ⟨isFirst, upperRep⟩⟩,
          (merge lower target).mpr ⟨targetNe, Or.inl lowerRep⟩⟩
    · exact
        ⟨apart, upper, lower, step,
          (merge upper source).mpr ⟨sourceNe, Or.inl upperRep⟩,
          (merge lower target).mpr
            ⟨targetNe, Or.inr ⟨isFirst, lowerRep⟩⟩⟩

/-- No path leads from one vertex to another through a third one. -/
def NoDetour (edge : Vertex → Vertex → Prop) (source target : Vertex) :
    Prop :=
  ∀ middle, middle ≠ source → middle ≠ target →
    TransGen edge source middle → ¬ ReflTransGen edge middle target

end Merge

section Pair

variable [DecidableEq Vertex] {edge : Vertex → Vertex → Prop}
  {first second : Vertex}

/-- Merging two vertices without detours creates no cycle. -/
theorem acyclic_merge_pair (acyclic : Acyclic edge)
    (forward : NoDetour edge first second)
    (backward : NoDetour edge second first) :
    Acyclic (Contract edge (mergeInto first second id)) := by
  rw [acyclic_contract_iff acyclic]
  have classOf : ∀ vertex,
      mergeInto first second id vertex = first →
        vertex = first ∨ vertex = second := by
    intro vertex same
    unfold mergeInto at same
    split at same
    · rename_i isSecond
      exact Or.inr isSecond
    · exact Or.inl same
  have shared : ∀ vertex, Shared (mergeInto first second id) vertex →
      mergeInto first second id vertex = first := by
    rintro vertex ⟨other, apart, same⟩
    unfold mergeInto at same ⊢
    split
    · rfl
    · rename_i different
      rw [if_neg different] at same
      split at same
      · exact same.symm
      · exact (apart same).elim
  have none : ∀ source target,
      ¬ SharedDepends edge (mergeInto first second id) source target := by
    rintro source target
      ⟨sourceShared, targetShared, upper, outside, lower, upperEq, leaves,
        apart, enters, lowerEq⟩
    rw [shared source sourceShared] at upperEq apart
    rw [shared target targetShared] at lowerEq
    have notFirst : outside ≠ first := by
      rintro rfl
      apply apart
      unfold mergeInto
      split <;> rfl
    have notSecond : outside ≠ second := by
      rintro rfl
      exact apart (if_pos rfl)
    rcases classOf upper upperEq with rfl | rfl <;>
      rcases classOf lower lowerEq with rfl | rfl
    · exact acyclic _ (leaves.trans_left enters)
    · exact forward outside notFirst notSecond leaves enters
    · exact backward outside notSecond notFirst leaves enters
    · exact acyclic _ (leaves.trans_left enters)
  intro vertex cycle
  cases cycle with
  | single step => exact none _ _ step
  | tail _ step => exact none _ _ step

/-- Merging two blocks of an acyclic contraction without detours. -/
theorem acyclic_mergeInto {Start : Type} {step : Start → Start → Prop}
    {rep : Start → Vertex} (acyclic : Acyclic (Contract step rep))
    (forward : NoDetour (Contract step rep) first second)
    (backward : NoDetour (Contract step rep) second first) :
    Acyclic (Contract step (mergeInto first second rep)) := by
  apply (acyclic_merge_pair acyclic forward backward).mono
  rintro _ _ ⟨apart, upper, lower, joined, rfl, rfl⟩
  refine ⟨apart, rep upper, rep lower, ⟨?_, upper, lower, joined, rfl, rfl⟩,
    rfl, rfl⟩
  intro same
  exact apart (by unfold mergeInto; rw [same])

end Pair

section Detours

variable {edge : Vertex → Vertex → Prop} {first second : Vertex}

/-- Nothing but the target follows the source: a detour would be a cycle. -/
theorem noDetour_of_only_successor (acyclic : Acyclic edge)
    (joined : edge first second)
    (only : ∀ next, edge first next → next = second) :
    NoDetour edge first second ∧ NoDetour edge second first := by
  constructor
  · intro middle _ notSecond leaves enters
    obtain ⟨next, step, rest⟩ := TransGen.head'_iff.mp leaves
    rw [only next step] at rest
    rcases reflTransGen_iff_eq_or_transGen.mp rest with equal | longer
    · exact notSecond equal
    · exact acyclic second (longer.trans_left enters)
  · intro middle _ _ leaves enters
    exact
      acyclic first
        (TransGen.head' joined (leaves.to_reflTransGen.trans enters))

/-- Vertices with the same predecessors are not joined by a detour. -/
theorem noDetour_of_same_predecessors (acyclic : Acyclic edge)
    (same : ∀ pred, edge pred second → edge pred first) :
    NoDetour edge first second := by
  intro middle _ notSecond leaves enters
  rcases ReflTransGen.cases_tail enters with equal | ⟨pred, into, step⟩
  · exact notSecond equal.symm
  · exact acyclic first ((leaves.trans_left into).tail (same pred step))

end Detours

section Partial

variable {Fine : Type} {edge : Vertex → Vertex → Prop}
  {fine : Vertex → Fine} {coarse : Vertex → Block}

/--
A partition whose blocks are single vertices or blocks of an acyclic contraction
has an acyclic contraction.
-/
theorem acyclic_of_partial
    (acyclic : Acyclic edge) (contracted : Acyclic (Contract edge coarse))
    (refines : ∀ vertex other, fine vertex = fine other →
      coarse vertex = coarse other)
    (whole : ∀ vertex other, fine vertex = fine other → vertex ≠ other →
      ∀ third, coarse third = coarse vertex → fine third = fine vertex) :
    Acyclic (Contract edge fine) := by
  rw [acyclic_contract_iff acyclic]
  have depends : ∀ source target, SharedDepends edge fine source target →
      TransGen (Contract edge coarse) (coarse source) (coarse target) := by
    rintro source target
      ⟨⟨other, otherNe, otherSame⟩, -, upper, outside, lower, upperEq,
        leaves, apart, enters, lowerEq⟩
    rw [← refines upper source upperEq, ← refines lower target lowerEq]
    have leavesCoarse : coarse upper ≠ coarse outside := by
      intro same
      apply apart
      exact
        whole source other otherSame.symm otherNe.symm outside
          (same.symm.trans (refines upper source upperEq))
    exact
      (transGen_contract leaves.to_reflTransGen leavesCoarse).trans_left
        (reach_contract enters)
  intro vertex cycle
  have lifted : ∀ source target,
      TransGen (SharedDepends edge fine) source target →
        TransGen (Contract edge coarse) (coarse source) (coarse target) := by
    intro source target path
    induction path with
    | single step => exact depends _ _ step
    | tail _ step before => exact before.trans (depends _ _ step)
  exact contracted _ (lifted vertex vertex cycle)

end Partial

section Rename

variable {Other : Type} {edge : Vertex → Vertex → Prop}
  {rep : Vertex → Block} {name : Block → Other}

/-- Names that tell the blocks of a contraction apart create no cycle. -/
theorem acyclic_contract_rename (contracted : Acyclic (Contract edge rep))
    {live : Vertex → Prop}
    (inside : ∀ source target, edge source target →
      live source ∧ live target)
    (distinct : ∀ vertex other, live vertex → live other →
      name (rep vertex) = name (rep other) → rep vertex = rep other) :
    Acyclic (Contract edge (name ∘ rep)) := by
  have lifted : ∀ {source target},
      TransGen (Contract edge (name ∘ rep)) source target →
        ∃ upper lower, live upper ∧ live lower ∧
          name (rep upper) = source ∧ name (rep lower) = target ∧
            TransGen (Contract edge rep) (rep upper) (rep lower) := by
    intro source target path
    have single : ∀ {source target},
        Contract edge (name ∘ rep) source target →
          ∃ upper lower, live upper ∧ live lower ∧
            name (rep upper) = source ∧ name (rep lower) = target ∧
              Contract edge rep (rep upper) (rep lower) := by
      rintro source target ⟨apart, upper, lower, step, rfl, rfl⟩
      obtain ⟨upperLive, lowerLive⟩ := inside upper lower step
      refine ⟨upper, lower, upperLive, lowerLive, rfl, rfl, ?_⟩
      exact ⟨fun same => apart (congrArg name same), upper, lower, step, rfl, rfl⟩
    induction path with
    | single step =>
        obtain ⟨upper, lower, upperLive, lowerLive, first, last, step⟩ :=
          single step
        exact
          ⟨upper, lower, upperLive, lowerLive, first, last,
            TransGen.single step⟩
    | tail _ step induction =>
        obtain ⟨upper, middle, upperLive, middleLive, first, between, path⟩ :=
          induction
        obtain ⟨middle', lower, middleLive', lowerLive, between', last,
          step⟩ := single step
        have same :=
          distinct middle middle' middleLive middleLive'
            (between.trans between'.symm)
        exact
          ⟨upper, lower, upperLive, lowerLive, first, last,
            path.tail (same ▸ step)⟩
  intro block cycle
  obtain ⟨upper, lower, upperLive, lowerLive, first, last, path⟩ :=
    lifted cycle
  have same := distinct upper lower upperLive lowerLive (first.trans last.symm)
  exact contracted (rep lower) (same ▸ path)

end Rename

end Cgir.Library.Digraph
