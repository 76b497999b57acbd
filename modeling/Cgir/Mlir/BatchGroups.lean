import Mathlib.Data.Finset.Card
import Cgir.Library.Coarsen
import Cgir.Mlir.Batch

/-!
# The greedy contraction of the batch pass

The scratch graph is the contraction of the block by a partition that every
merge coarsens.  Its sets of neighbours are the edges of that contraction, its
member lists are the classes, and it stays acyclic.
-/

namespace Cgir.Mlir

open Relation
open Cgir.Library
open Cgir.Model

/-- An edge of the block between two positions. -/
def IndexEdge (cg : Graph) (i j : Nat) : Prop :=
  j < cg.count ∧ i ∈ cg.predsAt j

/-- The scratch nodes qualify for a merge. -/
def Mergeable (cg : Graph) (scratch : Scratch) (a b : Nat) : Prop :=
  a < cg.count ∧ b < cg.count ∧
    Scratch.canBatch cg scratch a b = true ∧
    (Scratch.falseTwins scratch a b = true ∨
      Scratch.areSeq scratch a b = true ∨ Scratch.areSeq scratch b a = true)

/-- The scratch graphs that merges reach, with the partition of each. -/
inductive Merges (cg : Graph) : (Nat → Nat) → Scratch → Prop where
  | init : Merges cg id (Scratch.init cg)
  | merge {rep : Nat → Nat} {scratch : Scratch} {a b : Nat}
      (before : Merges cg rep scratch) (pair : Mergeable cg scratch a b) :
      Merges cg (Digraph.mergeInto a b rep) (scratch.merge a b)

/-! ## The contraction is a sequence of merges -/

namespace Scratch

variable {cg : Graph} {scratch : Scratch}

theorem mem_ascending {set : Finset Nat} {i : Nat} :
    i ∈ ascending cg set ↔ i < cg.count ∧ i ∈ set := by
  simp [ascending]

/-- A partner qualifies for a merge. -/
theorem mergeable_of_partner {i v : Nat} (bound : i < cg.count)
    (found : scratch.partner cg i = some v) : Mergeable cg scratch i v := by
  simp only [partner, Option.or_eq_some_iff] at found
  rcases found with twin | ⟨-, next | ⟨-, previous⟩⟩
  · have tests := List.find?_some twin
    have member := List.mem_of_find?_eq_some twin
    rw [Bool.and_eq_true] at tests
    obtain ⟨p, -, listed⟩ := List.mem_flatMap.mp member
    exact ⟨bound, (mem_ascending.mp listed).1, tests.1, Or.inl tests.2⟩
  · have tests := List.find?_some next
    have member := List.mem_of_find?_eq_some next
    rw [Bool.and_eq_true] at tests
    exact
      ⟨bound, (mem_ascending.mp member).1, tests.1, Or.inr (Or.inl tests.2)⟩
  · have tests := List.find?_some previous
    have member := List.mem_of_find?_eq_some previous
    rw [Bool.and_eq_true] at tests
    exact
      ⟨bound, (mem_ascending.mp member).1, tests.1, Or.inr (Or.inr tests.2)⟩

/-- The number of scratch nodes that are alive. -/
def aliveCount (cg : Graph) (scratch : Scratch) : Nat :=
  ((Finset.range cg.count).filter fun i => scratch.alive i = true).card

theorem canBatch_iff {a b : Nat} :
    canBatch cg scratch a b = true ↔
      a ≠ b ∧ scratch.alive a = true ∧ scratch.alive b = true ∧
        cg.candAt a = true ∧ cg.candAt b = true ∧
          cg.deviceAt a = cg.deviceAt b := by
  simp [canBatch, and_assoc]

theorem falseTwins_iff {a b : Nat} :
    falseTwins scratch a b = true ↔
      scratch.preds a = scratch.preds b ∧
        scratch.succs a = scratch.succs b := by
  simp [falseTwins]

theorem areSeq_iff {a b : Nat} :
    areSeq scratch a b = true ↔
      scratch.succs a = {b} ∧ scratch.preds b = {a} := by
  simp [areSeq]

theorem aliveCount_merge {a b : Nat} (pair : Mergeable cg scratch a b) :
    aliveCount cg (scratch.merge a b) < aliveCount cg scratch := by
  obtain ⟨-, bound, can, -⟩ := pair
  have aliveB := (canBatch_iff.mp can).2.2.1
  apply Finset.card_lt_card
  rw [Finset.ssubset_iff_of_subset]
  · refine ⟨b, ?_, ?_⟩
    · rw [Finset.mem_filter, Finset.mem_range]
      exact ⟨bound, aliveB⟩
    · intro member
      rw [Finset.mem_filter] at member
      simp [merge] at member
  · intro i member
    rw [Finset.mem_filter] at member ⊢
    refine ⟨member.1, ?_⟩
    by_cases same : i = b
    · simp [merge, same] at member
    · simpa [merge, same] using member.2

/-- The contraction ends in a scratch graph that merges reach. -/
theorem contract_merges (fuel : Nat) {rep : Nat → Nat} {scratch : Scratch}
    {queue : List Nat} (merges : Merges cg rep scratch)
    (bounds : ∀ i ∈ queue, i < cg.count)
    (enough : queue.length + aliveCount cg scratch < fuel) :
    ∃ rep' final, contract cg fuel scratch queue = some final ∧
      Merges cg rep' final := by
  induction fuel generalizing rep scratch queue with
  | zero => exact (Nat.not_lt_zero _ enough).elim
  | succ fuel induction =>
      cases queue with
      | nil => exact ⟨rep, scratch, rfl, merges⟩
      | cons i queue =>
          have shorter : queue.length + aliveCount cg scratch < fuel := by
            rw [List.length_cons] at enough
            omega
          have rest : ∀ j ∈ queue, j < cg.count :=
            fun j member => bounds j (by simp [member])
          rw [contract]
          split
          · cases found : scratch.partner cg i with
            | none => exact induction merges rest shorter
            | some v =>
                have pair :=
                  mergeable_of_partner (bounds i (by simp)) found
                have fewer := aliveCount_merge pair
                apply induction (merges.merge pair)
                · intro j member
                  rcases List.mem_append.mp member with inRest | isLast
                  · exact rest j inRest
                  · rw [List.mem_singleton] at isLast
                    exact bounds j (by simp [isLast])
                · rw [List.length_append, List.length_singleton]
                  rw [List.length_cons] at enough
                  omega
          · exact induction merges rest shorter

end Scratch

/-- The greedy contraction of a block returns. -/
theorem contracted_merges (cg : Graph) :
    ∃ rep scratch, contracted cg = some scratch ∧ Merges cg rep scratch := by
  apply Scratch.contract_merges _ Merges.init
  · intro i member
    exact List.mem_range.mp (List.mem_of_mem_filter member)
  · have queued :
        ((List.range cg.count).filter cg.candAt).length ≤ cg.count :=
      (List.length_filter_le _ _).trans_eq List.length_range
    have alive : Scratch.aliveCount cg (Scratch.init cg) ≤ cg.count :=
      (Finset.card_filter_le _ _).trans_eq (Finset.card_range _)
    omega

/-! ## What the scratch graph represents -/

/-- The scratch graph is the contraction of the block by a partition. -/
structure Represented (cg : Graph) (rep : Nat → Nat) (scratch : Scratch) :
    Prop where
  rep_lt : ∀ i < cg.count, rep i < cg.count
  rep_rep : ∀ i, rep (rep i) = rep i
  alive_iff : ∀ i, scratch.alive i = true ↔ rep i = i
  mem_succs : ∀ i j,
    j ∈ scratch.succs i ↔ Digraph.Contract (IndexEdge cg) rep i j
  mem_preds : ∀ i j, j < cg.count →
    (i ∈ scratch.preds j ↔ Digraph.Contract (IndexEdge cg) rep i j)
  device_eq : ∀ i, cg.deviceAt (rep i) = cg.deviceAt i
  cand : ∀ i, rep i ≠ i → cg.candAt i = true ∧ cg.candAt (rep i) = true
  acyclic : Digraph.Acyclic (Digraph.Contract (IndexEdge cg) rep)

/-- The members of a scratch node are the ops of its class. -/
structure Collected (cg : Graph) (rep : Nat → Nat) (scratch : Scratch) :
    Prop where
  mem_iff : ∀ i, i < cg.count → rep i = i → ∀ op,
    op ∈ scratch.members i ↔ ∃ j < cg.count, rep j = i ∧ cg.opAt j = op
  nodup : ∀ i, i < cg.count → rep i = i → (scratch.members i).Nodup

section Invariants

variable {cg : Graph}

theorem represented_init (acyclic : Digraph.Acyclic (IndexEdge cg)) :
    Represented cg id (Scratch.init cg) where
  rep_lt := fun _ bound => bound
  rep_rep := fun _ => rfl
  alive_iff := fun _ => by simp [Scratch.init]
  mem_succs := by
    intro i j
    simp only [Scratch.init, Finset.mem_filter, Finset.mem_range]
    constructor
    · rintro ⟨bound, isPred⟩
      have edge : IndexEdge cg i j := ⟨bound, isPred⟩
      exact ⟨acyclic.ne (TransGen.single edge), i, j, edge, rfl, rfl⟩
    · rintro ⟨-, _, _, edge, rfl, rfl⟩
      exact edge
  mem_preds := by
    intro i j bound
    constructor
    · intro isPred
      have edge : IndexEdge cg i j := ⟨bound, isPred⟩
      exact ⟨acyclic.ne (TransGen.single edge), i, j, edge, rfl, rfl⟩
    · rintro ⟨-, _, _, edge, rfl, rfl⟩
      exact edge.2
  device_eq := fun _ => rfl
  cand := fun _ moved => (moved rfl).elim
  acyclic := by
    apply acyclic.mono
    rintro _ _ ⟨-, _, _, edge, rfl, rfl⟩
    exact edge

section Neighbours

variable {scratch : Scratch} {edge : Nat → Nat → Prop} {a b : Nat}
  (different : a ≠ b) (apart : ∀ i j, edge i j → i ≠ j)

include different apart

/-- The successors after a merge. -/
theorem Scratch.mem_merge_succs
    (succs : ∀ i j, j ∈ scratch.succs i ↔ edge i j)
    (predsB : ∀ i, i ∈ scratch.preds b ↔ edge i b) (i j : Nat) :
    j ∈ (scratch.merge a b).succs i ↔
      i ≠ j ∧ i ≠ b ∧ j ≠ b ∧
        (edge i j ∨ (i = a ∧ edge b j) ∨ (j = a ∧ edge i b)) := by
  have self := apart i j
  simp only [Scratch.merge, predsB]
  by_cases isB : i = b
  · simp [isB]
  · rw [if_neg isB]
    by_cases isA : i = a
    · subst isA
      rw [if_pos rfl]
      simp only [Finset.mem_erase, Finset.mem_union, succs]
      grind
    · rw [if_neg isA]
      split <;> simp only [Finset.mem_insert, Finset.mem_erase, succs] <;>
        grind

/-- The predecessors after a merge. -/
theorem Scratch.mem_merge_preds {j : Nat}
    (preds : ∀ i, i ∈ scratch.preds j ↔ edge i j)
    (predsB : ∀ i, i ∈ scratch.preds b ↔ edge i b)
    (succsB : ∀ j, j ∈ scratch.succs b ↔ edge b j)
    (predsA : ∀ i, i ∈ scratch.preds a ↔ edge i a) {i : Nat} :
    i ∈ (scratch.merge a b).preds j ↔
      i ≠ j ∧ i ≠ b ∧ j ≠ b ∧
        (edge i j ∨ (i = a ∧ edge b j) ∨ (j = a ∧ edge i b)) := by
  have self := apart i j
  simp only [Scratch.merge, succsB]
  by_cases isB : j = b
  · simp [isB]
  · rw [if_neg isB]
    by_cases isA : j = a
    · subst isA
      rw [if_pos rfl]
      simp only [Finset.mem_erase, Finset.mem_union, predsA, predsB]
      grind
    · rw [if_neg isA]
      split <;> simp only [Finset.mem_insert, Finset.mem_erase, preds] <;>
        grind

end Neighbours

section Merge

variable {rep : Nat → Nat} {scratch : Scratch} {a b : Nat}

/-- Neither a series pair nor a pair of twins is joined by a detour. -/
theorem Represented.noDetour (represented : Represented cg rep scratch)
    (pair : Mergeable cg scratch a b) :
    Digraph.NoDetour (Digraph.Contract (IndexEdge cg) rep) a b ∧
      Digraph.NoDetour (Digraph.Contract (IndexEdge cg) rep) b a := by
  obtain ⟨aBound, bBound, -, twins | series | series⟩ := pair
  · have same := (Scratch.falseTwins_iff.mp twins).1
    constructor
    · apply Digraph.noDetour_of_same_predecessors represented.acyclic
      intro pred edge
      rw [← represented.mem_preds pred b bBound, ← same,
        represented.mem_preds pred a aBound] at edge
      exact edge
    · apply Digraph.noDetour_of_same_predecessors represented.acyclic
      intro pred edge
      rw [← represented.mem_preds pred a aBound, same,
        represented.mem_preds pred b bBound] at edge
      exact edge
  · have only := (Scratch.areSeq_iff.mp series).1
    apply Digraph.noDetour_of_only_successor represented.acyclic
    · rw [← represented.mem_succs, only, Finset.mem_singleton]
    · intro next edge
      rw [← represented.mem_succs, only, Finset.mem_singleton] at edge
      exact edge
  · have only := (Scratch.areSeq_iff.mp series).1
    apply And.symm
    apply Digraph.noDetour_of_only_successor represented.acyclic
    · rw [← represented.mem_succs, only, Finset.mem_singleton]
    · intro next edge
      rw [← represented.mem_succs, only, Finset.mem_singleton] at edge
      exact edge

/-- A merge coarsens the partition. -/
theorem Represented.merge (represented : Represented cg rep scratch)
    (pair : Mergeable cg scratch a b) :
    Represented cg (Digraph.mergeInto a b rep) (scratch.merge a b) := by
  have detours := represented.noDetour pair
  obtain ⟨aBound, bBound, can, -⟩ := pair
  obtain ⟨different, aliveA, aliveB, candA, candB, device⟩ :=
    Scratch.canBatch_iff.mp can
  have repA := (represented.alive_iff a).mp aliveA
  have repB := (represented.alive_iff b).mp aliveB
  have merged : ∀ op block,
      Digraph.mergeInto a b rep op = block ↔ _ :=
    Digraph.mergeInto_eq_iff different
  have edges : ∀ source target,
      Digraph.Contract (IndexEdge cg) (Digraph.mergeInto a b rep) source
        target ↔ _ :=
    Digraph.contract_mergeInto_iff different
  have apart : ∀ i j, Digraph.Contract (IndexEdge cg) rep i j → i ≠ j :=
    fun _ _ edge => edge.1
  have succs := represented.mem_succs
  have preds := represented.mem_preds
  exact {
    rep_lt := by
      intro i bound
      unfold Digraph.mergeInto
      split
      · exact aBound
      · exact represented.rep_lt i bound
    rep_rep := by
      intro i
      rw [merged]
      refine ⟨Digraph.mergeInto_ne different i, ?_⟩
      unfold Digraph.mergeInto
      split
      · exact Or.inl repA
      · exact Or.inl (represented.rep_rep i)
    alive_iff := by
      intro i
      rw [merged, ← represented.alive_iff]
      by_cases same : i = b
      · simp [Scratch.merge, same]
      · simp only [Scratch.merge, Function.update_apply, if_neg same]
        constructor
        · exact fun alive => ⟨same, Or.inl alive⟩
        · rintro ⟨-, alive | ⟨isA, -⟩⟩
          · exact alive
          · exact isA ▸ aliveA
    mem_succs := by
      intro i j
      rw [edges]
      exact Scratch.mem_merge_succs different apart succs
        (fun i => preds i b bBound) i j
    mem_preds := by
      intro i j bound
      rw [edges]
      exact
        Scratch.mem_merge_preds different apart (fun i => preds i j bound)
          (fun i => preds i b bBound) (fun j => succs b j)
          (fun i => preds i a aBound)
    device_eq := by
      intro i
      unfold Digraph.mergeInto
      split
      · rename_i isB
        rw [device, ← isB, represented.device_eq]
      · exact represented.device_eq i
    cand := by
      intro i moved
      unfold Digraph.mergeInto at moved ⊢
      split at moved
      · rename_i isB
        rw [if_pos isB]
        refine ⟨?_, candA⟩
        by_cases self : rep i = i
        · rw [← self, isB]
          exact candB
        · exact (represented.cand i self).1
      · rename_i notB
        rw [if_neg notB]
        exact represented.cand i moved
    acyclic :=
      Digraph.acyclic_mergeInto represented.acyclic detours.1 detours.2 }

/-- The members of the merged class. -/
theorem Collected.merge (represented : Represented cg rep scratch)
    (collected : Collected cg rep scratch) (nodup : cg.body.Nodup)
    (pair : Mergeable cg scratch a b) :
    Collected cg (Digraph.mergeInto a b rep) (scratch.merge a b) := by
  obtain ⟨aBound, bBound, can, -⟩ := pair
  obtain ⟨different, aliveA, aliveB, -⟩ := Scratch.canBatch_iff.mp can
  have repA := (represented.alive_iff a).mp aliveA
  have repB := (represented.alive_iff b).mp aliveB
  have merged : ∀ op block,
      Digraph.mergeInto a b rep op = block ↔ _ :=
    Digraph.mergeInto_eq_iff different
  have injective : ∀ i < cg.count, ∀ j < cg.count,
      cg.opAt i = cg.opAt j → i = j := by
    intro i iBound j jBound same
    simp only [Graph.opAt, List.getD_eq_getElem?_getD,
      List.getElem?_eq_getElem iBound, List.getElem?_eq_getElem jBound,
      Option.getD_some] at same
    exact (nodup.getElem_inj_iff).mp same
  constructor
  · intro i bound self op
    obtain ⟨notB, cases⟩ := (merged i i).mp self
    have old : rep i = i := by
      rcases cases with same | ⟨isA, -⟩
      · exact same
      · exact isA ▸ repA
    simp only [Scratch.merge, Function.update_apply, merged]
    split
    · rename_i isA
      subst isA
      rw [List.mem_append, collected.mem_iff i bound old,
        collected.mem_iff b bBound repB]
      constructor
      · rintro (⟨j, jBound, inA, same⟩ | ⟨j, jBound, inB, same⟩)
        · exact ⟨j, jBound, ⟨notB, Or.inl inA⟩, same⟩
        · exact ⟨j, jBound, ⟨notB, Or.inr ⟨rfl, inB⟩⟩, same⟩
      · rintro ⟨j, jBound, ⟨-, inA | ⟨-, inB⟩⟩, same⟩
        · exact Or.inl ⟨j, jBound, inA, same⟩
        · exact Or.inr ⟨j, jBound, inB, same⟩
    · rename_i notA
      rw [collected.mem_iff i bound old]
      constructor
      · rintro ⟨j, jBound, inI, same⟩
        exact ⟨j, jBound, ⟨notB, Or.inl inI⟩, same⟩
      · rintro ⟨j, jBound, ⟨-, inI | ⟨isA, -⟩⟩, same⟩
        · exact ⟨j, jBound, inI, same⟩
        · exact (notA isA).elim
  · intro i bound self
    obtain ⟨notB, cases⟩ := (merged i i).mp self
    have old : rep i = i := by
      rcases cases with same | ⟨isA, -⟩
      · exact same
      · exact isA ▸ repA
    simp only [Scratch.merge, Function.update_apply]
    split
    · rename_i isA
      subst isA
      refine List.nodup_append.mpr
        ⟨collected.nodup i bound old, collected.nodup b bBound repB, ?_⟩
      intro op inA other inB same
      subst same
      obtain ⟨j, jBound, jClass, jSame⟩ :=
        (collected.mem_iff i bound old op).mp inA
      obtain ⟨k, kBound, kClass, kSame⟩ :=
        (collected.mem_iff b bBound repB op).mp inB
      have equal := injective j jBound k kBound (jSame.trans kSame.symm)
      exact different (jClass.symm.trans ((congrArg rep equal).trans kClass))
    · exact collected.nodup i bound old

end Merge

/-- Every scratch graph that merges reach is an acyclic contraction. -/
theorem Merges.represented {rep : Nat → Nat} {scratch : Scratch}
    (merges : Merges cg rep scratch)
    (acyclic : Digraph.Acyclic (IndexEdge cg)) :
    Represented cg rep scratch := by
  induction merges with
  | init => exact represented_init acyclic
  | merge _ pair induction => exact induction.merge pair

theorem Merges.collected {rep : Nat → Nat} {scratch : Scratch}
    (merges : Merges cg rep scratch)
    (acyclic : Digraph.Acyclic (IndexEdge cg)) (nodup : cg.body.Nodup) :
    Collected cg rep scratch := by
  induction merges with
  | init =>
      constructor
      · intro i bound _ op
        simp only [Scratch.init, List.mem_singleton, id]
        constructor
        · rintro rfl
          exact ⟨i, bound, rfl, rfl⟩
        · rintro ⟨_, _, rfl, rfl⟩
          rfl
      · intro i _ _
        exact List.nodup_singleton _
  | merge before pair induction =>
      exact induction.merge (before.represented acyclic) nodup pair

end Invariants

end Cgir.Mlir
