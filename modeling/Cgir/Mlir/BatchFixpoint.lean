import Cgir.Library.PairMerge
import Cgir.Library.Worklist
import Cgir.Mlir.BatchPass

/-!
# The fixpoint of the batch contraction

A group that finds no partner leaves the queue of `BatchPass` for good, and only
a merged group is put back.  That is enough: a merge makes no pair mergeable that
does not contain the merged group.  So the contraction ends, in any order of the
queue, with no two groups left to merge (`contract_fixpoint`).
-/

namespace Cgir.Mlir

open Relation
open Cgir.Library
open Cgir.Library.PairMerge (Alike Joined)
open Cgir.Model

/--
A well-formed block: every op stands in it once, its tokens are acyclic, and
every op is reached from one of them.
-/
structure Graph.WellFormed (cg : Graph) : Prop where
  nodup : cg.body.Nodup
  acyclic : Digraph.Acyclic (IndexEdge cg)
  rooted : ∃ root, ∀ i < cg.count, ReflTransGen (IndexEdge cg) root i

/-- The work of an iteration on the index that it takes from the queue. -/
def Scratch.work (cg : Graph) (scratch : Scratch) (i : Nat) : Option Scratch :=
  if scratch.alive i && cg.candAt i then
    (scratch.partner cg i).map (scratch.merge i)
  else
    none

/--
The scratch graph is the deduplicated quotient of the block by its groups, each
with one representative, and no two groups can be merged.
-/
structure Fixpoint (cg : Graph) (rep : Nat → Nat) (scratch : Scratch) :
    Prop where
  rep_lt : ∀ i < cg.count, rep i < cg.count
  rep_rep : ∀ i, rep (rep i) = rep i
  alive_iff : ∀ i, scratch.alive i = true ↔ rep i = i
  mem_members : ∀ i < cg.count, rep i = i → ∀ op,
    op ∈ scratch.members i ↔ ∃ j < cg.count, rep j = i ∧ cg.opAt j = op
  members_nodup : ∀ i < cg.count, rep i = i → (scratch.members i).Nodup
  mem_succs : ∀ i j,
    j ∈ scratch.succs i ↔ Digraph.Contract (IndexEdge cg) rep i j
  mem_preds : ∀ i j, j < cg.count →
    (i ∈ scratch.preds j ↔ Digraph.Contract (IndexEdge cg) rep i j)
  consistent : ∀ i j, j < cg.count →
    (j ∈ scratch.succs i ↔ i ∈ scratch.preds j)
  no_loop : ∀ i < cg.count, i ∉ scratch.succs i ∧ i ∉ scratch.preds i
  settled : ∀ a b, ¬ Mergeable cg scratch a b

section Block

variable {cg : Graph} {rep : Nat → Nat} {scratch : Scratch}

/-- The ends of an edge are positions of the block. -/
theorem indexEdge_lt {i j : Nat} (edge : IndexEdge cg i j) :
    i < cg.count ∧ j < cg.count := by
  refine ⟨?_, edge.1⟩
  obtain ⟨op, -, found⟩ := List.mem_filterMap.mp (List.mem_toFinset.mp edge.2)
  obtain ⟨bound, -⟩ := List.idxOf?_eq_some_iff.mp found
  exact bound

section Groups

variable (represented : Represented cg rep scratch)

include represented

theorem Represented.edge_lt {i j : Nat}
    (edge : Digraph.Contract (IndexEdge cg) rep i j) :
    i < cg.count ∧ j < cg.count := by
  obtain ⟨-, upper, lower, step, rfl, rfl⟩ := edge
  obtain ⟨upperLt, lowerLt⟩ := indexEdge_lt step
  exact ⟨represented.rep_lt upper upperLt, represented.rep_lt lower lowerLt⟩

/-- `are_seq` tests for the only edge between two groups. -/
theorem Represented.areSeq_iff_sole {a b : Nat} (bound : b < cg.count) :
    Scratch.areSeq scratch a b = true ↔
      Sole (Digraph.Contract (IndexEdge cg) rep) a b := by
  rw [Scratch.areSeq_iff, Finset.ext_iff, Finset.ext_iff]
  simp only [Finset.mem_singleton, represented.mem_succs,
    represented.mem_preds _ b bound]
  constructor
  · rintro ⟨next, prev⟩
    exact {
      step := (next b).mpr rfl
      only_next := fun other => (next other).mp
      only_prev := fun other => (prev other).mp }
  · intro sole
    exact
      ⟨fun other => ⟨sole.only_next other, fun same => same ▸ sole.step⟩,
        fun other => ⟨sole.only_prev other, fun same => same ▸ sole.step⟩⟩

/-- `false_twins` tests for the same neighbours. -/
theorem Represented.falseTwins_iff_twins {a b : Nat} (aBound : a < cg.count)
    (bBound : b < cg.count) :
    Scratch.falseTwins scratch a b = true ↔
      PairMerge.Twins (Digraph.Contract (IndexEdge cg) rep) a b := by
  rw [Scratch.falseTwins_iff, Finset.ext_iff, Finset.ext_iff]
  simp only [represented.mem_succs, represented.mem_preds _ a aBound,
    represented.mem_preds _ b bBound]
  exact ⟨fun both => ⟨both.1, both.2⟩, fun twins => ⟨twins.prev, twins.next⟩⟩

theorem Represented.mergeable_iff {a b : Nat} :
    Mergeable cg scratch a b ↔
      a < cg.count ∧ b < cg.count ∧
        Scratch.canBatch cg scratch a b = true ∧
          Alike (Digraph.Contract (IndexEdge cg) rep) a b := by
  unfold Mergeable Alike
  apply and_congr_right
  intro aBound
  apply and_congr_right
  intro bBound
  rw [represented.falseTwins_iff_twins aBound bBound,
    represented.areSeq_iff_sole bBound, represented.areSeq_iff_sole aBound]

theorem Represented.mergeable_symm {a b : Nat}
    (pair : Mergeable cg scratch a b) : Mergeable cg scratch b a := by
  obtain ⟨aBound, bBound, can, alike⟩ := represented.mergeable_iff.mp pair
  refine
    represented.mergeable_iff.mpr ⟨bBound, aBound, ?_, alike.symm⟩
  rw [Scratch.canBatch_iff] at can ⊢
  obtain ⟨different, aliveA, aliveB, candA, candB, device⟩ := can
  exact ⟨different.symm, aliveB, aliveA, candB, candA, device.symm⟩

omit represented in
/-- Every group but the one of the root has a predecessor. -/
theorem exists_pred {root i : Nat}
    (path : ReflTransGen (IndexEdge cg) root i) (self : rep i = i)
    (other : i ≠ rep root) :
    ∃ p, Digraph.Contract (IndexEdge cg) rep p i := by
  have contracted := @Digraph.reach_contract _ _ _ rep _ _ path
  rw [self] at contracted
  rcases ReflTransGen.cases_tail contracted with same | ⟨p, -, step⟩
  · exact (other same).elim
  · exact ⟨p, step⟩

omit represented in
/-- False twins have a common predecessor. -/
theorem exists_common (formed : cg.WellFormed) {i b : Nat}
    (iBound : i < cg.count) (bBound : b < cg.count) (iSelf : rep i = i)
    (bSelf : rep b = b) (different : i ≠ b)
    (twins : PairMerge.Twins (Digraph.Contract (IndexEdge cg) rep) i b) :
    ∃ p, Digraph.Contract (IndexEdge cg) rep p i := by
  obtain ⟨root, reaches⟩ := formed.rooted
  by_cases isRoot : i = rep root
  · -- Then the other one is not the group of the root.
    obtain ⟨p, step⟩ :=
      exists_pred (reaches b bBound) bSelf
        (fun same => different (isRoot.trans same.symm))
    exact ⟨p, (twins.prev p).mpr step⟩
  · exact exists_pred (reaches i iBound) iSelf isRoot

/-- A group without a partner is in no pair that can be merged. -/
theorem Represented.not_mergeable (formed : cg.WellFormed) {i : Nat}
    (alone : scratch.partner cg i = none) (b : Nat) :
    ¬ Mergeable cg scratch i b := by
  intro pair
  obtain ⟨iBound, bBound, can, tests⟩ := id pair
  obtain ⟨different, aliveI, aliveB, -⟩ := Scratch.canBatch_iff.mp can
  have iSelf := (represented.alive_iff i).mp aliveI
  have bSelf := (represented.alive_iff b).mp aliveB
  simp only [Scratch.partner, Option.or_eq_none_iff] at alone
  obtain ⟨noTwin, noNext, noPrevious⟩ := alone
  rcases tests with twins | series | series
  · have same := (represented.falseTwins_iff_twins iBound bBound).mp twins
    obtain ⟨p, step⟩ :=
      exists_common formed iBound bBound iSelf bSelf different
        same
    have sibling : b ∈ (Scratch.ascending cg (scratch.preds i)).flatMap
        fun p => Scratch.ascending cg (scratch.succs p) := by
      refine List.mem_flatMap.mpr ⟨p, ?_, ?_⟩
      · exact
          Scratch.mem_ascending.mpr
            ⟨(represented.edge_lt step).1,
              (represented.mem_preds p i iBound).mpr step⟩
      · exact
          Scratch.mem_ascending.mpr
            ⟨bBound,
              (represented.mem_succs p b).mpr ((same.prev p).mp step)⟩
    have rejected := List.find?_eq_none.mp noTwin b sibling
    rw [can, twins] at rejected
    exact rejected rfl
  · have step := ((represented.areSeq_iff_sole bBound).mp series).step
    have listed : b ∈ Scratch.ascending cg (scratch.succs i) :=
      Scratch.mem_ascending.mpr
        ⟨bBound, (represented.mem_succs i b).mpr step⟩
    have rejected := List.find?_eq_none.mp noNext b listed
    rw [can, series] at rejected
    exact rejected rfl
  · have step := ((represented.areSeq_iff_sole iBound).mp series).step
    have listed : b ∈ Scratch.ascending cg (scratch.preds i) :=
      Scratch.mem_ascending.mpr
        ⟨bBound, (represented.mem_preds b i iBound).mpr step⟩
    have rejected := List.find?_eq_none.mp noPrevious b listed
    rw [can, series] at rejected
    exact rejected rfl

/-- A merge makes no pair mergeable that does not contain the merged group. -/
theorem Represented.mergeable_of_merge {i v a b : Nat}
    (pair : Mergeable cg scratch i v)
    (later : Mergeable cg (scratch.merge i v) a b) (aNe : a ≠ i)
    (bNe : b ≠ i) : Mergeable cg scratch a b := by
  obtain ⟨-, -, can, alike⟩ := represented.mergeable_iff.mp pair
  have different := (Scratch.canBatch_iff.mp can).1
  obtain ⟨aBound, bBound, canLater, alikeLater⟩ :=
    (represented.merge pair).mergeable_iff.mp later
  obtain ⟨apart, aliveA, aliveB, candA, candB, device⟩ :=
    Scratch.canBatch_iff.mp canLater
  have alive : ∀ {x}, (scratch.merge i v).alive x = true →
      x ≠ v ∧ scratch.alive x = true := by
    intro x aliveX
    by_cases gone : x = v
    · simp [Scratch.merge, gone] at aliveX
    · simp only [Scratch.merge, Function.update_apply, if_neg gone] at aliveX
      exact ⟨gone, aliveX⟩
  have joined : Digraph.Contract (IndexEdge cg) (Digraph.mergeInto i v rep) =
      Joined (Digraph.Contract (IndexEdge cg) rep) i v := by
    funext source target
    exact propext (Digraph.contract_mergeInto_iff different source target)
  rw [joined] at alikeLater
  refine represented.mergeable_iff.mpr ⟨aBound, bBound, ?_, ?_⟩
  · exact
      Scratch.canBatch_iff.mpr
        ⟨apart, (alive aliveA).2, (alive aliveB).2, candA, candB, device⟩
  · exact
      PairMerge.alike_of_joined (fun x loop => loop.1 rfl) different aNe
        (alive aliveA).1 bNe (alive aliveB).1 alike alikeLater

end Groups

/-! ## The work queue -/

theorem Scratch.work_eq_some_iff {i : Nat} {after : Scratch} :
    scratch.work cg i = some after ↔
      scratch.alive i = true ∧ cg.candAt i = true ∧
        ∃ v, scratch.partner cg i = some v ∧ scratch.merge i v = after := by
  simp [Scratch.work, and_assoc]

/-- The contraction is a greedy work queue. -/
theorem lawful_work (formed : cg.WellFormed) :
    Worklist.Lawful (Scratch.work cg) (fun scratch => ∃ rep, Merges cg rep scratch)
      (· < cg.count) (Scratch.aliveCount cg) (Mergeable cg) where
  keeps := by
    rintro scratch i after ⟨rep, merges⟩ bound worked
    obtain ⟨-, -, v, found, rfl⟩ := Scratch.work_eq_some_iff.mp worked
    exact ⟨_, merges.merge (Scratch.mergeable_of_partner bound found)⟩
  smaller := by
    rintro scratch i after - bound worked
    obtain ⟨-, -, v, found, rfl⟩ := Scratch.work_eq_some_iff.mp worked
    exact
      Scratch.aliveCount_merge (Scratch.mergeable_of_partner bound found)
  idle := by
    rintro scratch i ⟨rep, merges⟩ bound idle other
    have represented := merges.represented formed.acyclic
    have alone : ¬ Mergeable cg scratch i other := by
      intro pair
      obtain ⟨-, aliveI, -, candI, -⟩ := Scratch.canBatch_iff.mp pair.2.2.1
      have none : scratch.partner cg i = none := by
        simpa [Scratch.work, aliveI, candI] using idle
      exact represented.not_mergeable formed none other pair
    exact ⟨alone, fun pair => alone (represented.mergeable_symm pair)⟩
  others := by
    rintro scratch i after ⟨rep, merges⟩ bound worked a b aNe bNe later
    obtain ⟨-, -, v, found, rfl⟩ := Scratch.work_eq_some_iff.mp worked
    exact
      (merges.represented formed.acyclic).mergeable_of_merge
        (Scratch.mergeable_of_partner bound found) later aNe bNe

/-- The loop takes its indices from the front and puts them back at the end. -/
theorem contract_run {fuel : Nat} {queue : List Nat} {final : Scratch}
    (ran : Scratch.contract cg fuel scratch queue = some final) :
    ReflTransGen (Worklist.Step (Scratch.work cg)) (scratch, queue)
      (final, []) := by
  induction fuel generalizing scratch queue with
  | zero => cases ran
  | succ fuel induction =>
      cases queue with
      | nil =>
          cases ran
          exact ReflTransGen.refl
      | cons i queue =>
          rw [Scratch.contract] at ran
          split at ran
          · rename_i tests
            cases found : scratch.partner cg i with
            | none =>
                rw [found] at ran
                refine ReflTransGen.head ?_ (induction ran)
                refine Worklist.Step.drop (List.Perm.refl _) ?_
                rw [Scratch.work, if_pos tests, found]
                rfl
            | some v =>
                rw [found] at ran
                refine ReflTransGen.head ?_ (induction ran)
                refine
                  Worklist.Step.requeue (List.Perm.refl _) ?_
                    (List.perm_append_singleton i queue)
                rw [Scratch.work, if_pos tests, found]
                rfl
          · rename_i tests
            refine ReflTransGen.head ?_ (induction ran)
            refine Worklist.Step.drop (List.Perm.refl _) ?_
            rw [Scratch.work, if_neg tests]

/-- Where no pair is left, the scratch graph is the fixpoint. -/
theorem Merges.fixpoint (formed : cg.WellFormed)
    (merges : Merges cg rep scratch)
    (settled : ∀ a b, ¬ Mergeable cg scratch a b) :
    Fixpoint cg rep scratch := by
  have represented := merges.represented formed.acyclic
  have collected := merges.collected formed.acyclic formed.nodup
  exact {
    rep_lt := represented.rep_lt
    rep_rep := represented.rep_rep
    alive_iff := represented.alive_iff
    mem_members := collected.mem_iff
    members_nodup := collected.nodup
    mem_succs := represented.mem_succs
    mem_preds := represented.mem_preds
    consistent := by
      intro i j bound
      rw [represented.mem_succs, represented.mem_preds i j bound]
    no_loop := by
      intro i bound
      rw [represented.mem_succs, represented.mem_preds i i bound]
      exact ⟨fun loop => loop.1 rfl, fun loop => loop.1 rfl⟩
    settled := settled }

/-- A queue of the candidates covers all pairs. -/
theorem covered_init {queue : List Nat}
    (order : queue.Perm ((List.range cg.count).filter cg.candAt)) :
    Worklist.Covered (fun scratch => ∃ rep, Merges cg rep scratch)
      (· < cg.count) (Mergeable cg) (Scratch.init cg, queue) where
  holds := ⟨id, Merges.init⟩
  listed := by
    intro i member
    exact List.mem_range.mp (List.mem_of_mem_filter (order.mem_iff.mp member))
  covers := by
    intro a b pair
    left
    have cand := (Scratch.canBatch_iff.mp pair.2.2.1).2.2.2.1
    exact
      order.mem_iff.mpr
        (List.mem_filter.mpr ⟨List.mem_range.mpr pair.1, cand⟩)

end Block

/-- Import makes a well-formed block of a well-formed graph. -/
theorem Mirrors.wellFormed {heap : Heap} {iterators : Iterators} {cg : Graph}
    (formed : heap.WellFormed iterators.graph)
    (mirrors : Mirrors heap iterators cg) : cg.WellFormed where
  nodup := mirrors.body_nodup
  acyclic := mirrors.indexEdge_acyclic formed
  rooted := by
    have reaches : ∀ n, heap.Reachable iterators.graph n →
        ReflTransGen (IndexEdge cg)
          (iterators.index (heap.graphs iterators.graph).entry)
          (iterators.index n) := by
      intro n path
      induction path with
      | refl => exact ReflTransGen.refl
      | @tail middle last path step induction =>
          have link : heap.Link iterators.graph middle last := ⟨path, step⟩
          have member := mirrors.index_mem link.reachable
          apply induction.tail
          rw [mirrors.indexEdge_iff formed]
          refine ⟨member, ?_⟩
          rw [mirrors.mem_operands formed member, mirrors.node_index path,
            mirrors.node_index link.reachable]
          exact ⟨mirrors.index_mem path, link⟩
    refine
      ⟨iterators.index (heap.graphs iterators.graph).entry, fun i bound => ?_⟩
    have member : i ∈ cg.body := by
      rwa [mirrors.mem_body, ← mirrors.count_eq]
    have path := reaches _ (mirrors.reachable member)
    rwa [mirrors.index_node member] at path

/--
The contraction reaches its fixpoint from every order of the queue: the loop of
the pass returns it, and so does every loop that takes the queued groups in some
other order, none of which goes on forever.
-/
theorem contract_fixpoint (cg : Graph) (formed : cg.WellFormed)
    (queue : List Nat)
    (order : queue.Perm ((List.range cg.count).filter cg.candAt)) :
    (∃ rep final, Scratch.contract cg (2 * cg.count + 1) (Scratch.init cg)
        queue = some final ∧ Fixpoint cg rep final) ∧
      Acc (fun after before => Worklist.Step (Scratch.work cg) before after)
        (Scratch.init cg, queue) ∧
      ∀ final, ReflTransGen (Worklist.Step (Scratch.work cg))
          (Scratch.init cg, queue) (final, []) →
        ∃ rep, Fixpoint cg rep final := by
  have lawful := lawful_work formed
  have covered := covered_init order
  have every : ∀ final, ReflTransGen (Worklist.Step (Scratch.work cg))
      (Scratch.init cg, queue) (final, []) →
        ∃ rep, Fixpoint cg rep final := by
    intro final run
    obtain ⟨⟨rep, merges⟩, settled⟩ := covered.settled lawful run
    exact ⟨rep, merges.fixpoint formed settled⟩
  have enough : queue.length + Scratch.aliveCount cg (Scratch.init cg) <
      2 * cg.count + 1 := by
    have queued : queue.length ≤ cg.count := by
      rw [order.length_eq]
      exact (List.length_filter_le _ _).trans_eq List.length_range
    have alive : Scratch.aliveCount cg (Scratch.init cg) ≤ cg.count :=
      (Finset.card_filter_le _ _).trans_eq (Finset.card_range _)
    omega
  obtain ⟨-, final, ran, -⟩ :=
    Scratch.contract_merges (2 * cg.count + 1) Merges.init covered.listed
      enough
  obtain ⟨rep, fixpoint⟩ := every final (contract_run ran)
  exact ⟨⟨rep, final, ran, fixpoint⟩, covered.terminates lawful, every⟩

/-! ## Two twins above a third node -/

/-- A task of device 1 with the given operands. -/
def taskOp (operands : List OpId) : Op where
  duid := 1
  kind := .generic 0 (.prog Heap.taskProg)
  operands := operands
  srcNode := none

/-- An entry, two twins, a task that follows both, and an exit. -/
def twinBlock : Graph where
  ops := fun op =>
    match op with
    | 0 =>
        { duid := 0, kind := .empty true false, operands := [], srcNode := none }
    | 1 => taskOp [0]
    | 2 => taskOp [0]
    | 3 => taskOp [1, 2]
    | _ =>
        { duid := 0, kind := .empty false true, operands := [3], srcNode := none }
  opCount := 5
  body := [0, 1, 2, 3, 4]

theorem twinBlock_wellFormed : twinBlock.WellFormed where
  nodup := by decide
  acyclic := by
    have increases : ∀ j < 5, ∀ i ∈ twinBlock.predsAt j, i < j := by decide
    apply Digraph.Acyclic.of_rank fun i => 5 - i
    intro i j edge
    have bound : j < 5 := edge.1
    have less := increases j bound i edge.2
    omega
  rooted := by
    have earlier : ∀ j < 5, j = 0 ∨ ∃ i < j, i ∈ twinBlock.predsAt j := by
      decide
    refine ⟨0, ?_⟩
    intro j
    induction j using Nat.strongRecOn with
    | ind j induction =>
        intro bound
        rcases earlier j bound with rfl | ⟨i, less, isPred⟩
        · exact ReflTransGen.refl
        · exact (induction i less (less.trans bound)).tail ⟨bound, isPred⟩

theorem contract_fixpoint_twinBlock :
    ∃ rep final, Scratch.contract twinBlock 11 (Scratch.init twinBlock)
      [3, 2, 1] = some final ∧ Fixpoint twinBlock rep final :=
  (contract_fixpoint twinBlock twinBlock_wellFormed [3, 2, 1] (by decide)).1

/-- From the other end, the twins and the task become one group. -/
example :
    (Scratch.contract twinBlock 11 (Scratch.init twinBlock) [3, 2, 1]).map
        (fun final => (final.members 3, final.members 2, final.preds 2)) =
      some ([3], [2, 1, 3], {0}) := by
  decide

end Cgir.Mlir
