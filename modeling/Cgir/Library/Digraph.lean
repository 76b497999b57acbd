import Mathlib.Logic.Relation
import Mathlib.Data.Finset.Card
import Mathlib.Data.Finset.Filter
import Mathlib.Tactic.Tauto

/-!
# Acyclic digraphs, contraction and transitive reduction

Facts about an edge relation on an arbitrary vertex type.

* An acyclic relation on a finite domain has a rank that every edge decreases
  (`Acyclic.exists_rank`).
* Contracting the vertices of each block to one vertex preserves reachability,
  and the contraction of an acyclic digraph has a cycle exactly when some block
  depends on itself through vertices outside it, directly or through other
  blocks (`acyclic_contract_iff`).
* Removing every edge that a longer path bypasses preserves reachability
  (`transGen_reduced_iff`).
* Replacing a vertex by a graph with a head and a tail (`Expand`).
-/

namespace Cgir.Library.Digraph

open Relation

variable {Vertex Block : Type}

/-! ## Acyclicity -/

/-- No vertex reaches itself along one or more edges. -/
def Acyclic (edge : Vertex → Vertex → Prop) : Prop :=
  ∀ vertex, ¬ TransGen edge vertex vertex

namespace Acyclic

variable {edge edge' : Vertex → Vertex → Prop}

theorem mono (acyclic : Acyclic edge)
    (fewer : ∀ source target, edge' source target → edge source target) :
    Acyclic edge' := by
  intro vertex cycle
  exact acyclic vertex (TransGen.mono fewer _ _ cycle)

theorem reverse (acyclic : Acyclic edge) :
    Acyclic fun source target => edge target source := by
  intro vertex cycle
  exact acyclic vertex (transGen_swap.mp cycle)

/-- A decreasing rank excludes cycles. -/
theorem of_rank (rank : Vertex → Nat)
    (decreases :
      ∀ source target, edge source target → rank target < rank source) :
    Acyclic edge := by
  have below :
      ∀ {source target}, TransGen edge source target →
        rank target < rank source := by
    intro source target path
    induction path with
    | single step => exact decreases _ _ step
    | tail _ step before => exact (decreases _ _ step).trans before
  intro vertex cycle
  exact (below cycle).false

theorem ne (acyclic : Acyclic edge) {source target : Vertex}
    (path : TransGen edge source target) : source ≠ target := by
  intro equal
  apply acyclic target
  exact equal ▸ path

theorem asymm (acyclic : Acyclic edge) {source target : Vertex}
    (path : TransGen edge source target) :
    ¬ ReflTransGen edge target source := by
  intro back
  exact acyclic source (path.trans_left back)

/-- The number of vertices below a vertex is a rank that every edge decreases. -/
theorem exists_rank_le (acyclic : Acyclic edge) (domain : Finset Vertex)
    (inside : ∀ source target, edge source target → target ∈ domain) :
    ∃ rank : Vertex → Nat, (∀ vertex, rank vertex ≤ domain.card) ∧
      ∀ source target, edge source target → rank target < rank source := by
  classical
  refine
    ⟨fun vertex => (domain.filter (TransGen edge vertex)).card,
      fun vertex => Finset.card_filter_le _ _, ?_⟩
  intro source target step
  apply Finset.card_lt_card
  constructor
  · intro vertex member
    rw [Finset.mem_filter] at member ⊢
    exact ⟨member.1, TransGen.head step member.2⟩
  · intro subset
    have member :=
      subset (Finset.mem_filter.mpr
        ⟨inside source target step, TransGen.single step⟩)
    exact acyclic target (Finset.mem_filter.mp member).2

theorem exists_rank (acyclic : Acyclic edge) (domain : Finset Vertex)
    (inside : ∀ source target, edge source target → target ∈ domain) :
    ∃ rank : Vertex → Nat,
      ∀ source target, edge source target → rank target < rank source := by
  obtain ⟨rank, -, decreases⟩ := acyclic.exists_rank_le domain inside
  exact ⟨rank, decreases⟩

/-- On a finite domain every vertex reaches one without successors. -/
theorem exists_sink (acyclic : Acyclic edge) (domain : Finset Vertex)
    (inside : ∀ source target, edge source target → target ∈ domain)
    (vertex : Vertex) :
    ∃ sink, (∀ next, ¬ edge sink next) ∧
      ReflTransGen edge vertex sink := by
  obtain ⟨rank, decreases⟩ := acyclic.exists_rank domain inside
  induction height : rank vertex using Nat.strongRecOn generalizing vertex with
  | ind height induction =>
      by_cases stuck : ∃ next, edge vertex next
      · obtain ⟨next, step⟩ := stuck
        have lower := decreases vertex next step
        obtain ⟨sink, final, path⟩ :=
          induction (rank next) (height ▸ lower) next rfl
        exact ⟨sink, final, path.head step⟩
      · exact
          ⟨vertex, fun next step => stuck ⟨next, step⟩,
            ReflTransGen.refl⟩

/-- On a finite domain every vertex is reached from one without predecessors. -/
theorem exists_source (acyclic : Acyclic edge) (domain : Finset Vertex)
    (inside : ∀ source target, edge source target → source ∈ domain)
    (vertex : Vertex) :
    ∃ source, (∀ before, ¬ edge before source) ∧
      ReflTransGen edge source vertex := by
  obtain ⟨source, initial, path⟩ :=
    acyclic.reverse.exists_sink domain
      (fun source target step => inside target source step) vertex
  exact ⟨source, initial, reflTransGen_swap.mp path⟩

end Acyclic

/-! ## Contraction -/

/--
The edges between the blocks of a contraction: two different blocks joined by
an edge between some of their members.
-/
def Contract (edge : Vertex → Vertex → Prop) (rep : Vertex → Block)
    (source target : Block) : Prop :=
  source ≠ target ∧
    ∃ from' to', edge from' to' ∧ rep from' = source ∧ rep to' = target

/-- The edges between the members of one block. -/
def Within (edge : Vertex → Vertex → Prop) (rep : Vertex → Block)
    (source target : Vertex) : Prop :=
  edge source target ∧ rep source = rep target

/-- The block of a vertex has another member. -/
def Shared (rep : Vertex → Block) (vertex : Vertex) : Prop :=
  ∃ other, other ≠ vertex ∧ rep other = rep vertex

/--
A path leaves the block of `source` and ends in the block of `target`; the two
blocks may be the same.
-/
def Depends (edge : Vertex → Vertex → Prop) (rep : Vertex → Block)
    (source target : Vertex) : Prop :=
  ∃ from' outside to', rep from' = rep source ∧
    TransGen edge from' outside ∧ rep outside ≠ rep source ∧
      ReflTransGen edge outside to' ∧ rep to' = rep target

/-- One block with several members depends on another. -/
def SharedDepends (edge : Vertex → Vertex → Prop) (rep : Vertex → Block)
    (source target : Vertex) : Prop :=
  Shared rep source ∧ Shared rep target ∧ Depends edge rep source target

section Contraction

variable {edge : Vertex → Vertex → Prop} {rep : Vertex → Block}

/-- A contraction depends on the blocks of the ends of edges only. -/
theorem contract_congr {rep' : Vertex → Block}
    (same : ∀ source target, edge source target →
      rep' source = rep source ∧ rep' target = rep target)
    (source target : Block) :
    Contract edge rep' source target ↔ Contract edge rep source target := by
  apply and_congr_right
  intro _
  constructor
  · rintro ⟨upper, lower, step, upperEq, lowerEq⟩
    obtain ⟨upperSame, lowerSame⟩ := same upper lower step
    exact
      ⟨upper, lower, step, upperSame.symm.trans upperEq,
        lowerSame.symm.trans lowerEq⟩
  · rintro ⟨upper, lower, step, upperEq, lowerEq⟩
    obtain ⟨upperSame, lowerSame⟩ := same upper lower step
    exact
      ⟨upper, lower, step, upperSame.trans upperEq, lowerSame.trans lowerEq⟩

/-- A path of vertices is a path of their blocks. -/
theorem reach_contract {source target : Vertex}
    (path : ReflTransGen edge source target) :
    ReflTransGen (Contract edge rep) (rep source) (rep target) := by
  induction path with
  | refl => exact ReflTransGen.refl
  | @tail middle last _ step before =>
      by_cases same : rep middle = rep last
      · exact same ▸ before
      · exact before.tail ⟨same, middle, last, step, rfl, rfl⟩

theorem transGen_contract {source target : Vertex}
    (path : ReflTransGen edge source target)
    (different : rep source ≠ rep target) :
    TransGen (Contract edge rep) (rep source) (rep target) := by
  rcases reflTransGen_iff_eq_or_transGen.mp
    (reach_contract path) with equal | longer
  · exact (different equal.symm).elim
  · exact longer

/-- A dependency between blocks is a path of the contraction. -/
theorem Depends.contract {source target : Vertex}
    (depends : Depends edge rep source target) :
    TransGen (Contract edge rep) (rep source) (rep target) := by
  obtain ⟨from', outside, to', inSource, leaves, apart, enters, inTarget⟩ :=
    depends
  rw [← inSource, ← inTarget]
  refine
    TransGen.trans_left (transGen_contract leaves.to_reflTransGen ?_)
      (reach_contract enters)
  rw [inSource]
  exact apart.symm

theorem Depends.transGen_contract {source target : Vertex}
    (depends : TransGen (SharedDepends edge rep) source target) :
    TransGen (Contract edge rep) (rep source) (rep target) := by
  induction depends with
  | single step => exact step.2.2.contract
  | tail _ step before => exact before.trans step.2.2.contract

/-- Two vertices of one block of a single member are equal. -/
private theorem eq_of_not_shared {vertex other : Vertex}
    (alone : ¬ Shared rep vertex) (same : rep other = rep vertex) :
    other = vertex := by
  by_contra different
  exact alone ⟨other, different, same⟩

/--
A path of blocks either is a path of vertices or meets a block with several
members.
-/
private theorem contract_path_cases {source target : Block}
    (path : TransGen (Contract edge rep) source target) :
    (∃ from' to', rep from' = source ∧ rep to' = target ∧
        TransGen edge from' to') ∨
      ∃ shared, Shared rep shared ∧
        ReflTransGen (Contract edge rep) source (rep shared) ∧
          ReflTransGen (Contract edge rep) (rep shared) target := by
  induction path with
  | single step =>
      obtain ⟨-, from', to', edgeStep, fromEq, toEq⟩ := step
      exact Or.inl ⟨from', to', fromEq, toEq, TransGen.single edgeStep⟩
  | @tail middle last before step cases =>
      rcases cases with
        ⟨from', to', fromEq, toEq, below⟩ | ⟨shared, several, into, out⟩
      · obtain ⟨different, from'', to'', edgeStep, fromEq', toEq'⟩ := step
        by_cases several : Shared rep to'
        · right
          refine ⟨to', several, ?_, ?_⟩
          · rw [toEq]
            exact before.to_reflTransGen
          · rw [toEq]
            exact
              ReflTransGen.single
                ⟨different, from'', to'', edgeStep, fromEq', toEq'⟩
        · left
          have same : from'' = to' :=
            eq_of_not_shared several (fromEq'.trans toEq.symm)
          exact ⟨from', to'', fromEq, toEq', below.tail (same ▸ edgeStep)⟩
      · exact Or.inr ⟨shared, several, into, out.tail step⟩

/--
A path of blocks from a shared block: a chain of dependencies, then a path of
vertices that leaves the last block of the chain.
-/
private theorem contract_path_depends {start : Vertex}
    (several : Shared rep start) {target : Block}
    (path : TransGen (Contract edge rep) (rep start) target) :
    ∃ last from' outside to', Shared rep last ∧
      ReflTransGen (SharedDepends edge rep) start last ∧
        rep from' = rep last ∧ TransGen edge from' outside ∧
          rep outside ≠ rep last ∧ ReflTransGen edge outside to' ∧
            rep to' = target := by
  induction path with
  | single step =>
      obtain ⟨different, from', to', edgeStep, fromEq, toEq⟩ := step
      refine
        ⟨start, from', to', to', several, ReflTransGen.refl, fromEq,
          TransGen.single edgeStep, ?_, ReflTransGen.refl, toEq⟩
      intro equal
      exact different (equal.symm.trans toEq)
  | @tail middle target before step induction =>
      obtain
        ⟨last, from', outside, to', lastShared, chain, fromEq, leaves,
          apart, enters, toEq⟩ := induction
      obtain ⟨different, from'', to'', edgeStep, fromEq', toEq'⟩ := step
      by_cases shared : Shared rep to'
      · -- The path enters a shared block: it becomes one more dependency.
        refine
          ⟨to', from'', to'', to'', shared, ?_, fromEq'.trans toEq.symm,
            TransGen.single edgeStep, ?_, ReflTransGen.refl, toEq'⟩
        · exact
            chain.tail
              ⟨lastShared, shared, from', outside, to', fromEq, leaves,
                apart, enters, rfl⟩
        · intro equal
          exact different (toEq.symm.trans (equal.symm.trans toEq'))
      · have same : from'' = to' :=
          eq_of_not_shared shared (fromEq'.trans toEq.symm)
        exact
          ⟨last, from', outside, to'', lastShared, chain, fromEq, leaves,
            apart, enters.tail (same ▸ edgeStep), toEq'⟩

/-- A cycle through a shared block gives a cycle of dependencies. -/
private theorem shared_not_on_cycle
    (independent : Acyclic (SharedDepends edge rep))
    {shared : Vertex} (several : Shared rep shared) :
    ¬ TransGen (Contract edge rep) (rep shared) (rep shared) := by
  intro cycle
  obtain
    ⟨last, from', outside, to', lastShared, chain, fromEq, leaves,
      apart, enters, toEq⟩ := contract_path_depends several cycle
  exact
    independent shared
      (TransGen.tail' chain
        ⟨lastShared, several, from', outside, to', fromEq, leaves, apart,
          enters, toEq⟩)

/--
The contraction of an acyclic digraph is acyclic if and only if no shared block
depends on itself, directly or through a chain of shared blocks.
-/
theorem acyclic_contract_iff (acyclic : Acyclic edge) :
    Acyclic (Contract edge rep) ↔ Acyclic (SharedDepends edge rep) := by
  constructor
  · intro contracted vertex cycle
    exact contracted (rep vertex) (Depends.transGen_contract cycle)
  · intro independent block cycle
    rcases contract_path_cases cycle with
      ⟨from', to', fromEq, toEq, path⟩ | ⟨shared, several, into, out⟩
    · -- A cycle of single blocks is a cycle of vertices, so its ends differ.
      have different : from' ≠ to' := acyclic.ne path
      have several : Shared rep to' :=
        ⟨from', different, fromEq.trans toEq.symm⟩
      rw [← toEq] at cycle
      exact shared_not_on_cycle independent several cycle
    · apply shared_not_on_cycle independent several
      rcases reflTransGen_iff_eq_or_transGen.mp out with equal | longer
      · exact equal ▸ cycle
      · exact longer.trans_left into

end Contraction

/-! ## Transitive reduction -/

/-- An edge that no path of two or more edges bypasses. -/
def Reduced (edge : Vertex → Vertex → Prop) (source target : Vertex) : Prop :=
  edge source target ∧
    ¬ ∃ middle, TransGen edge source middle ∧ TransGen edge middle target

section Reduction

variable {edge : Vertex → Vertex → Prop}

/-- Removing the bypassed edges of an acyclic digraph keeps reachability. -/
theorem transGen_reduced_iff (acyclic : Acyclic edge)
    (domain : Finset Vertex)
    (inside : ∀ source target, edge source target → target ∈ domain)
    (source target : Vertex) :
    TransGen (Reduced edge) source target ↔ TransGen edge source target := by
  constructor
  · intro path
    exact TransGen.mono (fun _ _ step => step.1) _ _ path
  · obtain ⟨rank, decreases⟩ := acyclic.exists_rank domain inside
    have below :
        ∀ {upper lower}, TransGen edge upper lower →
          rank lower < rank upper := by
      intro upper lower path
      induction path with
      | single step => exact decreases _ _ step
      | tail _ step before => exact (decreases _ _ step).trans before
    induction height : rank source - rank target using Nat.strongRecOn
      generalizing source target with
    | ind height induction =>
        intro path
        by_cases bypassed :
            ∃ middle, TransGen edge source middle ∧
              TransGen edge middle target
        · obtain ⟨middle, upper, lower⟩ := bypassed
          have upperRank := below upper
          have lowerRank := below lower
          exact
            (induction _ (by omega) source middle rfl upper).trans
              (induction _ (by omega) middle target rfl lower)
        · cases path with
          | single step => exact TransGen.single ⟨step, bypassed⟩
          | tail before step =>
              exact
                (bypassed ⟨_, before, TransGen.single step⟩).elim

theorem acyclic_reduced (acyclic : Acyclic edge) : Acyclic (Reduced edge) :=
  acyclic.mono fun _ _ step => step.1

end Reduction

/-! ## Pruning a list -/

section Pruning

variable [DecidableEq Vertex]

/--
Scan a list and drop every vertex that another vertex of the current list
bypasses.  `kept` is the part already scanned; a dropped vertex is gone when
the following ones are examined.
-/
def prune (bypasses : Vertex → Vertex → Bool) :
    List Vertex → List Vertex → List Vertex
  | kept, [] => kept
  | kept, vertex :: rest =>
      if (kept ++ vertex :: rest).any
          (fun other => other ≠ vertex && bypasses other vertex) then
        prune bypasses kept rest
      else
        prune bypasses (kept ++ [vertex]) rest

theorem prune_subset (bypasses : Vertex → Vertex → Bool)
    (rest : List Vertex) :
    ∀ {kept : List Vertex} {vertex : Vertex},
      vertex ∈ prune bypasses kept rest → vertex ∈ kept ++ rest := by
  induction rest with
  | nil =>
      intro kept vertex member
      simpa [prune] using member
  | cons head rest induction =>
      intro kept vertex member
      rw [prune] at member
      split at member
      · have weaker := induction member
        simp only [List.mem_append, List.mem_cons] at weaker ⊢
        tauto
      · simpa using induction member

/-- A vertex of a list that no other vertex of the list bypasses. -/
def Unbypassed (bypasses : Vertex → Vertex → Bool) (list : List Vertex)
    (vertex : Vertex) : Prop :=
  vertex ∈ list ∧
    ∀ other ∈ list, other ≠ vertex → bypasses other vertex = false

/-- What the scan of a list maintains between the list and what is left of it. -/
private structure Pruning (bypasses : Vertex → Vertex → Bool)
    (list kept rest : List Vertex) : Prop where
  subset : ∀ vertex ∈ kept ++ rest, vertex ∈ list
  covered : ∀ vertex ∈ list, vertex ∈ kept ++ rest ∨
    ∃ other ∈ kept ++ rest, other ≠ vertex ∧ bypasses other vertex
  final : ∀ vertex ∈ kept, Unbypassed bypasses list vertex

private theorem Pruning.mem_prune_iff {bypasses : Vertex → Vertex → Bool}
    {list : List Vertex}
    (transitive : ∀ first ∈ list, ∀ second ∈ list, ∀ third ∈ list,
      bypasses first second → bypasses second third →
        bypasses first third)
    (antisymmetric : ∀ first ∈ list, ∀ second ∈ list,
      bypasses first second → bypasses second first → first = second)
    (rest : List Vertex) :
    ∀ {kept : List Vertex}, Pruning bypasses list kept rest →
      ∀ vertex, vertex ∈ prune bypasses kept rest ↔
        Unbypassed bypasses list vertex := by
  induction rest with
  | nil =>
      intro kept pruning vertex
      rw [prune]
      constructor
      · exact pruning.final vertex
      · rintro ⟨member, free⟩
        rcases pruning.covered vertex member with
          stays | ⟨other, otherMember, different, bypassed⟩
        · simpa using stays
        · rw [free other (pruning.subset other otherMember) different] at bypassed
          exact (Bool.false_ne_true bypassed).elim
  | cons head rest induction =>
      intro kept pruning vertex
      rw [prune]
      split
      · -- The head is dropped: what it bypassed, its own bypass bypasses.
        rename_i dropped
        obtain ⟨witness, witnessMember, holds⟩ := List.any_eq_true.mp dropped
        rw [Bool.and_eq_true, decide_eq_true_eq] at holds
        have witnessIn := pruning.subset witness witnessMember
        have headIn := pruning.subset head (by simp)
        have others : ∀ other ∈ kept ++ head :: rest, other ≠ head →
            other ∈ kept ++ rest := by
          intro other member different
          simpa [different] using member
        apply induction
        exact {
          subset := by
            intro other member
            apply pruning.subset other
            rcases List.mem_append.mp member with inKept | inRest
            · exact List.mem_append_left _ inKept
            · exact
                List.mem_append_right kept (List.mem_cons_of_mem head inRest)
          covered := by
            intro other member
            by_cases isHead : other = head
            · right
              exact
                ⟨witness, others witness witnessMember holds.1,
                  isHead ▸ holds.1, isHead ▸ holds.2⟩
            · rcases pruning.covered other member with
                stays | ⟨above, aboveMember, different, bypassed⟩
              · exact Or.inl (others other stays isHead)
              · right
                by_cases aboveHead : above = head
                · subst aboveHead
                  have longer :=
                    transitive _ witnessIn _ headIn _ member holds.2 bypassed
                  refine
                    ⟨witness, others witness witnessMember holds.1, ?_,
                      longer⟩
                  rintro rfl
                  exact
                    holds.1
                      (antisymmetric _ witnessIn _ headIn holds.2 bypassed)
                · exact
                    ⟨above, others above aboveMember aboveHead, different,
                      bypassed⟩
          final := pruning.final }
      · rename_i stays
        have free : ∀ other ∈ kept ++ head :: rest, other ≠ head →
            bypasses other head = false := by
          intro other member different
          by_contra bypassed
          apply stays
          apply List.any_eq_true.mpr
          exact ⟨other, member, by simpa [different] using bypassed⟩
        apply induction
        exact {
          subset := by simpa using pruning.subset
          covered := by simpa using pruning.covered
          final := by
            intro other member
            rcases List.mem_append.mp member with inKept | isHead
            · exact pruning.final other inKept
            · rw [List.mem_singleton] at isHead
              subst isHead
              have otherIn := pruning.subset other (by simp)
              refine ⟨otherIn, ?_⟩
              intro above aboveMember different
              by_contra bypassed
              rw [Bool.not_eq_false] at bypassed
              rcases pruning.covered above aboveMember with
                present | ⟨higher, higherMember, higherNe, covers⟩
              · rw [free above present different] at bypassed
                exact Bool.false_ne_true bypassed
              · have higherIn := pruning.subset higher higherMember
                have longer :=
                  transitive _ higherIn _ aboveMember _ otherIn covers bypassed
                by_cases isOther : higher = other
                · subst isOther
                  exact
                    different
                      (antisymmetric _ aboveMember _ otherIn bypassed covers)
                · rw [free higher higherMember isOther] at longer
                  exact Bool.false_ne_true longer }

/--
When the relation is a partial order, the order of the scan does not matter:
exactly the vertices that no other vertex of the list bypasses are left.
-/
theorem mem_prune_iff {bypasses : Vertex → Vertex → Bool}
    (list : List Vertex)
    (transitive : ∀ first ∈ list, ∀ second ∈ list, ∀ third ∈ list,
      bypasses first second → bypasses second third →
        bypasses first third)
    (antisymmetric : ∀ first ∈ list, ∀ second ∈ list,
      bypasses first second → bypasses second first → first = second)
    (vertex : Vertex) :
    vertex ∈ prune bypasses [] list ↔ Unbypassed bypasses list vertex := by
  apply Pruning.mem_prune_iff transitive antisymmetric
  exact {
    subset := by simp
    covered := fun other member => Or.inl member
    final := by simp }

omit [DecidableEq Vertex] in
/-- A successor that no other successor reaches is the end of a reduced edge. -/
theorem unbypassed_iff {edge : Vertex → Vertex → Prop}
    (acyclic : Acyclic edge)
    {bypasses : Vertex → Vertex → Bool} {u : Vertex} {list : List Vertex}
    (lists : ∀ vertex, vertex ∈ list ↔ edge u vertex)
    (matrix : ∀ w ∈ list, ∀ v ∈ list,
      bypasses w v ↔ ReflTransGen edge w v) (v : Vertex) :
    Unbypassed bypasses list v ↔ Reduced edge u v := by
  constructor
  · rintro ⟨member, free⟩
    refine ⟨(lists v).mp member, ?_⟩
    rintro ⟨middle, upper, lower⟩
    obtain ⟨w, step, path⟩ := TransGen.head'_iff.mp upper
    have onward := TransGen.trans_right path lower
    have wMember := (lists w).mpr step
    have bypassed :=
      (matrix w wMember v member).mpr onward.to_reflTransGen
    rw [free w wMember (acyclic.ne onward)] at bypassed
    exact Bool.false_ne_true bypassed
  · rintro ⟨step, direct⟩
    refine ⟨(lists v).mpr step, ?_⟩
    intro w wMember different
    by_contra bypassed
    rw [Bool.not_eq_false, matrix w wMember v ((lists v).mpr step)] at bypassed
    rcases reflTransGen_iff_eq_or_transGen.mp bypassed with equal | longer
    · exact different equal.symm
    · exact direct ⟨w, TransGen.single ((lists w).mp wMember), longer⟩

end Pruning

/-! ## Expansion -/

/--
The edges of a digraph whose blocks are replaced by graphs: an edge between
blocks joins the tail of one to the head of the other, and the inner edges are
kept.
-/
def Expand (outer : Block → Block → Prop) (inner : Vertex → Vertex → Prop)
    (head tail : Block → Vertex) (source target : Vertex) : Prop :=
  (∃ upper lower, outer upper lower ∧
      tail upper = source ∧ head lower = target) ∨
    inner source target

/--
Expanding blocks loses no path of a digraph whose vertices have an image in a
block each, when edges between blocks are outer edges, and every image is
connected to the tail of its block and from the head.
-/
theorem reach_expand_image {Start : Type} {edge : Start → Start → Prop}
    {outer : Block → Block → Prop} {inner : Vertex → Vertex → Prop}
    {place : Start → Block} {image : Start → Vertex}
    {head tail : Block → Vertex}
    (within : ∀ source target, edge source target →
      place source = place target → inner (image source) (image target))
    (across : ∀ source target, edge source target →
      place source ≠ place target → outer (place source) (place target))
    (toTail : ∀ source target, edge source target →
      place source ≠ place target →
        ReflTransGen inner (image source) (tail (place source)))
    (fromHead : ∀ source target, edge source target →
      place source ≠ place target →
        ReflTransGen inner (head (place target)) (image target))
    {source target : Start} (path : ReflTransGen edge source target) :
    ReflTransGen (Expand outer inner head tail) (image source)
      (image target) := by
  have lift :
      ∀ {upper lower}, ReflTransGen inner upper lower →
        ReflTransGen (Expand outer inner head tail) upper lower := by
    intro upper lower below
    exact ReflTransGen.mono (fun _ _ step => Or.inr step) _ _ below
  induction path with
  | refl => exact ReflTransGen.refl
  | @tail middle last _ step before =>
      apply before.trans
      by_cases same : place middle = place last
      · exact ReflTransGen.single (Or.inr (within middle last step same))
      · have crossing :
            Expand outer inner head tail (tail (place middle))
              (head (place last)) :=
          Or.inl
            ⟨place middle, place last, across middle last step same, rfl,
              rfl⟩
        exact
          (lift (toTail middle last step same)).trans
            (ReflTransGen.head crossing
              (lift (fromHead middle last step same)))

/--
Expanding a contraction loses no path, when every vertex is connected to the
tail of its block and from the head, and the edges within a block are inner.
-/
theorem reach_expand
    {edge inner : Vertex → Vertex → Prop} {rep : Vertex → Block}
    {head tail : Block → Vertex}
    (within :
      ∀ source target, edge source target → rep source = rep target →
        inner source target)
    (toTail :
      ∀ source target, edge source target → rep source ≠ rep target →
        ReflTransGen inner source (tail (rep source)))
    (fromHead :
      ∀ source target, edge source target → rep source ≠ rep target →
        ReflTransGen inner (head (rep target)) target)
    {source target : Vertex} (path : ReflTransGen edge source target) :
    ReflTransGen (Expand (Contract edge rep) inner head tail)
      source target :=
  reach_expand_image within
    (fun source target step apart =>
      ⟨apart, source, target, step, rfl, rfl⟩) toTail fromHead path

/--
Every edge between two blocks leaves the tail of the one and enters the head of
the other.
-/
structure Ends (edge : Vertex → Vertex → Prop) (rep : Vertex → Block)
    (head tail : Block → Vertex) : Prop where
  tail_eq : ∀ source target, edge source target → rep source ≠ rep target →
    tail (rep source) = source
  head_eq : ∀ source target, edge source target → rep source ≠ rep target →
    head (rep target) = target

namespace Ends

variable {edge inner : Vertex → Vertex → Prop} {rep : Vertex → Block}
  {head tail : Block → Vertex} (ends : Ends edge rep head tail)

include ends

/-- Expanding a contraction whose blocks have ends gives the edges back. -/
theorem expand_iff
    (innerIff : ∀ source target, inner source target ↔
      edge source target ∧ rep source = rep target)
    (source target : Vertex) :
    Expand (Contract edge rep) inner head tail source target ↔
      edge source target := by
  constructor
  · rintro (⟨_, _, ⟨apart, from', to', step, rfl, rfl⟩, rfl, rfl⟩ | inside)
    · rw [ends.tail_eq from' to' step apart, ends.head_eq from' to' step apart]
      exact step
    · exact ((innerIff source target).mp inside).1
  · intro step
    by_cases same : rep source = rep target
    · exact Or.inr ((innerIff source target).mpr ⟨step, same⟩)
    · exact
        Or.inl
          ⟨rep source, rep target, ⟨same, source, target, step, rfl, rfl⟩,
            ends.tail_eq source target step same,
            ends.head_eq source target step same⟩

/-- Contracting blocks that lead from head to tail creates no cycle. -/
theorem acyclic_contract (acyclic : Acyclic edge)
    (through : ∀ source target, edge source target →
      ReflTransGen edge (head (rep target)) (tail (rep target))) :
    Acyclic (Contract edge rep) := by
  have lift : ∀ source target, Contract edge rep source target →
      TransGen edge (tail source) (tail target) := by
    rintro _ _ ⟨apart, from', to', step, rfl, rfl⟩
    have inside := through from' to' step
    rw [ends.head_eq from' to' step apart] at inside
    rw [ends.tail_eq from' to' step apart]
    exact TransGen.head' step inside
  intro block cycle
  exact acyclic (tail block) (TransGen.lift' tail lift _ _ cycle)

end Ends

end Cgir.Library.Digraph
