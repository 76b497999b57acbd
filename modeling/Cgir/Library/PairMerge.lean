import Mathlib.Data.List.Nodup
import Cgir.Library.Digraph
import Cgir.Library.StraightPath

/-!
# Merging two vertices

Two vertices `u` and `v` of a digraph become one vertex `w`, which is `u` itself
or a vertex without edges.  `Merges` says what becomes of a list of neighbours,
for every way to rewrite it; the edges are those of a contraction, and they stay
acyclic for false twins and for a sequence.
-/

namespace Cgir.Library.PairMerge

open Relation

variable {Vertex : Type}

/-! ## Lists -/

/-- A list of neighbours once `u` and `v` are merged into `w`. -/
structure Merges (u v w : Vertex) (before after : List Vertex) : Prop where
  nodup : after.Nodup
  mem_iff : ∀ x, x ∈ after ↔
    (x ≠ u ∧ x ≠ v ∧ x ∈ before) ∨ (x = w ∧ (u ∈ before ∨ v ∈ before))

namespace Merges

variable {u v w : Vertex} {list : List Vertex}

/-- A list without the two vertices stays as it is. -/
theorem same (nodup : list.Nodup) (uAbsent : u ∉ list) (vAbsent : v ∉ list) :
    Merges u v w list list where
  nodup := nodup
  mem_iff x := by
    simp only [uAbsent, vAbsent, or_false, and_false]
    constructor
    · intro member
      refine ⟨?_, ?_, member⟩
      · rintro rfl
        exact uAbsent member
      · rintro rfl
        exact vAbsent member
    · exact fun kept => kept.2.2

/-- Of two neighbours that become the first, the second is erased. -/
theorem erase [DecidableEq Vertex] (nodup : list.Nodup) (different : u ≠ v)
    (uMember : u ∈ list) : Merges u v u list (list.erase v) where
  nodup := nodup.erase v
  mem_iff x := by
    rw [nodup.mem_erase_iff]
    by_cases isFirst : x = u
    · subst isFirst
      simp [different, uMember]
    · simp [isFirst]

/-- The erased vertices are replaced by a new one at the end. -/
theorem diff [DecidableEq Vertex] (nodup : list.Nodup) (absent : w ∉ list)
    {gone : List Vertex}
    (gone_iff : ∀ x, x ∈ gone ↔ (x = u ∨ x = v) ∧ x ∈ list)
    (some : gone ≠ []) : Merges u v w list (list.diff gone ++ [w]) where
  nodup := by
    rw [List.nodup_append]
    refine ⟨nodup.diff, List.nodup_singleton w, ?_⟩
    intro x member y single same
    rw [List.mem_singleton] at single
    subst single same
    exact absent (nodup.mem_sdiff_iff.mp member).1
  mem_iff x := by
    have present : u ∈ list ∨ v ∈ list := by
      obtain ⟨first, member⟩ := List.exists_mem_of_ne_nil gone some
      obtain ⟨rfl | rfl, inside⟩ := (gone_iff first).mp member
      · exact Or.inl inside
      · exact Or.inr inside
    rw [List.mem_append, nodup.mem_sdiff_iff, gone_iff, List.mem_singleton]
    simp only [present, and_true]
    tauto

end Merges

/-! ## Edges -/

/-- The vertex that stands for a vertex. -/
def rep [DecidableEq Vertex] (u v w x : Vertex) : Vertex :=
  if x = u ∨ x = v then w else x

section Edges

variable {edge : Vertex → Vertex → Prop} {live : Vertex → Prop}
  {u v w : Vertex}

theorem rep_of_mem [DecidableEq Vertex] {x : Vertex}
    (merged : x = u ∨ x = v) : rep u v w x = w :=
  if_pos merged

theorem rep_of_ne [DecidableEq Vertex] {x : Vertex} (uNe : x ≠ u)
    (vNe : x ≠ v) : rep u v w x = x :=
  if_neg (not_or.mpr ⟨uNe, vNe⟩)

/-- The merged vertex is the first of the two, or is not a vertex yet. -/
structure Room (edge : Vertex → Vertex → Prop) (live : Vertex → Prop)
    (u v w : Vertex) : Prop where
  inside : ∀ source target, edge source target → live source ∧ live target
  room : w = u ∨ ¬ live w
  irreflexive : ∀ x, ¬ edge x x

namespace Room

variable (apart : Room edge live u v w)

include apart

theorem reverse : Room (fun source target => edge target source) live u v w
    where
  inside source target step := (apart.inside target source step).symm
  room := apart.room
  irreflexive := apart.irreflexive

/-- A vertex with edges that is not merged differs from the merged one. -/
theorem ne {x : Vertex} (alive : live x) (uNe : x ≠ u) : x ≠ w := by
  rintro rfl
  rcases apart.room with same | absent
  · exact uNe same
  · exact absent alive

variable [DecidableEq Vertex]

/-- The edges from a vertex that is not merged. -/
theorem contract_from {source : Vertex} (uNe : source ≠ u)
    (vNe : source ≠ v) (sourceNe : source ≠ w) (target : Vertex) :
    Digraph.Contract edge (rep u v w) source target ↔
      (target ≠ u ∧ target ≠ v ∧ edge source target) ∨
        (target = w ∧ (edge source u ∨ edge source v)) := by
  constructor
  · rintro ⟨-, from', to', step, fromEq, toEq⟩
    obtain rfl : from' = source := by
      by_cases merged : from' = u ∨ from' = v
      · rw [rep_of_mem merged] at fromEq
        exact (sourceNe fromEq.symm).elim
      · rw [not_or] at merged
        rw [rep_of_ne merged.1 merged.2] at fromEq
        exact fromEq
    by_cases merged : to' = u ∨ to' = v
    · rw [rep_of_mem merged] at toEq
      refine Or.inr ⟨toEq.symm, ?_⟩
      rcases merged with rfl | rfl
      · exact Or.inl step
      · exact Or.inr step
    · rw [not_or] at merged
      rw [rep_of_ne merged.1 merged.2] at toEq
      subst toEq
      exact Or.inl ⟨merged.1, merged.2, step⟩
  · rintro (⟨targetNe, targetNe', step⟩ | ⟨rfl, step | step⟩)
    · refine
        ⟨?_, source, target, step, rep_of_ne uNe vNe,
          rep_of_ne targetNe targetNe'⟩
      rintro rfl
      exact apart.irreflexive _ step
    · exact
        ⟨sourceNe, source, u, step, rep_of_ne uNe vNe,
          rep_of_mem (Or.inl rfl)⟩
    · exact
        ⟨sourceNe, source, v, step, rep_of_ne uNe vNe,
          rep_of_mem (Or.inr rfl)⟩

/-- The edges from the merged vertex. -/
theorem contract_merged (target : Vertex) :
    Digraph.Contract edge (rep u v w) w target ↔
      target ≠ u ∧ target ≠ v ∧ (edge u target ∨ edge v target) := by
  constructor
  · rintro ⟨different, from', to', step, fromEq, toEq⟩
    have outer : to' ≠ u ∧ to' ≠ v := by
      rw [← not_or]
      intro merged
      rw [rep_of_mem merged] at toEq
      exact different toEq
    rw [rep_of_ne outer.1 outer.2] at toEq
    subst toEq
    refine ⟨outer.1, outer.2, ?_⟩
    by_cases merged : from' = u ∨ from' = v
    · rcases merged with rfl | rfl
      · exact Or.inl step
      · exact Or.inr step
    · rw [not_or] at merged
      rw [rep_of_ne merged.1 merged.2] at fromEq
      exact
        (apart.ne (apart.inside from' to' step).1 merged.1 fromEq).elim
  · rintro ⟨uNe, vNe, step | step⟩
    · have alive := (apart.inside u target step).2
      exact
        ⟨(apart.ne alive uNe).symm, u, target, step, rep_of_mem (Or.inl rfl),
          rep_of_ne uNe vNe⟩
    · have alive := (apart.inside v target step).2
      exact
        ⟨(apart.ne alive uNe).symm, v, target, step, rep_of_mem (Or.inr rfl),
          rep_of_ne uNe vNe⟩

/-- The edges between other vertices stay. -/
theorem contract_others {source target : Vertex} (sourceU : source ≠ u)
    (sourceV : source ≠ v) (sourceW : source ≠ w) (targetU : target ≠ u)
    (targetV : target ≠ v) (targetW : target ≠ w) :
    Digraph.Contract edge (rep u v w) source target ↔ edge source target := by
  rw [apart.contract_from sourceU sourceV sourceW]
  simp [targetU, targetV, targetW]

/--
Merging creates no cycle when one vertex of the pair can stand for both: what
follows one of the pair is below it, and what precedes one of the pair above.
-/
theorem acyclic (acyclic : Digraph.Acyclic edge) (stand : Vertex)
    (leaves : ∀ x, x ≠ u → x ≠ v → edge u x ∨ edge v x →
      TransGen edge stand x)
    (enters : ∀ x, x ≠ u → x ≠ v → edge x u ∨ edge x v →
      TransGen edge x stand) :
    Digraph.Acyclic (Digraph.Contract edge (rep u v w)) := by
  let back : Vertex → Vertex := fun x => if x = w then stand else x
  have lift : ∀ source target,
      Digraph.Contract edge (rep u v w) source target →
        TransGen edge (back source) (back target) := by
    rintro _ _ ⟨different, source, target, step, rfl, rfl⟩
    obtain ⟨sourceLive, targetLive⟩ := apart.inside source target step
    have outer : ∀ {x}, live x → ¬ (x = u ∨ x = v) →
        back (rep u v w x) = x := by
      intro x alive merged
      rw [not_or] at merged
      rw [rep_of_ne merged.1 merged.2]
      exact if_neg (apart.ne alive merged.1)
    have inner : ∀ {x}, x = u ∨ x = v → back (rep u v w x) = stand := by
      intro x merged
      rw [rep_of_mem merged]
      exact if_pos rfl
    by_cases sourceIn : source = u ∨ source = v <;>
      by_cases targetIn : target = u ∨ target = v
    · rw [rep_of_mem sourceIn, rep_of_mem targetIn] at different
      exact (different rfl).elim
    · rw [inner sourceIn, outer targetLive targetIn]
      rw [not_or] at targetIn
      apply leaves target targetIn.1 targetIn.2
      rcases sourceIn with rfl | rfl
      · exact Or.inl step
      · exact Or.inr step
    · rw [outer sourceLive sourceIn, inner targetIn]
      rw [not_or] at sourceIn
      apply enters source sourceIn.1 sourceIn.2
      rcases targetIn with rfl | rfl
      · exact Or.inl step
      · exact Or.inr step
    · rw [outer sourceLive sourceIn, outer targetLive targetIn]
      exact TransGen.single step
  intro x cycle
  exact acyclic (back x) (TransGen.lift' back lift _ _ cycle)

/-- Merging false twins creates no cycle. -/
theorem acyclic_twins (acyclic : Digraph.Acyclic edge)
    (prev : ∀ x, edge x u ↔ edge x v) (next : ∀ x, edge u x ↔ edge v x) :
    Digraph.Acyclic (Digraph.Contract edge (rep u v w)) := by
  apply apart.acyclic acyclic u
  · rintro x - - (step | step)
    · exact TransGen.single step
    · exact TransGen.single ((next x).mpr step)
  · rintro x - - (step | step)
    · exact TransGen.single step
    · exact TransGen.single ((prev x).mpr step)

/-- Merging a sequence creates no cycle. -/
theorem acyclic_sequence (acyclic : Digraph.Acyclic edge) (step : edge u v)
    (next : ∀ x, edge u x → x = v) (prev : ∀ x, edge x v → x = u) :
    Digraph.Acyclic (Digraph.Contract edge (rep u v w)) := by
  apply apart.acyclic acyclic v
  · rintro x - vNe (link | link)
    · exact (vNe (next x link)).elim
    · exact TransGen.single link
  · rintro x uNe - (link | link)
    · exact (TransGen.single link).tail step
    · exact (uNe (prev x link)).elim

end Room

theorem contract_reverse [DecidableEq Vertex] (source target : Vertex) :
    Digraph.Contract (fun upper lower => edge lower upper) (rep u v w) target
        source ↔
      Digraph.Contract edge (rep u v w) source target := by
  constructor
  · rintro ⟨different, to', from', step, toEq, fromEq⟩
    exact ⟨different.symm, from', to', step, fromEq, toEq⟩
  · rintro ⟨different, from', to', step, fromEq, toEq⟩
    exact ⟨different.symm, to', from', step, toEq, fromEq⟩

end Edges

/-! ## Pairs that qualify for a merge -/

section Pairs

variable {edge : Vertex → Vertex → Prop} {u v a b : Vertex}

/-- Two vertices with the same neighbours. -/
structure Twins (edge : Vertex → Vertex → Prop) (u v : Vertex) : Prop where
  prev : ∀ x, edge x u ↔ edge x v
  next : ∀ x, edge u x ↔ edge v x

theorem Twins.reverse (twins : Twins edge u v) :
    Twins (fun source target => edge target source) u v :=
  ⟨twins.next, twins.prev⟩

theorem Twins.symm (twins : Twins edge u v) : Twins edge v u :=
  ⟨fun x => (twins.prev x).symm, fun x => (twins.next x).symm⟩

/-- Twins of a graph without loops are not connected. -/
theorem Twins.apart (twins : Twins edge u v)
    (irreflexive : ∀ x, ¬ edge x x) : ¬ edge u v ∧ ¬ edge v u :=
  ⟨fun step => irreflexive u ((twins.prev u).mpr step),
    fun step => irreflexive v ((twins.prev v).mp step)⟩

/-- Twins, or a sequence one way or the other. -/
def Alike (edge : Vertex → Vertex → Prop) (u v : Vertex) : Prop :=
  Twins edge u v ∨ Sole edge u v ∨ Sole edge v u

theorem Alike.symm (alike : Alike edge u v) : Alike edge v u := by
  rcases alike with twins | sole | sole
  · exact Or.inl twins.symm
  · exact Or.inr (Or.inr sole)
  · exact Or.inr (Or.inl sole)

/-- The edges once `v` is joined to `u`. -/
def Joined (edge : Vertex → Vertex → Prop) (u v source target : Vertex) :
    Prop :=
  source ≠ target ∧ source ≠ v ∧ target ≠ v ∧
    (edge source target ∨ (source = u ∧ edge v target) ∨
      (target = u ∧ edge source v))

theorem joined_reverse (source target : Vertex) :
    Joined (fun upper lower => edge lower upper) u v target source ↔
      Joined edge u v source target := by
  unfold Joined
  tauto

section Outside

variable (irreflexive : ∀ x, ¬ edge x x) (aFirst : a ≠ u) (aSecond : a ≠ v)

include irreflexive aFirst aSecond

/-- Edges between other vertices are as they were. -/
theorem joined_others {x : Vertex} (xFirst : x ≠ u) (xSecond : x ≠ v) :
    Joined edge u v x a ↔ edge x a := by
  constructor
  · rintro ⟨-, -, -, step | ⟨same, -⟩ | ⟨same, -⟩⟩
    · exact step
    · exact (xFirst same).elim
    · exact (aFirst same).elim
  · intro step
    refine ⟨?_, xSecond, aSecond, Or.inl step⟩
    rintro rfl
    exact irreflexive x step

omit irreflexive in
/-- What follows the joined vertex follows one of the pair. -/
theorem joined_next (different : u ≠ v) :
    Joined edge u v u a ↔ edge u a ∨ edge v a := by
  constructor
  · rintro ⟨-, -, -, step | ⟨-, step⟩ | ⟨same, -⟩⟩
    · exact Or.inl step
    · exact Or.inr step
    · exact (aFirst same).elim
  · rintro (step | step)
    · exact ⟨aFirst.symm, different, aSecond, Or.inl step⟩
    · exact ⟨aFirst.symm, different, aSecond, Or.inr (Or.inl ⟨rfl, step⟩)⟩

omit irreflexive in
/-- What precedes the joined vertex precedes one of the pair. -/
theorem joined_prev (different : u ≠ v) :
    Joined edge u v a u ↔ edge a u ∨ edge a v := by
  rw [← joined_reverse, joined_next aFirst aSecond different]

end Outside

/-- The pair has the same successors, or one of it has none outside the pair. -/
def SplitNext (edge : Vertex → Vertex → Prop) (u v : Vertex) : Prop :=
  (∀ x, edge u x ↔ edge v x) ∨ (∀ x, x ≠ v → ¬ edge u x) ∨
    ∀ x, x ≠ u → ¬ edge v x

/-- Of a pair that qualifies, the successors can be told apart. -/
theorem Alike.splitNext (alike : Alike edge u v) : SplitNext edge u v := by
  rcases alike with twins | sole | sole
  · exact Or.inl twins.next
  · exact Or.inr (Or.inl fun x other step => other (sole.only_next x step))
  · exact Or.inr (Or.inr fun x other step => other (sole.only_next x step))

theorem Alike.reverse (alike : Alike edge u v) :
    Alike (fun source target => edge target source) u v := by
  rcases alike with twins | sole | sole
  · exact Or.inl twins.reverse
  · exact Or.inr (Or.inr sole.reverse)
  · exact Or.inr (Or.inl sole.reverse)

section Join

variable (irreflexive : ∀ x, ¬ edge x x) (different : u ≠ v)
  (aFirst : a ≠ u) (aSecond : a ≠ v) (bFirst : b ≠ u) (bSecond : b ≠ v)

include irreflexive different aFirst aSecond bFirst bSecond

/-- Vertices that get the same predecessors had the same. -/
theorem prev_of_joined (split : SplitNext edge u v)
    (prev : ∀ x, Joined edge u v x a ↔ Joined edge u v x b) (x : Vertex) :
    edge x a ↔ edge x b := by
  have joined := prev u
  rw [joined_next aFirst aSecond different,
    joined_next bFirst bSecond different] at joined
  by_cases pair : x = u ∨ x = v
  · -- Whichever of the pair it was, the other one tells nothing else.
    rcases split with same | none | none
    · have ofA := same a
      have ofB := same b
      rcases pair with rfl | rfl
      · tauto
      · tauto
    · have notA := none a aSecond
      have notB := none b bSecond
      rcases pair with rfl | rfl
      · tauto
      · tauto
    · have notA := none a aFirst
      have notB := none b bFirst
      rcases pair with rfl | rfl
      · tauto
      · tauto
  · rw [not_or] at pair
    have outside := prev x
    rwa [joined_others irreflexive aFirst aSecond pair.1 pair.2,
      joined_others irreflexive bFirst bSecond pair.1 pair.2] at outside

theorem sole_of_joined (sole : Sole (Joined edge u v) a b) : Sole edge a b where
  step :=
    (joined_others irreflexive bFirst bSecond aFirst aSecond).mp sole.step
  only_next := by
    intro x step
    by_cases pair : x = u ∨ x = v
    · have toPair : edge a u ∨ edge a v := by
        rcases pair with rfl | rfl
        · exact Or.inl step
        · exact Or.inr step
      have same :=
        sole.only_next u ((joined_prev aFirst aSecond different).mpr toPair)
      exact (bFirst same.symm).elim
    · rw [not_or] at pair
      exact
        sole.only_next x
          ((joined_others irreflexive pair.1 pair.2 aFirst aSecond).mpr step)
  only_prev := by
    intro x step
    by_cases pair : x = u ∨ x = v
    · have fromPair : edge u b ∨ edge v b := by
        rcases pair with rfl | rfl
        · exact Or.inl step
        · exact Or.inr step
      have same :=
        sole.only_prev u ((joined_next bFirst bSecond different).mpr fromPair)
      exact (aFirst same.symm).elim
    · rw [not_or] at pair
      exact
        sole.only_prev x
          ((joined_others irreflexive bFirst bSecond pair.1 pair.2).mpr step)

/-- Joining a pair makes no other pair qualify. -/
theorem alike_of_joined (pair : Alike edge u v)
    (alike : Alike (Joined edge u v) a b) : Alike edge a b := by
  rcases alike with twins | sole | sole
  · left
    constructor
    · exact
        prev_of_joined irreflexive different aFirst aSecond bFirst bSecond
          pair.splitNext twins.prev
    · apply @prev_of_joined _ (fun source target => edge target source) u v
        a b irreflexive different aFirst aSecond bFirst bSecond
        pair.reverse.splitNext
      intro x
      exact
        (joined_reverse a x).trans
          ((twins.next x).trans (joined_reverse b x).symm)
  · exact
      Or.inr
        (Or.inl
          (sole_of_joined irreflexive different aFirst aSecond bFirst bSecond
            sole))
  · exact
      Or.inr
        (Or.inr
          (sole_of_joined irreflexive different bFirst bSecond aFirst aSecond
            sole))

end Join

end Pairs

end Cgir.Library.PairMerge
