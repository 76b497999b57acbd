import Mathlib.Data.List.Chain
import Mathlib.Data.List.Infix
import Cgir.Library.Digraph

/-!
# Straight paths

A straight path follows edges each of which is the only edge out of its source
and the only edge into its target.  The edges that leave a straight path start
at its last vertex, and those that enter it end at its first vertex.
-/

namespace Cgir.Library

open Relation

variable {Vertex : Type}

/-- The only edge out of its source and into its target. -/
structure Sole (edge : Vertex → Vertex → Prop) (source target : Vertex) :
    Prop where
  step : edge source target
  only_next : ∀ other, edge source other → other = target
  only_prev : ∀ other, edge other target → other = source

theorem Sole.reverse {edge : Vertex → Vertex → Prop}
    {source target : Vertex} (sole : Sole edge source target) :
    Sole (fun upper lower => edge lower upper) target source where
  step := sole.step
  only_next := sole.only_prev
  only_prev := sole.only_next

/-- The members of a straight path, from its first to its last vertex. -/
inductive StraightPath (edge : Vertex → Vertex → Prop) (first : Vertex) :
    Vertex → List Vertex → Prop where
  | start :
      StraightPath edge first first [first]
  | next {last next : Vertex} {members : List Vertex}
      (path : StraightPath edge first last members)
      (sole : Sole edge last next) :
      StraightPath edge first next (members ++ [next])

namespace StraightPath

variable {edge : Vertex → Vertex → Prop} {first last : Vertex}
  {members : List Vertex}

theorem getLast? (path : StraightPath edge first last members) :
    members.getLast? = some last := by
  cases path with
  | start => rfl
  | next path sole => exact List.getLast?_concat

theorem head? (path : StraightPath edge first last members) :
    members.head? = some first := by
  induction path with
  | start => rfl
  | next _ _ induction => rw [List.head?_append, induction, Option.some_or]

theorem last_mem (path : StraightPath edge first last members) :
    last ∈ members :=
  List.mem_of_getLast? path.getLast?

theorem first_mem (path : StraightPath edge first last members) :
    first ∈ members :=
  List.mem_of_head? path.head?

/-- A straight path may be extended at its start. -/
theorem cons {before : Vertex} (path : StraightPath edge first last members)
    (sole : Sole edge before first) :
    StraightPath edge before last (before :: members) := by
  induction path with
  | start => exact StraightPath.start.next sole
  | next _ last induction => exact induction.next last

/-- Neighbours on a straight path are sole edges. -/
theorem isChain (path : StraightPath edge first last members) :
    List.IsChain (Sole edge) members := by
  induction path with
  | start => exact List.isChain_singleton first
  | next path sole induction =>
      apply List.isChain_append.mpr
      refine ⟨induction, List.isChain_singleton _, ?_⟩
      intro before isLast after isFirst
      rw [Option.mem_def, path.getLast?, Option.some.injEq] at isLast
      rw [List.head?_cons, Option.mem_def, Option.some.injEq] at isFirst
      exact isLast ▸ isFirst ▸ sole

/-- Every member is on the way from the first to the last vertex. -/
theorem between (path : StraightPath edge first last members)
    {vertex : Vertex} (member : vertex ∈ members) :
    ReflTransGen edge first vertex ∧ ReflTransGen edge vertex last := by
  induction path generalizing vertex with
  | start =>
      rw [List.mem_singleton.mp member]
      exact ⟨ReflTransGen.refl, ReflTransGen.refl⟩
  | next path sole induction =>
      rcases List.mem_append.mp member with earlier | isLast
      · obtain ⟨above, below⟩ := induction earlier
        exact ⟨above, below.tail sole.step⟩
      · rw [List.mem_singleton.mp isLast]
        have above := (induction path.last_mem).1
        exact ⟨above.tail sole.step, ReflTransGen.refl⟩

theorem nodup (path : StraightPath edge first last members)
    (acyclic : Digraph.Acyclic edge) : members.Nodup := by
  induction path with
  | start => exact List.nodup_singleton _
  | @next last next members path sole induction =>
      rw [List.nodup_append]
      refine ⟨induction, List.nodup_singleton _, ?_⟩
      intro vertex member other single equal
      rw [List.mem_singleton.mp single] at equal
      subst equal
      exact acyclic vertex (TransGen.tail' (path.between member).2 sole.step)

/-- An edge out of a member that is not the last stays on the path. -/
theorem next_mem (path : StraightPath edge first last members)
    {source target : Vertex} (member : source ∈ members)
    (inner : source ≠ last) (step : edge source target) :
    target ∈ members := by
  induction path with
  | start => exact (inner (List.mem_singleton.mp member)).elim
  | @next last next members path sole induction =>
      rcases List.mem_append.mp member with earlier | isLast
      · by_cases atLast : source = last
        · subst atLast
          rw [sole.only_next target step]
          exact List.mem_append_right _ (List.mem_singleton.mpr rfl)
        · exact List.mem_append_left _ (induction earlier atLast)
      · exact (inner (List.mem_singleton.mp isLast)).elim

/-- An edge into a member that is not the first stays on the path. -/
theorem prev_mem (path : StraightPath edge first last members)
    {source target : Vertex} (member : target ∈ members)
    (inner : target ≠ first) (step : edge source target) :
    source ∈ members := by
  induction path with
  | start => exact (inner (List.mem_singleton.mp member)).elim
  | @next last next members path sole induction =>
      rcases List.mem_append.mp member with earlier | isLast
      · exact List.mem_append_left _ (induction earlier)
      · rw [List.mem_singleton] at isLast
        subst isLast
        rw [sole.only_prev source step]
        exact List.mem_append_left _ path.last_mem

/-- Every member is between the ends along edges of the path. -/
theorem between_within (path : StraightPath edge first last members)
    {vertex : Vertex} (member : vertex ∈ members) :
    ReflTransGen
        (fun source target =>
          edge source target ∧ source ∈ members ∧ target ∈ members)
        first vertex ∧
      ReflTransGen
        (fun source target =>
          edge source target ∧ source ∈ members ∧ target ∈ members)
        vertex last := by
  obtain ⟨above, below⟩ := path.between member
  constructor
  · induction above with
    | refl => exact ReflTransGen.refl
    | @tail middle next _ step induction =>
        by_cases atFirst : next = first
        · rw [atFirst]
        · have earlier := path.prev_mem member atFirst step
          exact
            (induction earlier (path.between earlier).2).tail
              ⟨step, earlier, member⟩
  · induction below using ReflTransGen.head_induction_on with
    | refl => exact ReflTransGen.refl
    | @head next middle step _ induction =>
        by_cases atLast : next = last
        · rw [atLast]
        · have later := path.next_mem member atLast step
          exact
            ReflTransGen.head ⟨step, member, later⟩
              (induction later (path.between later).1)

/-- The edges between members join neighbours on the path. -/
theorem infix_iff (path : StraightPath edge first last members)
    (acyclic : Digraph.Acyclic edge) (source target : Vertex) :
    [source, target] <:+: members ↔
      edge source target ∧ source ∈ members ∧ target ∈ members := by
  induction path with
  | start =>
      constructor
      · intro within
        exact absurd within.length_le (by simp)
      · rintro ⟨step, isFirst, isFirst'⟩
        rw [List.mem_singleton.mp isFirst, List.mem_singleton.mp isFirst']
          at step
        exact (acyclic first (TransGen.single step)).elim
  | @next last next members path sole induction =>
      have ending : [source, target] <:+ members ++ [next] ↔
          source = last ∧ target = next := by
        obtain ⟨before, split⟩ :=
          List.getLast?_eq_some_iff.mp path.getLast?
        constructor
        · rintro ⟨rest, equal⟩
          rw [split, List.append_assoc] at equal
          have shape : rest ++ [source, target] = before ++ [last, next] :=
            equal
          have ends := (List.append_inj' shape rfl).2
          simp only [List.cons.injEq, and_true] at ends
          exact ends
        · rintro ⟨rfl, rfl⟩
          exact ⟨before, by rw [split, List.append_assoc]; rfl⟩
      rw [List.infix_concat_iff, ending, induction]
      constructor
      · rintro (⟨rfl, rfl⟩ | ⟨step, sourceMem, targetMem⟩)
        · exact
            ⟨sole.step, List.mem_append_left _ path.last_mem,
              List.mem_append_right _ (List.mem_singleton.mpr rfl)⟩
        · exact
            ⟨step, List.mem_append_left _ sourceMem,
              List.mem_append_left _ targetMem⟩
      · rintro ⟨step, sourceMem, targetMem⟩
        rcases List.mem_append.mp targetMem with earlier | isNext
        · rcases List.mem_append.mp sourceMem with earlier' | isNext
          · exact Or.inr ⟨step, earlier', earlier⟩
          · rw [List.mem_singleton] at isNext
            subst isNext
            have below := ((path.between earlier).2).tail sole.step
            exact (acyclic source (TransGen.head' step below)).elim
        · rw [List.mem_singleton] at isNext
          subst isNext
          exact Or.inl ⟨sole.only_prev source step, rfl⟩

/-! ## Contracting a straight path -/

section Contraction

variable {rep rep' : Vertex → Vertex} {batch : Vertex}

/-- The contracted edges together with those within the blocks. -/
def Regroup (edge : Vertex → Vertex → Prop) (rep : Vertex → Vertex)
    (source target : Vertex) : Prop :=
  Digraph.Contract edge rep source target ∨
    Digraph.Within edge rep source target

/--
The members of a path stand for themselves alone, and get a fresh vertex as
their representative.
-/
structure Absorbs (edge : Vertex → Vertex → Prop) (members : List Vertex)
    (batch : Vertex) (rep rep' : Vertex → Vertex) : Prop where
  self : ∀ vertex ∈ members, rep vertex = vertex
  alone : ∀ vertex, rep vertex ∈ members → vertex = rep vertex
  source_fresh : ∀ source target, edge source target → rep source ≠ batch
  target_fresh : ∀ source target, edge source target → rep target ≠ batch
  on_path : ∀ vertex ∈ members, rep' vertex = batch
  off_path : ∀ vertex, vertex ∉ members → rep' vertex = rep vertex

/-- Between two members, the regrouped edges are edges. -/
theorem Absorbs.edge_of_regroup {rep rep' : Vertex → Vertex} {batch : Vertex}
    (absorbs : Absorbs edge members batch rep rep') {source target : Vertex}
    (sourceMem : source ∈ members) (targetMem : target ∈ members)
    (regroup : Regroup edge rep source target) : edge source target := by
  rcases regroup with ⟨-, from', to', step, fromEq, toEq⟩ | ⟨step, -⟩
  · have fromSelf := absorbs.alone from' (fromEq.symm ▸ sourceMem)
    have toSelf := absorbs.alone to' (toEq.symm ▸ targetMem)
    rw [fromEq] at fromSelf
    rw [toEq] at toSelf
    exact fromSelf ▸ toSelf ▸ step
  · exact step

/-- No edge leads back to the first vertex. -/
theorem not_edge_first (path : StraightPath edge first last members)
    (acyclic : Digraph.Acyclic edge) {vertex : Vertex}
    (member : vertex ∈ members) : ¬ edge vertex first :=
  fun step => acyclic first (TransGen.tail' (path.between member).1 step)

/-- No edge leads forth from the last vertex. -/
theorem not_edge_last (path : StraightPath edge first last members)
    (acyclic : Digraph.Acyclic edge) {vertex : Vertex}
    (member : vertex ∈ members) : ¬ edge last vertex :=
  fun step => acyclic last (TransGen.head' step (path.between member).2)

/-- The ends of a path with two members are different. -/
theorem ends_ne (path : StraightPath edge first last members)
    (acyclic : Digraph.Acyclic edge) (two : 2 ≤ members.length) :
    first ≠ last := by
  cases path with
  | start => simp at two
  | next path sole =>
      rintro rfl
      exact path.not_edge_first acyclic path.last_mem sole.step

variable (path : StraightPath edge first last members)
  (acyclic : Digraph.Acyclic edge)
  (absorbs : Absorbs edge members batch rep rep')

include path acyclic absorbs

/-- The edges that moving the boundary leaves are regrouped. -/
private theorem regroup_of_moved {source target : Vertex}
    (moved :
      (Regroup edge rep source target ∧ target ≠ first ∧ source ≠ last) ∨
        (Regroup edge rep source first ∧ target = batch) ∨
          (source = batch ∧ Regroup edge rep last target)) :
    Regroup edge rep' source target := by
  have noLoop : ∀ {vertex}, ¬ edge vertex vertex :=
    fun step => acyclic _ (TransGen.single step)
  rcases moved with
    ⟨contract | within, notFirst, notLast⟩ | ⟨contract | within, rfl⟩ |
      ⟨rfl, contract | within⟩
  · obtain ⟨apart, from', to', step, rfl, rfl⟩ := contract
    by_cases fromMem : from' ∈ members
    · rw [absorbs.self from' fromMem] at notLast ⊢
      have toMem := path.next_mem fromMem notLast step
      rw [absorbs.self to' toMem]
      refine Or.inr ⟨step, ?_⟩
      rw [absorbs.on_path from' fromMem, absorbs.on_path to' toMem]
    · by_cases toMem : to' ∈ members
      · rw [absorbs.self to' toMem] at notFirst
        exact (fromMem (path.prev_mem toMem notFirst step)).elim
      · exact
          Or.inl ⟨apart, from', to', step, absorbs.off_path from' fromMem,
            absorbs.off_path to' toMem⟩
  · obtain ⟨step, same⟩ := within
    by_cases sourceMem : source ∈ members
    · rw [absorbs.self source sourceMem] at same
      have equal := absorbs.alone target (same ▸ sourceMem)
      rw [← same] at equal
      exact (noLoop (equal ▸ step)).elim
    · by_cases targetMem : target ∈ members
      · rw [absorbs.self target targetMem] at same
        have equal := absorbs.alone source (same.symm ▸ targetMem)
        rw [same] at equal
        exact (noLoop (equal ▸ step)).elim
      · refine Or.inr ⟨step, ?_⟩
        rw [absorbs.off_path source sourceMem,
          absorbs.off_path target targetMem, same]
  · obtain ⟨-, from', to', step, rfl, isFirst⟩ := contract
    have toEq := absorbs.alone to' (isFirst.symm ▸ path.first_mem)
    rw [isFirst] at toEq
    subst toEq
    have fromOff : from' ∉ members :=
      fun member => path.not_edge_first acyclic member step
    exact
      Or.inl ⟨absorbs.source_fresh from' _ step, from', _, step,
        absorbs.off_path from' fromOff, absorbs.on_path _ path.first_mem⟩
  · obtain ⟨step, same⟩ := within
    rw [absorbs.self first path.first_mem] at same
    have equal := absorbs.alone source (same.symm ▸ path.first_mem)
    rw [same] at equal
    exact (noLoop (equal ▸ step)).elim
  · obtain ⟨-, from', to', step, isLast, rfl⟩ := contract
    have fromEq := absorbs.alone from' (isLast.symm ▸ path.last_mem)
    rw [isLast] at fromEq
    subst fromEq
    have toOff : to' ∉ members :=
      fun member => path.not_edge_last acyclic member step
    exact
      Or.inl ⟨(absorbs.target_fresh _ to' step).symm, _, to', step,
        absorbs.on_path _ path.last_mem, absorbs.off_path to' toOff⟩
  · obtain ⟨step, same⟩ := within
    rw [absorbs.self last path.last_mem] at same
    have equal := absorbs.alone target (same ▸ path.last_mem)
    rw [← same] at equal
    exact (noLoop (equal ▸ step)).elim

private theorem moved_of_regroup {source target : Vertex}
    (regroup : Regroup edge rep' source target) :
    (Regroup edge rep source target ∧ target ≠ first ∧ source ≠ last) ∨
      (Regroup edge rep source first ∧ target = batch) ∨
        (source = batch ∧ Regroup edge rep last target) := by
  have memOf : ∀ {vertex member}, rep vertex = member →
      member ∈ members → vertex ∈ members := by
    rintro vertex _ rfl member
    rw [absorbs.alone vertex member]
    exact member
  rcases regroup with ⟨apart, from', to', step, rfl, rfl⟩ | ⟨step, same⟩
  · by_cases fromMem : from' ∈ members
    · rw [absorbs.on_path from' fromMem] at apart ⊢
      have toOff : to' ∉ members :=
        fun toMem => apart (absorbs.on_path to' toMem).symm
      have isLast : from' = last := by
        by_contra notLast
        exact toOff (path.next_mem fromMem notLast step)
      subst isLast
      rw [absorbs.off_path to' toOff]
      refine Or.inr (Or.inr ⟨rfl, Or.inl ⟨?_, from', to', step, ?_, rfl⟩⟩)
      · exact fun equal => toOff (memOf equal.symm fromMem)
      · exact absorbs.self from' fromMem
    · by_cases toMem : to' ∈ members
      · have isFirst : to' = first := by
          by_contra notFirst
          exact fromMem (path.prev_mem toMem notFirst step)
        subst isFirst
        rw [absorbs.on_path to' toMem, absorbs.off_path from' fromMem]
        refine Or.inr (Or.inl ⟨Or.inl ⟨?_, from', to', step, rfl, ?_⟩, rfl⟩)
        · exact fun equal => fromMem (memOf equal toMem)
        · exact absorbs.self to' toMem
      · rw [absorbs.off_path from' fromMem, absorbs.off_path to' toMem]
          at apart ⊢
        refine
          Or.inl ⟨Or.inl ⟨apart, from', to', step, rfl, rfl⟩, ?_, ?_⟩
        · exact fun isFirst => toMem (memOf isFirst path.first_mem)
        · exact fun isLast => fromMem (memOf isLast path.last_mem)
  · by_cases sourceMem : source ∈ members
    · rw [absorbs.on_path source sourceMem] at same
      have targetMem : target ∈ members := by
        by_contra targetOff
        rw [absorbs.off_path target targetOff] at same
        exact absorbs.target_fresh source target step same.symm
      refine
        Or.inl ⟨Or.inl ⟨?_, source, target, step,
          absorbs.self source sourceMem, absorbs.self target targetMem⟩,
          ?_, ?_⟩
      · exact fun equal => acyclic source (TransGen.single (equal ▸ step))
      · rintro rfl
        exact path.not_edge_first acyclic sourceMem step
      · rintro rfl
        exact path.not_edge_last acyclic targetMem step
    · rw [absorbs.off_path source sourceMem] at same
      have targetOff : target ∉ members := by
        intro targetMem
        rw [absorbs.on_path target targetMem] at same
        exact absorbs.source_fresh source target step same
      rw [absorbs.off_path target targetOff] at same
      refine Or.inl ⟨Or.inr ⟨step, same⟩, ?_, ?_⟩
      · exact fun isFirst => targetOff (isFirst ▸ path.first_mem)
      · exact fun isLast => sourceMem (isLast ▸ path.last_mem)

/-- Contracting a straight path moves the edges at its ends. -/
theorem regroup_iff (source target : Vertex) :
    Regroup edge rep' source target ↔
      (Regroup edge rep source target ∧ target ≠ first ∧ source ≠ last) ∨
        (Regroup edge rep source first ∧ target = batch) ∨
          (source = batch ∧ Regroup edge rep last target) :=
  ⟨path.moved_of_regroup acyclic absorbs, path.regroup_of_moved acyclic absorbs⟩

end Contraction

/-! ## Absorption -/

section Absorption

variable [DecidableEq Vertex] {rep rep' : Vertex → Vertex}
  {rest : List Vertex}

/--
The edges of a contraction in which the first member of a straight path has
absorbed the others: those of the members are gone, and those out of the last
one leave the first.
-/
theorem contract_absorb_iff
    (path : StraightPath edge first last (first :: rest))
    (acyclic : Digraph.Acyclic edge) (fresh : first ∉ rest)
    (alone : ∀ vertex, rep vertex ∈ first :: rest → rep vertex = vertex)
    (self : ∀ vertex ∈ first :: rest, rep vertex = vertex)
    (moved : ∀ vertex, rep' vertex = if vertex ∈ rest then first else rep vertex)
    (source target : Vertex) :
    Digraph.Contract edge rep' source target ↔
      source ∉ rest ∧ target ∉ rest ∧
        (Digraph.Contract edge rep source target ∨
          (source = first ∧ Digraph.Contract edge rep last target)) := by
  have image : ∀ vertex, rep' vertex ∉ rest := by
    intro vertex
    rw [moved]
    split
    · exact fresh
    · rename_i outside
      intro inside
      rw [alone vertex (List.mem_cons_of_mem first inside)] at inside
      exact outside inside
  have keeps : ∀ vertex, rep vertex ∉ rest → rep' vertex = rep vertex := by
    intro vertex outside
    rw [moved, if_neg]
    intro inside
    rw [self vertex (List.mem_cons_of_mem first inside)] at outside
    exact outside inside
  constructor
  · rintro ⟨apart, upper, lower, step, rfl, rfl⟩
    refine ⟨image upper, image lower, ?_⟩
    by_cases upperIn : upper ∈ rest
    · -- The edge leaves an absorbed member, which must be the last one.
      have lowerOut : lower ∉ rest := by
        intro lowerIn
        apply apart
        rw [moved, moved, if_pos upperIn, if_pos lowerIn]
      have upperLast : upper = last := by
        by_contra inner
        have member :=
          path.next_mem (List.mem_cons_of_mem first upperIn) inner step
        rcases List.mem_cons.mp member with isFirst | inside
        · exact
            path.not_edge_first acyclic
              (List.mem_cons_of_mem first upperIn) (isFirst ▸ step)
        · exact lowerOut inside
      right
      have upperEq : rep' upper = first := by
        rw [moved, if_pos upperIn]
      have lowerEq : rep' lower = rep lower := by
        rw [moved, if_neg lowerOut]
      have upperSelf := self upper (List.mem_cons_of_mem first upperIn)
      refine ⟨upperEq, ?_, upper, lower, step, ?_, lowerEq.symm⟩
      · rintro same
        rw [lowerEq] at same
        have lowerMem : rep lower ∈ first :: rest := same ▸ path.last_mem
        have lowerSelf := alone lower lowerMem
        rw [lowerSelf, ← upperLast] at same
        exact lowerOut (same ▸ upperIn)
      · rw [upperSelf, upperLast]
    · by_cases lowerIn : lower ∈ rest
      · -- The edge enters an absorbed member, so it comes from the path.
        exfalso
        have notFirst : lower ≠ first := fun same => fresh (same ▸ lowerIn)
        have member :=
          path.prev_mem (List.mem_cons_of_mem first lowerIn) notFirst step
        rcases List.mem_cons.mp member with isFirst | inside
        · apply apart
          rw [moved, moved, if_neg upperIn, if_pos lowerIn, isFirst,
            self first (by simp)]
        · exact upperIn inside
      · left
        rw [moved, moved, if_neg upperIn, if_neg lowerIn] at *
        exact ⟨apart, upper, lower, step, rfl, rfl⟩
  · rintro ⟨sourceOut, targetOut, joined | ⟨rfl, joined⟩⟩
    · obtain ⟨apart, upper, lower, step, rfl, rfl⟩ := joined
      exact
        ⟨apart, upper, lower, step, keeps upper sourceOut,
          keeps lower targetOut⟩
    · obtain ⟨-, upper, lower, step, upperEq, rfl⟩ := joined
      have upperSelf := alone upper (upperEq ▸ path.last_mem)
      rw [upperSelf] at upperEq
      subst upperEq
      refine ⟨?_, upper, lower, step, ?_, keeps lower targetOut⟩
      · intro same
        have lowerSelf := alone lower (same ▸ List.mem_cons_self)
        rw [lowerSelf] at same
        exact path.not_edge_first acyclic path.last_mem (same ▸ step)
      · rw [moved]
        split
        · rfl
        · rename_i outside
          rcases List.mem_cons.mp path.last_mem with isFirst | inside
          · rw [upperSelf, isFirst]
          · exact (outside inside).elim

end Absorption

end StraightPath

end Cgir.Library
