import Mathlib.Data.Setoid.Basic
import Mathlib.Order.ConditionallyCompleteLattice.Basic

/-!
# Folding false twins of a coloured digraph

A scene is a digraph some of whose vertices are candidates for grouping and
each of which has a colour.  Grouping starts from the regions of
equally coloured candidates joined by edges, and then folds false twins: two
groups of one colour with the same predecessor groups and the same successor
groups become one group.

Folding one pair of twins neither destroys nor separates another pair
(`Twins.persist`), so the order of the folds does not matter: every sequence
of folds can be completed to any settled result (`Folds.le_settled`), and the
final grouping is a property of the scene alone (`island_iff`).
-/

namespace Cgir.Library.TwinFold

open Relation

variable {Vertex Color : Type}

/-- A digraph with candidate vertices and colours. -/
structure Scene (Vertex Color : Type) where
  edge : Vertex → Vertex → Prop
  candidate : Vertex → Prop
  color : Vertex → Color

/-- Reverse every edge. -/
def Scene.reverse (scene : Scene Vertex Color) : Scene Vertex Color :=
  { scene with edge := fun source target => scene.edge target source }

/-! ## Joining two groups -/

/-- The partition that only identifies two vertices. -/
def pair (left right : Vertex) : Setoid Vertex :=
  EqvGen.setoid fun first second => first = left ∧ second = right

/-- Joining two groups identifies their members and nothing else. -/
theorem sup_pair_iff (groups : Setoid Vertex)
    (left right first second : Vertex) :
    (groups ⊔ pair left right) first second ↔
      groups first second ∨
        (groups first left ∧ groups right second) ∨
          (groups first right ∧ groups left second) := by
  let joined : Setoid Vertex := {
    r := fun first second =>
      groups first second ∨
        (groups first left ∧ groups right second) ∨
          (groups first right ∧ groups left second)
    iseqv := by
      constructor
      · intro vertex
        exact Or.inl (groups.refl vertex)
      · intro first second related
        rcases related with same | ⟨toLeft, fromRight⟩ | ⟨toRight, fromLeft⟩
        · exact Or.inl (groups.symm same)
        · exact
            Or.inr (Or.inr
              ⟨groups.symm fromRight, groups.symm toLeft⟩)
        · exact
            Or.inr (Or.inl
              ⟨groups.symm fromLeft, groups.symm toRight⟩)
      · intro first second third firstRelated secondRelated
        rcases firstRelated with
          same | ⟨toLeft, fromRight⟩ | ⟨toRight, fromLeft⟩ <;>
        rcases secondRelated with
          same' | ⟨toLeft', fromRight'⟩ | ⟨toRight', fromLeft'⟩
        · exact Or.inl (groups.trans same same')
        · exact Or.inr (Or.inl ⟨groups.trans same toLeft', fromRight'⟩)
        · exact Or.inr (Or.inr ⟨groups.trans same toRight', fromLeft'⟩)
        · exact Or.inr (Or.inl ⟨toLeft, groups.trans fromRight same'⟩)
        · exact Or.inr (Or.inl ⟨toLeft, fromRight'⟩)
        · exact Or.inl (groups.trans toLeft fromLeft')
        · exact Or.inr (Or.inr ⟨toRight, groups.trans fromLeft same'⟩)
        · exact Or.inl (groups.trans toRight fromRight')
        · exact Or.inr (Or.inr ⟨toRight, fromLeft'⟩) }
  constructor
  · intro related
    have below : groups ⊔ pair left right ≤ joined := by
      refine sup_le (fun _ _ same => Or.inl same) ?_
      refine Setoid.eqvGen_le ?_
      rintro _ _ ⟨rfl, rfl⟩
      exact Or.inr (Or.inl ⟨groups.refl _, groups.refl _⟩)
    exact below related
  · have lower : groups ≤ groups ⊔ pair left right := le_sup_left
    have joint : (groups ⊔ pair left right) left right :=
      (le_sup_right : pair left right ≤ groups ⊔ pair left right)
        (EqvGen.rel _ _ ⟨rfl, rfl⟩)
    intro related
    rcases related with same | ⟨toLeft, fromRight⟩ | ⟨toRight, fromLeft⟩
    · exact lower same
    · exact
        Setoid.trans' _ (lower toLeft)
          (Setoid.trans' _ joint (lower fromRight))
    · exact
        Setoid.trans' _ (lower toRight)
          (Setoid.trans' _ (Setoid.symm' _ joint) (lower fromLeft))

theorem sup_pair_of_related {groups : Setoid Vertex}
    {left right : Vertex} (related : groups left right) :
    groups ⊔ pair left right = groups := by
  refine sup_eq_left.mpr (Setoid.eqvGen_le ?_)
  rintro _ _ ⟨rfl, rfl⟩
  exact related

/-! ## Neighbouring groups and twins -/

namespace Scene

variable (scene : Scene Vertex Color)

/-- The group of `target` is a successor of the group of `source`. -/
def After (groups : Setoid Vertex) (source target : Vertex) : Prop :=
  ¬ groups source target ∧
    ∃ source' target', groups source source' ∧
      groups target target' ∧ scene.edge source' target'

/--
Two groups of one colour whose successor groups and predecessor groups are
the same.
-/
structure Twins (groups : Setoid Vertex) (left right : Vertex) : Prop where
  left_candidate : scene.candidate left
  right_candidate : scene.candidate right
  color_eq : scene.color left = scene.color right
  successors :
    ∀ other, scene.After groups left other ↔ scene.After groups right other
  predecessors :
    ∀ other, scene.reverse.After groups left other ↔
      scene.reverse.After groups right other

/-- The regions of equally coloured candidates joined by edges. -/
def regions : Setoid Vertex :=
  EqvGen.setoid fun first second =>
    scene.candidate first ∧ scene.candidate second ∧
      scene.color first = scene.color second ∧ scene.edge first second

/-- Groupings obtained by folding twins, one pair at a time. -/
inductive Folds : Setoid Vertex → Setoid Vertex → Prop where
  | refl (groups) :
      Folds groups groups
  | fold
      (twins : scene.Twins groups left right)
      (rest : Folds (groups ⊔ pair left right) result) :
      Folds groups result

/-- No two different groups are twins. -/
def Settled (groups : Setoid Vertex) : Prop :=
  ∀ left right, scene.Twins groups left right → groups left right

/--
Two vertices are on one island when some sequence of folds puts them in one
group.
-/
def Island (first second : Vertex) : Prop :=
  ∃ groups, scene.Folds scene.regions groups ∧ groups first second

section Confluence

variable {scene} {groups : Setoid Vertex}
  {left right : Vertex}

theorem After.congr_left {source source' target : Vertex}
    (same : groups source source') :
    scene.After groups source target ↔
      scene.After groups source' target := by
  have oneWay :
      ∀ {source source'}, groups source source' →
        scene.After groups source target →
          scene.After groups source' target := by
    rintro source source' same ⟨apart, from', to', near, near', edge⟩
    exact
      ⟨fun related => apart (groups.trans same related), from', to',
        groups.trans (groups.symm same) near, near', edge⟩
  exact ⟨oneWay same, oneWay (groups.symm same)⟩

theorem After.congr_right {source target target' : Vertex}
    (same : groups target target') :
    scene.After groups source target ↔
      scene.After groups source target' := by
  have oneWay :
      ∀ {target target'}, groups target target' →
        scene.After groups source target →
          scene.After groups source target' := by
    rintro target target' same ⟨apart, from', to', near, near', edge⟩
    exact
      ⟨fun related => apart (groups.trans related (groups.symm same)),
        from', to', near, groups.trans (groups.symm same) near', edge⟩
  exact ⟨oneWay same, oneWay (groups.symm same)⟩

/--
After joining two groups with the same successor groups, the successors of a
group are the images of its old successors, and no old successor is absorbed.
-/
theorem after_sup_iff
    (successors :
      ∀ other, scene.After groups left other ↔
        scene.After groups right other)
    (source target : Vertex) :
    scene.After (groups ⊔ pair left right) source target ↔
      ∃ target', (groups ⊔ pair left right) target target' ∧
        scene.After groups source target' := by
  -- Twins are not adjacent: a group is never its own successor.
  have notLeftRight : ¬ scene.After groups left right :=
    fun after => ((successors right).mp after).1 (groups.refl right)
  have notRightLeft : ¬ scene.After groups right left :=
    fun after => ((successors left).mpr after).1 (groups.refl left)
  constructor
  · rintro ⟨apart, source', target', near, near', edge⟩
    have apart' : ¬ groups source' target' := by
      intro same
      refine apart (Setoid.trans' _ near ?_)
      exact
        Setoid.trans' _
          ((le_sup_left : groups ≤ groups ⊔ pair left right) same)
          (Setoid.symm' _ near')
    have after : scene.After groups source' target' :=
      ⟨apart', source', target', groups.refl _, groups.refl _, edge⟩
    refine ⟨target', near', ?_⟩
    rcases (sup_pair_iff groups left right source source').mp near with
      same | ⟨toLeft, fromRight⟩ | ⟨toRight, fromLeft⟩
    · exact (After.congr_left same).mpr after
    · rw [After.congr_left toLeft, successors]
      exact (After.congr_left fromRight).mpr after
    · rw [After.congr_left toRight, ← successors]
      exact (After.congr_left fromLeft).mpr after
  · rintro ⟨target', near, after⟩
    refine ⟨fun joined => ?_, ?_⟩
    · have joined' : (groups ⊔ pair left right) source target' :=
        Setoid.trans' _ joined near
      rcases (sup_pair_iff groups left right source target').mp joined' with
        same | ⟨toLeft, fromRight⟩ | ⟨toRight, fromLeft⟩
      · exact after.1 same
      · refine notLeftRight ?_
        rw [← After.congr_left toLeft, After.congr_right fromRight]
        exact after
      · refine notRightLeft ?_
        rw [← After.congr_left toRight, After.congr_right fromLeft]
        exact after
    · obtain ⟨-, source', target'', nearSource, nearTarget, edge⟩ := after
      have lower : groups ≤ groups ⊔ pair left right := le_sup_left
      exact
        ⟨source', target'', lower nearSource,
          Setoid.trans' _ near (lower nearTarget), edge⟩

/-- Folding one pair of twins keeps every other pair of twins. -/
theorem Twins.persist
    (twins : scene.Twins groups left right)
    {first second : Vertex} (others : scene.Twins groups first second) :
    scene.Twins (groups ⊔ pair left right) first second where
  left_candidate := others.left_candidate
  right_candidate := others.right_candidate
  color_eq := others.color_eq
  successors := by
    intro other
    rw [after_sup_iff twins.successors, after_sup_iff twins.successors]
    simp only [others.successors]
  predecessors := by
    intro other
    rw [after_sup_iff twins.predecessors,
      after_sup_iff twins.predecessors]
    simp only [others.predecessors]

namespace Folds

variable {result : Setoid Vertex}

theorem persist (folds : scene.Folds groups result)
    (twins : scene.Twins groups left right) :
    scene.Twins result left right := by
  induction folds with
  | refl => exact twins
  | fold first _ induction => exact induction (first.persist twins)

theorem trans {final : Setoid Vertex}
    (first : scene.Folds groups result)
    (second : scene.Folds result final) :
    scene.Folds groups final := by
  induction first with
  | refl => exact second
  | fold twins _ induction => exact .fold twins (induction second)

/-- Twins of the first grouping can be folded after any sequence of folds. -/
theorem merge (folds : scene.Folds groups result)
    (twins : scene.Twins groups left right) :
    scene.Folds groups (result ⊔ pair left right) :=
  folds.trans (.fold (folds.persist twins) (.refl _))

theorem le (folds : scene.Folds groups result) : groups ≤ result := by
  induction folds with
  | refl => exact le_rfl
  | fold _ _ induction => exact le_sup_left.trans induction

/-- Folding a pair of twins first does not change what can be reached. -/
theorem commute (folds : scene.Folds groups result)
    (twins : scene.Twins groups left right) :
    scene.Folds (groups ⊔ pair left right)
      (result ⊔ pair left right) := by
  induction folds with
  | refl => exact .refl _
  | fold first _ induction =>
      refine .fold (twins.persist first) ?_
      rw [sup_right_comm]
      exact induction (first.persist twins)

/-- Every sequence of folds continues to any settled grouping. -/
theorem to_settled {middle : Setoid Vertex}
    (folds : scene.Folds groups middle)
    (complete : scene.Folds groups result)
    (settled : scene.Settled result) :
    scene.Folds middle result := by
  induction folds with
  | refl => exact complete
  | @fold groups left right _ twins _ induction =>
      refine induction ?_
      have continued := complete.commute twins
      rwa [sup_pair_of_related
        (settled left right (complete.persist twins))] at continued

end Folds

/-- The islands of a scene are the groups of any settled sequence of folds. -/
theorem island_iff {result : Setoid Vertex}
    (complete : scene.Folds scene.regions result)
    (settled : scene.Settled result) (first second : Vertex) :
    scene.Island first second ↔ result first second := by
  constructor
  · rintro ⟨groups, folds, related⟩
    exact (folds.to_settled complete settled).le related
  · intro related
    exact ⟨result, complete, related⟩

/-- Different vertices of one group are candidates of one colour. -/
theorem Folds.uniform {result : Setoid Vertex}
    (folds : scene.Folds scene.regions result)
    {first second : Vertex} (related : result first second) :
    first = second ∨
      (scene.candidate first ∧ scene.candidate second ∧
        scene.color first = scene.color second) := by
  have uniformSetoid :
      ∃ uniform : Setoid Vertex, ∀ first second,
        uniform first second ↔
          first = second ∨
            (scene.candidate first ∧ scene.candidate second ∧
              scene.color first = scene.color second) := by
    refine ⟨⟨_, ⟨fun _ => Or.inl rfl, ?_, ?_⟩⟩, fun _ _ => Iff.rfl⟩
    · rintro first second (rfl | ⟨left, right, same⟩)
      · exact Or.inl rfl
      · exact Or.inr ⟨right, left, same.symm⟩
    · rintro first second third (rfl | ⟨left, middle, same⟩) rest
      · exact rest
      · rcases rest with rfl | ⟨-, right, same'⟩
        · exact Or.inr ⟨left, middle, same⟩
        · exact Or.inr ⟨left, right, same.trans same'⟩
  obtain ⟨uniform, uniformIff⟩ := uniformSetoid
  have bounded :
      ∀ {groups groups' : Setoid Vertex}, groups ≤ uniform →
        scene.Folds groups groups' → groups' ≤ uniform := by
    intro groups groups' below folds
    induction folds with
    | refl => exact below
    | fold twins _ induction =>
        refine induction (sup_le below (Setoid.eqvGen_le ?_))
        rintro _ _ ⟨rfl, rfl⟩
        exact
          (uniformIff _ _).mpr
            (Or.inr ⟨twins.left_candidate, twins.right_candidate,
              twins.color_eq⟩)
  have regionsBelow : scene.regions ≤ uniform := by
    refine Setoid.eqvGen_le ?_
    rintro first second ⟨left, right, same, -⟩
    exact (uniformIff _ _).mpr (Or.inr ⟨left, right, same⟩)
  exact (uniformIff _ _).mp (bounded regionsBelow folds related)

end Confluence

end Scene

end Cgir.Library.TwinFold
