import Cgir.Library.StraightPath
import Mathlib.Data.List.Chain

/-!
# Following a partial function

The vertices met from a vertex on when each has at most one next vertex.  On an
acyclic function the walk ends within a bound; it lists exactly the vertices
that are reached, and its end is the only one without a next vertex.
-/

namespace Cgir.Library

open Relation

variable {Vertex Image : Type}

/-- The vertices from a vertex on, until one has no next vertex. -/
def follow (next : Vertex → Option Vertex) :
    Nat → Vertex → Option (List Vertex)
  | 0, _ => none
  | fuel + 1, vertex =>
      match next vertex with
      | none => some [vertex]
      | some after => (follow next fuel after).map (vertex :: ·)

/-- One step of a partial function. -/
def Steps (next : Vertex → Option Vertex) (source target : Vertex) : Prop :=
  next source = some target

section Walk

variable {next : Vertex → Option Vertex}

/-- A vertex has one next vertex, so what it reaches is reached through it. -/
theorem steps_reach_of_step {vertex after last : Vertex}
    (step : Steps next vertex after)
    (path : ReflTransGen (Steps next) vertex last) :
    last = vertex ∨ ReflTransGen (Steps next) after last := by
  rcases ReflTransGen.cases_head path with same | ⟨other, otherStep, rest⟩
  · exact Or.inl same.symm
  · have same : other = after :=
      Option.some.inj (otherStep.symm.trans step)
    exact Or.inr (same ▸ rest)

/-- A walk has one end. -/
theorem steps_end_unique {vertex left right : Vertex}
    (toLeft : ReflTransGen (Steps next) vertex left)
    (toRight : ReflTransGen (Steps next) vertex right)
    (leftEnd : next left = none) (rightEnd : next right = none) :
    left = right := by
  induction toLeft using ReflTransGen.head_induction_on with
  | refl =>
      rcases ReflTransGen.cases_head toRight with same | ⟨after, step, _⟩
      · exact same
      · rw [Steps, leftEnd] at step
        cases step
  | head step _ induction =>
      rcases steps_reach_of_step step toRight with same | rest
      · rw [same] at rightEnd
        rw [Steps, rightEnd] at step
        cases step
      · exact induction rest

/-! ## The runs of a walk -/

theorem follow_stop {vertex : Vertex} (stop : next vertex = none)
    (fuel : Nat) : follow next (fuel + 1) vertex = some [vertex] := by
  rw [follow, stop]

theorem follow_step {fuel : Nat} {vertex after : Vertex} {rest : List Vertex}
    (step : next vertex = some after)
    (ran : follow next fuel after = some rest) :
    follow next (fuel + 1) vertex = some (vertex :: rest) := by
  rw [follow, step]
  simp [ran]

/-- A walk that ends stops at its vertex, or steps and ends from there. -/
@[elab_as_elim]
theorem follow_induction
    {motive : ∀ fuel vertex met, follow next fuel vertex = some met → Prop}
    (stop : ∀ fuel vertex (stop : next vertex = none),
      motive (fuel + 1) vertex [vertex] (follow_stop stop fuel))
    (step : ∀ fuel vertex after rest (step : next vertex = some after)
      (ran : follow next fuel after = some rest), motive fuel after rest ran →
        motive (fuel + 1) vertex (vertex :: rest) (follow_step step ran)) :
    ∀ {fuel vertex met} (ran : follow next fuel vertex = some met),
      motive fuel vertex met ran := by
  intro fuel
  induction fuel with
  | zero =>
      intro vertex met ran
      cases ran
  | succ fuel induction =>
      intro vertex met ran
      have cases := ran
      rw [follow] at cases
      cases taken : next vertex with
      | none =>
          rw [taken] at cases
          obtain rfl := Option.some.inj cases
          exact stop fuel vertex taken
      | some after =>
          rw [taken] at cases
          obtain ⟨rest, restRan, rfl⟩ := Option.map_eq_some_iff.mp cases
          exact step fuel vertex after rest taken restRan (induction restRan)

/-- A walk along a decreasing rank ends within the rank. -/
theorem follow_returns (inside : Vertex → Prop) (rank : Vertex → Nat)
    (closed : ∀ source target, inside source → Steps next source target →
      inside target ∧ rank target < rank source) (fuel : Nat) :
    ∀ vertex, inside vertex → rank vertex < fuel →
      ∃ met, follow next fuel vertex = some met := by
  induction fuel with
  | zero =>
      intro vertex _ bound
      exact (Nat.not_lt_zero _ bound).elim
  | succ fuel induction =>
      intro vertex member bound
      cases step : next vertex with
      | none => exact ⟨[vertex], follow_stop step fuel⟩
      | some after =>
          obtain ⟨afterMember, lower⟩ := closed vertex after member step
          obtain ⟨met, ran⟩ := induction after afterMember (by omega)
          exact ⟨vertex :: met, follow_step step ran⟩

/-- Functions that correspond on the vertices met have corresponding walks. -/
theorem follow_map {next' : Image → Option Image} (image : Vertex → Image)
    (fuel : Nat) :
    ∀ {vertex met}, follow next fuel vertex = some met →
      (∀ member ∈ met, next' (image member) = (next member).map image) →
        follow next' fuel (image vertex) = some (met.map image) := by
  intro vertex met ran same
  induction ran using follow_induction with
  | stop fuel vertex stop =>
      apply follow_stop
      rw [same vertex (by simp), stop]
      rfl
  | step fuel vertex after rest step _ induction =>
      have stepImage : next' (image vertex) = some (image after) := by
        rw [same vertex (by simp), step]
        rfl
      exact
        follow_step stepImage
          (induction fun member listed => same member (by simp [listed]))

/-- Any bound on the length of a walk is enough to make it. -/
theorem follow_of_length_le (fuel : Nat) :
    ∀ {vertex met}, follow next fuel vertex = some met →
      ∀ {bound}, met.length ≤ bound → follow next bound vertex = some met := by
  intro vertex met ran
  induction ran using follow_induction with
  | stop fuel vertex stop =>
      intro bound enough
      obtain ⟨bound, rfl⟩ := Nat.exists_eq_succ_of_ne_zero
        (Nat.ne_of_gt enough)
      exact follow_stop stop bound
  | step fuel vertex after rest step _ induction =>
      intro bound enough
      obtain ⟨bound, rfl⟩ := Nat.exists_eq_succ_of_ne_zero
        (Nat.ne_of_gt (Nat.lt_of_lt_of_le (Nat.succ_pos _) enough))
      exact follow_step step (induction (Nat.le_of_succ_le_succ enough))

/-- A walk starts at its vertex. -/
theorem follow_head? {fuel : Nat} {vertex : Vertex} {met : List Vertex}
    (ran : follow next fuel vertex = some met) :
    ∃ rest, met = vertex :: rest := by
  induction ran using follow_induction with
  | stop => exact ⟨[], rfl⟩
  | step _ _ _ rest => exact ⟨rest, rfl⟩

/-- A walk meets what its vertex reaches, and nothing else. -/
theorem mem_follow_iff (fuel : Nat) :
    ∀ {vertex met}, follow next fuel vertex = some met →
      ∀ member, member ∈ met ↔
        ReflTransGen (Steps next) vertex member := by
  intro vertex met ran member
  induction ran using follow_induction with
  | stop fuel vertex stop =>
      rw [List.mem_singleton]
      constructor
      · rintro rfl
        exact ReflTransGen.refl
      · intro path
        rcases ReflTransGen.cases_head path with same | ⟨after, taken, _⟩
        · exact same.symm
        · rw [Steps, stop] at taken
          cases taken
  | step fuel vertex after rest step _ induction =>
      rw [List.mem_cons, induction]
      constructor
      · rintro (rfl | path)
        · exact ReflTransGen.refl
        · exact ReflTransGen.head step path
      · exact steps_reach_of_step step

/-- A walk ends at a vertex without a next one. -/
theorem follow_ends (fuel : Nat) :
    ∀ {vertex met}, follow next fuel vertex = some met →
      ∃ last, met.getLast? = some last ∧ next last = none := by
  intro vertex met ran
  induction ran using follow_induction with
  | stop fuel vertex stop => exact ⟨vertex, rfl, stop⟩
  | step fuel vertex after rest _ _ induction =>
      obtain ⟨last, isLast, ends⟩ := induction
      exact ⟨last, by rw [List.getLast?_cons, isLast]; rfl, ends⟩

/-- Neighbours of a walk are steps. -/
theorem follow_isChain (fuel : Nat) :
    ∀ {vertex met}, follow next fuel vertex = some met →
      List.IsChain (Steps next) met := by
  intro vertex met ran
  induction ran using follow_induction with
  | stop fuel vertex _ => exact List.isChain_singleton vertex
  | step fuel vertex after rest step ran induction =>
      obtain ⟨rest, rfl⟩ := follow_head? ran
      exact List.isChain_cons_cons.mpr ⟨step, induction⟩

/-- The walk is the only chain of steps that ends without a next vertex. -/
theorem follow_unique (fuel : Nat) :
    ∀ {vertex met rest}, follow next fuel vertex = some met →
      List.IsChain (Steps next) (vertex :: rest) →
        (∀ last, (vertex :: rest).getLast? = some last → next last = none) →
          met = vertex :: rest := by
  intro vertex met rest ran
  induction ran using follow_induction generalizing rest with
  | stop fuel vertex stop =>
      intro steps _
      cases rest with
      | nil => rfl
      | cons after rest =>
          obtain ⟨step, -⟩ := List.isChain_cons_cons.mp steps
          rw [Steps, stop] at step
          cases step
  | step fuel vertex after met step _ induction =>
      intro steps ends
      cases rest with
      | nil =>
          rw [ends vertex rfl] at step
          cases step
      | cons other rest =>
          obtain ⟨step', steps⟩ := List.isChain_cons_cons.mp steps
          obtain rfl := Option.some.inj (step.symm.trans step')
          rw [induction steps fun last isLast =>
            ends last (by rw [List.getLast?_cons, isLast]; rfl)]

/-- A walk along sole edges is a straight path. -/
theorem follow_straight {edge : Vertex → Vertex → Prop} (fuel : Nat) :
    ∀ {vertex met}, follow next fuel vertex = some met →
      (∀ source ∈ met, ∀ target, Steps next source target →
        Sole edge source target) →
          ∃ last, StraightPath edge vertex last met := by
  intro vertex met ran sole
  induction ran using follow_induction with
  | stop fuel vertex _ => exact ⟨vertex, StraightPath.start⟩
  | step fuel vertex after rest step _ induction =>
      obtain ⟨last, path⟩ :=
        induction fun source listed =>
          sole source (List.mem_cons_of_mem vertex listed)
      exact ⟨last, path.cons (sole vertex (by simp) after step)⟩

end Walk

end Cgir.Library
