import Mathlib.Data.List.Chain
import Mathlib.Logic.Relation
import Mathlib.Logic.Relator

/-!
# Strands

When every vertex has at most one next and one previous vertex, a connected
component of the links is a list.  A list along links that cannot be extended
at either end is such a component, and a component has one order.
-/

namespace Cgir.Library

open Relation

variable {Vertex : Type}

/-- A connected component, listed along its links. -/
structure Strand (link : Vertex → Vertex → Prop) (run : List Vertex) :
    Prop where
  nonempty : run ≠ []
  inOrder : List.IsChain link run
  whole : ∀ u ∈ run, ∀ v, v ∈ run ↔ EqvGen link u v

namespace Strand

variable {link : Vertex → Vertex → Prop} {run : List Vertex}

/-- A member that is linked to something stays in the list or ends it. -/
theorem next_mem_or_last (nextUnique : Relator.RightUnique link)
    (inOrder : List.IsChain link run) {u v : Vertex} (member : u ∈ run)
    (step : link u v) : v ∈ run ∨ run.getLast? = some u := by
  induction run with
  | nil => cases member
  | cons first rest induction =>
      cases rest with
      | nil =>
          rw [List.mem_singleton] at member
          exact .inr (by rw [member]; rfl)
      | cons second rest =>
          obtain ⟨firstStep, inOrder⟩ := List.isChain_cons_cons.mp inOrder
          rcases List.mem_cons.mp member with rfl | later
          · rw [nextUnique step firstStep]
            exact .inl (by simp)
          · rcases induction inOrder later with inside | isLast
            · exact .inl (List.mem_cons_of_mem first inside)
            · exact .inr (by rw [List.getLast?_cons, isLast]; rfl)

/-- A member that something is linked to begins the list or follows a member. -/
theorem prev_mem_or_first (prevUnique : Relator.LeftUnique link)
    (inOrder : List.IsChain link run) {u v : Vertex} (member : v ∈ run)
    (step : link u v) : u ∈ run ∨ run.head? = some v := by
  induction run with
  | nil => cases member
  | cons first rest induction =>
      rcases List.mem_cons.mp member with rfl | later
      · exact .inr rfl
      · cases rest with
        | nil => cases later
        | cons second rest =>
            obtain ⟨firstStep, inOrder⟩ := List.isChain_cons_cons.mp inOrder
            rcases induction inOrder later with inside | isFirst
            · exact .inl (List.mem_cons_of_mem first inside)
            · rw [List.head?_cons, Option.some.injEq] at isFirst
              subst isFirst
              rw [prevUnique step firstStep]
              exact .inl List.mem_cons_self

/-- Members of a list along links are connected. -/
theorem connected_of_inOrder (inOrder : List.IsChain link run) :
    ∀ u ∈ run, ∀ v ∈ run, EqvGen link u v := by
  induction run with
  | nil =>
      intro u member
      cases member
  | cons first rest induction =>
      have toFirst : ∀ v ∈ first :: rest, EqvGen link first v := by
        intro v member
        rcases List.mem_cons.mp member with rfl | later
        · exact EqvGen.refl v
        · cases rest with
          | nil => cases later
          | cons second rest =>
              obtain ⟨step, inOrder⟩ := List.isChain_cons_cons.mp inOrder
              exact
                (EqvGen.rel first second step).trans _ _ _
                  (induction inOrder second List.mem_cons_self v later)
      intro u uMember v vMember
      exact
        ((toFirst u uMember).symm _ _).trans _ _ _ (toFirst v vMember)

/-- In a list of two or more, every member is linked to another one. -/
theorem exists_neighbour (inOrder : List.IsChain link run)
    (long : 2 ≤ run.length) {u : Vertex} (member : u ∈ run) :
    ∃ v, link u v ∨ link v u := by
  induction run with
  | nil => cases member
  | cons first rest induction =>
      cases rest with
      | nil =>
          rw [List.length_singleton] at long
          omega
      | cons second rest =>
          obtain ⟨step, inOrder⟩ := List.isChain_cons_cons.mp inOrder
          rcases List.mem_cons.mp member with rfl | later
          · exact ⟨second, .inl step⟩
          · cases rest with
            | nil =>
                rw [List.mem_singleton.mp later]
                exact ⟨first, .inr step⟩
            | cons third rest =>
                apply induction inOrder _ later
                simp

/-- A list along links that cannot be extended is a component. -/
theorem of_ends (nextUnique : Relator.RightUnique link)
    (prevUnique : Relator.LeftUnique link)
    (nonempty : run ≠ []) (inOrder : List.IsChain link run)
    (noPrev : ∀ first, run.head? = some first → ∀ p, ¬ link p first)
    (noNext : ∀ last, run.getLast? = some last → ∀ q, ¬ link last q) :
    Strand link run where
  nonempty := nonempty
  inOrder := inOrder
  whole := by
    have closed : ∀ {u v}, link u v → (u ∈ run ↔ v ∈ run) := by
      intro u v step
      constructor
      · intro member
        rcases next_mem_or_last nextUnique inOrder member step with
          inside | isLast
        · exact inside
        · exact (noNext u isLast v step).elim
      · intro member
        rcases prev_mem_or_first prevUnique inOrder member step with
          inside | isFirst
        · exact inside
        · exact (noPrev v isFirst u step).elim
    have sameSide : ∀ {u v}, EqvGen link u v → (u ∈ run ↔ v ∈ run) := by
      intro u v joined
      induction joined with
      | rel _ _ step => exact closed step
      | refl _ => exact Iff.rfl
      | symm _ _ _ induction => exact induction.symm
      | trans _ _ _ _ _ first second => exact first.trans second
    intro u member v
    constructor
    · exact connected_of_inOrder inOrder u member v
    · exact fun joined => (sameSide joined).mp member

section Ranked

variable (rank : Vertex → Nat)
  (rises : ∀ u v, link u v → rank u < rank v)

include rises

/-- Along a list of links the ranks rise. -/
theorem pairwise_rank (inOrder : List.IsChain link run) :
    run.Pairwise fun u v => rank u < rank v := by
  have trans : Trans (fun u v => rank u < rank v)
      (fun u v => rank u < rank v) (fun u v => rank u < rank v) :=
    ⟨Nat.lt_trans⟩
  exact (inOrder.imp rises).pairwise

/-- A component has one order. -/
theorem unique {other : List Vertex} (strand : Strand link run)
    (strand' : Strand link other) {u : Vertex} (member : u ∈ run)
    (member' : u ∈ other) : run = other := by
  have sorted := pairwise_rank rank rises strand.inOrder
  have sorted' := pairwise_rank rank rises strand'.inOrder
  have nodup : ∀ {list : List Vertex},
      list.Pairwise (fun u v => rank u < rank v) → list.Nodup := by
    intro list sorted
    apply sorted.imp
    rintro u v less rfl
    exact Nat.lt_irrefl _ less
  apply List.Perm.eq_of_pairwise _ sorted sorted'
  · rw [List.perm_ext_iff_of_nodup (nodup sorted) (nodup sorted')]
    intro v
    rw [strand.whole u member, strand'.whole u member']
  · intro v w _ _ less more
    exact (Nat.lt_asymm less more).elim

/-- Every vertex of a bounded rank is in a component. -/
theorem exists_strand (unique : Relator.BiUnique link) {bound : Nat}
    (bounded : ∀ u v, link u v → rank v < bound) (u : Vertex) :
    ∃ run, Strand link run ∧ u ∈ run := by
  -- backwards to a vertex without a previous one, then forwards
  have forwards : ∀ left : Nat, ∀ v, bound - rank v ≤ left →
      ∃ rest, List.IsChain link (v :: rest) ∧
        ∀ last, (v :: rest).getLast? = some last → ∀ q, ¬ link last q := by
    intro left
    induction left with
    | zero =>
        intro v small
        refine ⟨[], List.isChain_singleton v, ?_⟩
        intro last isLast q step
        obtain rfl := Option.some.inj isLast
        have below := bounded v q step
        have less := rises v q step
        omega
    | succ left induction =>
        intro v small
        by_cases extends' : ∃ q, link v q
        · obtain ⟨q, step⟩ := extends'
          have below := bounded v q step
          have less := rises v q step
          obtain ⟨rest, inOrder, ends⟩ := induction q (by omega)
          refine ⟨q :: rest, List.isChain_cons_cons.mpr ⟨step, inOrder⟩, ?_⟩
          intro last isLast
          apply ends
          rwa [List.getLast?_cons_cons] at isLast
        · refine ⟨[], List.isChain_singleton v, ?_⟩
          intro last isLast q step
          obtain rfl := Option.some.inj isLast
          exact extends' ⟨q, step⟩
  have backwards : ∀ limit : Nat, ∀ v, rank v ≤ limit →
      ∃ first, EqvGen link first v ∧ ∀ p, ¬ link p first := by
    intro limit
    induction limit with
    | zero =>
        intro v small
        refine ⟨v, EqvGen.refl v, ?_⟩
        intro p step
        have less := rises p v step
        omega
    | succ limit induction =>
        intro v small
        by_cases extends' : ∃ p, link p v
        · obtain ⟨p, step⟩ := extends'
          have less := rises p v step
          obtain ⟨first, joined, noPrev⟩ := induction p (by omega)
          exact
            ⟨first, joined.trans _ _ _ (EqvGen.rel p v step), noPrev⟩
        · exact ⟨v, EqvGen.refl v, fun p step => extends' ⟨p, step⟩⟩
  obtain ⟨first, joined, noPrev⟩ := backwards (rank u) u le_rfl
  obtain ⟨rest, inOrder, noNext⟩ := forwards (bound - rank first) first le_rfl
  have strand : Strand link (first :: rest) := by
    apply of_ends unique.2 unique.1 (List.cons_ne_nil first rest) inOrder _
      noNext
    intro other isFirst
    rw [List.head?_cons, Option.some.injEq] at isFirst
    exact isFirst ▸ noPrev
  exact
    ⟨first :: rest, strand,
      (strand.whole first List.mem_cons_self u).mpr joined⟩

end Ranked

end Strand

end Cgir.Library
