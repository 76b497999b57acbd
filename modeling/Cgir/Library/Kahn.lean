import Mathlib.Data.List.Nodup
import Mathlib.Logic.Function.Basic
import Cgir.Library.Digraph
import Cgir.Library.MarkSearch

/-!
# Topological orders by counting

Every vertex counts its predecessors that are not ordered yet.  Vertices whose
count is zero wait on a stack; a vertex that is taken from the stack is ordered,
and the counts of its successors go down.

On an acyclic graph the loop ends once it has ordered every vertex after its
predecessors (`drain_spec`).
-/

namespace Cgir.Library.Kahn

open Relation

variable {Vertex : Type} [DecidableEq Vertex]

/-! ## The loop -/

/-- The counts, the stack with its top at the end, and the order so far. -/
structure State (Vertex : Type) where
  degree : Vertex → Int
  stack : List Vertex
  order : List Vertex

/-- Decrease one count, and push the vertex when the count is zero. -/
def release (state : State Vertex) (vertex : Vertex) : State Vertex :=
  let count := state.degree vertex - 1
  { degree := Function.update state.degree vertex count
    stack := if count = 0 then state.stack ++ [vertex] else state.stack
    order := state.order }

/-- Take vertices from the stack until it is empty. -/
def drain (succ : Vertex → List Vertex) :
    Nat → State Vertex → Option (State Vertex)
  | 0, _ => none
  | fuel + 1, state =>
      match state.stack.getLast? with
      | none => some state
      | some vertex =>
          drain succ fuel
            ((succ vertex).foldl release
              { degree := state.degree
                stack := state.stack.dropLast
                order := state.order ++ [vertex] })

/-- Different vertices are released independently of each other. -/
theorem foldl_release (state : State Vertex) {list : List Vertex}
    (nodup : list.Nodup) :
    list.foldl release state =
      { degree := fun vertex =>
          if vertex ∈ list then state.degree vertex - 1
          else state.degree vertex
        stack :=
          state.stack ++ list.filter fun vertex => state.degree vertex = 1
        order := state.order } := by
  induction list generalizing state with
  | nil => simp
  | cons head rest induction =>
      obtain ⟨fresh, restNodup⟩ := List.nodup_cons.mp nodup
      have others : ∀ vertex ∈ rest,
          (release state head).degree vertex = state.degree vertex := by
        intro vertex member
        apply Function.update_of_ne
        rintro rfl
        exact fresh member
      rw [List.foldl_cons, induction _ restNodup]
      congr 1
      · funext vertex
        by_cases inRest : vertex ∈ rest
        · rw [if_pos inRest, others vertex inRest,
            if_pos (List.mem_cons_of_mem head inRest)]
        · rw [if_neg inRest]
          by_cases same : vertex = head
          · subst same
            rw [if_pos List.mem_cons_self]
            exact Function.update_self ..
          · rw [if_neg (by simp [same, inRest])]
            exact Function.update_of_ne same _ _
      · rw [List.filter_congr fun vertex member => by
          rw [others vertex member]]
        by_cases last : state.degree head = 1
        · simp [release, last]
        · have positive : state.degree head - 1 ≠ 0 := by omega
          simp [release, last, positive]

/-! ## The invariant -/

/-- The predecessors of a vertex that are not ordered yet. -/
def pending (succ : Vertex → List Vertex) (domain : Finset Vertex)
    (order : List Vertex) (vertex : Vertex) : Finset Vertex :=
  domain.filter fun pred => pred ∉ order ∧ vertex ∈ succ pred

/-- Every vertex is listed after its predecessors. -/
def Ordered (succ : Vertex → List Vertex) (domain : Finset Vertex)
    (order : List Vertex) : Prop :=
  ∀ earlier vertex later, order = earlier ++ vertex :: later →
    ∀ pred ∈ domain, vertex ∈ succ pred → pred ∈ earlier

/-- The counts are right, and vertices that count zero wait or are ordered. -/
structure Sorting (succ : Vertex → List Vertex) (domain : Finset Vertex)
    (state : State Vertex) : Prop where
  nodup : (state.order ++ state.stack).Nodup
  inside : ∀ vertex ∈ state.order ++ state.stack, vertex ∈ domain
  degree_eq : ∀ vertex ∈ domain,
    state.degree vertex = (pending succ domain state.order vertex).card
  zero_iff : ∀ vertex ∈ domain, state.degree vertex = 0 ↔
    vertex ∈ state.order ++ state.stack
  ordered : Ordered succ domain state.order

variable {succ : Vertex → List Vertex} {domain : Finset Vertex}

theorem mem_pending {order : List Vertex} {vertex pred : Vertex} :
    pred ∈ pending succ domain order vertex ↔
      pred ∈ domain ∧ pred ∉ order ∧ vertex ∈ succ pred := by
  rw [pending, Finset.mem_filter]

/-- Ordering a vertex leaves one predecessor less pending. -/
theorem pending_concat (order : List Vertex) (vertex next : Vertex) :
    pending succ domain (order ++ [vertex]) next =
      (pending succ domain order next).erase vertex := by
  ext pred
  rw [mem_pending, Finset.mem_erase, mem_pending, List.mem_append,
    List.mem_singleton, not_or]
  tauto

omit [DecidableEq Vertex] in
theorem Ordered.concat {order : List Vertex}
    (ordered : Ordered succ domain order) {vertex : Vertex}
    (known : ∀ pred ∈ domain, vertex ∈ succ pred → pred ∈ order) :
    Ordered succ domain (order ++ [vertex]) := by
  intro earlier other later split pred member step
  rcases List.eq_nil_or_concat later with rfl | ⟨more, last, rfl⟩
  · obtain ⟨rfl, same⟩ := List.append_inj' split rfl
    rw [List.cons.injEq] at same
    exact known pred member (same.1 ▸ step)
  · rw [List.concat_eq_append, ← List.cons_append, ← List.append_assoc]
      at split
    obtain ⟨rfl, -⟩ := List.append_inj' split rfl
    exact ordered earlier other more rfl pred member step

omit [DecidableEq Vertex] in
/-- Backwards, every vertex is listed after its successors. -/
theorem Ordered.postSorted {order : List Vertex}
    (ordered : Ordered succ domain order) (nodup : order.Nodup)
    (mem_order : ∀ vertex, vertex ∈ order ↔ vertex ∈ domain)
    (closed : ∀ vertex ∈ domain, ∀ next ∈ succ vertex, next ∈ domain) :
    MarkSearch.PostSorted succ (fun _ => False) order.reverse := by
  intro earlier vertex later split next step
  have forward : order = later.reverse ++ vertex :: earlier.reverse := by
    have back := congrArg List.reverse split
    simpa using back
  have member : vertex ∈ domain := by
    rw [← mem_order, forward]
    simp
  have split' := forward ▸ nodup
  have fresh : vertex ∉ later.reverse := by
    intro inside
    exact
      (List.nodup_append.mp split').2.2 vertex inside vertex
        List.mem_cons_self rfl
  have listed := (mem_order next).mpr (closed vertex member next step)
  rw [forward, List.mem_append, List.mem_cons, List.mem_reverse,
    List.mem_reverse, ← List.mem_reverse] at listed
  rcases listed with before | rfl | after
  · obtain ⟨first, rest, splitLater⟩ := List.append_of_mem before
    have order_eq :
        order = first ++ next :: (rest ++ vertex :: earlier.reverse) := by
      rw [forward, splitLater, List.append_assoc, List.cons_append]
    have earlierStill := ordered first next _ order_eq vertex member step
    exact
      (fresh (splitLater ▸ List.mem_append_left _ earlierStill)).elim
  · exact (fresh (ordered _ _ _ forward next member step)).elim
  · exact Or.inl after

section Step

variable (succNodup : ∀ vertex ∈ domain, (succ vertex).Nodup)
  (closed : ∀ vertex ∈ domain, ∀ next ∈ succ vertex, next ∈ domain)

include succNodup closed

/-- One vertex is taken from the stack. -/
theorem Sorting.step {state : State Vertex}
    (sorting : Sorting succ domain state) {vertex : Vertex}
    (top : state.stack.getLast? = some vertex) :
    Sorting succ domain
      ((succ vertex).foldl release
        { degree := state.degree
          stack := state.stack.dropLast
          order := state.order ++ [vertex] }) := by
  have stackEq : state.stack.dropLast ++ [vertex] = state.stack :=
    List.dropLast_append_getLast? vertex top
  have listed : vertex ∈ state.order ++ state.stack := by
    rw [← stackEq]
    simp
  have member := sorting.inside vertex listed
  have nodup := sorting.nodup
  have together : (state.order ++ [vertex] ++ state.stack.dropLast).Perm
      (state.order ++ state.stack) := by
    rw [List.append_assoc]
    apply List.Perm.append_left
    rw [← stackEq, List.dropLast_concat]
    exact List.perm_append_comm
  have mem_together : ∀ other,
      other ∈ state.order ++ [vertex] ++ state.stack.dropLast ↔
        other ∈ state.order ++ state.stack := fun other => together.mem_iff
  have isFree := (sorting.zero_iff vertex member).mpr listed
  rw [sorting.degree_eq vertex member, Int.natCast_eq_zero,
    Finset.card_eq_zero] at isFree
  have fresh : vertex ∉ state.order := by
    intro inOrder
    refine (List.nodup_append.mp nodup).2.2 vertex inOrder vertex ?_ rfl
    rw [← stackEq]
    simp
  -- a successor still counts the vertex, so that it has not been pushed yet
  have waits : ∀ next ∈ succ vertex,
      state.degree next ≠ 0 ∧ next ∉ state.order ++ state.stack := by
    intro next step
    have nextMember := closed vertex member next step
    have counted : state.degree next ≠ 0 := by
      rw [sorting.degree_eq next nextMember, Ne, Int.natCast_eq_zero,
        Finset.card_eq_zero]
      exact
        Finset.ne_empty_of_mem (mem_pending.mpr ⟨member, fresh, step⟩)
    exact
      ⟨counted, fun inside =>
        counted ((sorting.zero_iff next nextMember).mpr inside)⟩
  rw [foldl_release _ (succNodup vertex member)]
  exact {
    nodup := by
      rw [← List.append_assoc, List.nodup_append, together.nodup_iff]
      refine ⟨nodup, (succNodup vertex member).filter _, ?_⟩
      rintro first firstIn second secondIn rfl
      exact
        (waits first (List.mem_filter.mp secondIn).1).2
          ((mem_together first).mp firstIn)
    inside := by
      intro other inside
      rw [← List.append_assoc, List.mem_append, mem_together] at inside
      rcases inside with before | pushed
      · exact sorting.inside other before
      · exact closed vertex member other (List.mem_filter.mp pushed).1
    degree_eq := by
      intro other otherMember
      have before := sorting.degree_eq other otherMember
      dsimp only
      rw [pending_concat]
      by_cases step : other ∈ succ vertex
      · have counted := mem_pending.mpr ⟨member, fresh, step⟩
        have positive := Finset.card_pos.mpr ⟨vertex, counted⟩
        rw [if_pos step, Finset.card_erase_of_mem counted, before]
        omega
      · rw [if_neg step, Finset.erase_eq_of_notMem, before]
        exact fun counted => step (mem_pending.mp counted).2.2
    zero_iff := by
      intro other otherMember
      dsimp only
      rw [← List.append_assoc, List.mem_append, mem_together,
        ← sorting.zero_iff other otherMember, List.mem_filter,
        decide_eq_true_eq]
      by_cases step : other ∈ succ vertex
      · have counted := (waits other step).1
        rw [if_pos step]
        simp only [counted, step, true_and, false_or]
        omega
      · rw [if_neg step]
        simp only [step, false_and, or_false]
    ordered := by
      apply sorting.ordered.concat
      intro pred predMember step
      by_contra outside
      have counted := mem_pending.mpr ⟨predMember, outside, step⟩
      rw [isFree] at counted
      exact Finset.notMem_empty pred counted }

/-- The loop ends before it runs out of fuel. -/
theorem drain_sorting {fuel : Nat} {state : State Vertex}
    (sorting : Sorting succ domain state)
    (enough : domain.card - state.order.length < fuel) :
    ∃ final, drain succ fuel state = some final ∧
      Sorting succ domain final ∧ final.stack = [] := by
  induction fuel generalizing state with
  | zero => exact absurd enough (Nat.not_lt_zero _)
  | succ fuel induction =>
      rw [drain]
      cases top : state.stack.getLast? with
      | none => exact ⟨state, rfl, sorting, List.getLast?_eq_none_iff.mp top⟩
      | some vertex =>
          have next := sorting.step succNodup closed top
          have bound : state.order.length < domain.card := by
            have subset : (state.order ++ state.stack).toFinset ⊆ domain := by
              intro other inside
              rw [List.mem_toFinset] at inside
              exact sorting.inside other inside
            have card := Finset.card_le_card subset
            rw [List.toFinset_card_of_nodup sorting.nodup,
              List.length_append] at card
            have positive :=
              List.length_pos_of_mem (List.mem_of_getLast? top)
            omega
          have member := sorting.inside vertex
            (List.mem_append_right _ (List.mem_of_getLast? top))
          apply induction next
          rw [foldl_release _ (succNodup vertex member), List.length_append,
            List.length_singleton]
          omega

end Step

/-! ## The result -/

/-- When nothing waits, every vertex is ordered. -/
theorem Sorting.complete {state : State Vertex}
    (sorting : Sorting succ domain state) (empty : state.stack = [])
    (acyclic : Digraph.Acyclic fun source target : Vertex =>
      source ∈ domain ∧ target ∈ succ source)
    {vertex : Vertex} (member : vertex ∈ domain) : vertex ∈ state.order := by
  by_contra outside
  let left := fun source target : Vertex =>
    (source ∈ domain ∧ source ∉ state.order) ∧
      (target ∈ domain ∧ target ∉ state.order) ∧ target ∈ succ source
  have leftAcyclic : Digraph.Acyclic left :=
    acyclic.mono fun source target step => ⟨step.1.1, step.2.2⟩
  obtain ⟨source, first, path⟩ :=
    leftAcyclic.exists_source domain (fun _ _ step => step.1.1) vertex
  have remains : source ∈ domain ∧ source ∉ state.order := by
    rcases ReflTransGen.cases_head path with rfl | ⟨next, step, -⟩
    · exact ⟨member, outside⟩
    · exact step.1
  have counts : state.degree source ≠ 0 := by
    rw [Ne, sorting.zero_iff source remains.1, empty, List.append_nil]
    exact remains.2
  rw [sorting.degree_eq source remains.1, Ne, Int.natCast_eq_zero,
    Finset.card_eq_zero, ← Ne, ← Finset.nonempty_iff_ne_empty] at counts
  obtain ⟨pred, counted⟩ := counts
  obtain ⟨predMember, predOutside, step⟩ := mem_pending.mp counted
  exact first pred ⟨⟨predMember, predOutside⟩, remains, step⟩

/--
From the counts of all predecessors and a stack of the vertices without any, the
loop orders every vertex once, after its predecessors.
-/
theorem drain_spec (succNodup : ∀ vertex ∈ domain, (succ vertex).Nodup)
    (closed : ∀ vertex ∈ domain, ∀ next ∈ succ vertex, next ∈ domain)
    (acyclic : Digraph.Acyclic fun source target : Vertex =>
      source ∈ domain ∧ target ∈ succ source)
    {degree : Vertex → Int} {stack : List Vertex}
    (degree_eq : ∀ vertex ∈ domain,
      degree vertex = (pending succ domain [] vertex).card)
    (nodup : stack.Nodup)
    (mem_stack : ∀ vertex, vertex ∈ stack ↔
      vertex ∈ domain ∧ degree vertex = 0) {fuel : Nat}
    (enough : domain.card < fuel) :
    ∃ final, drain succ fuel
        { degree := degree, stack := stack, order := [] } = some final ∧
      final.order.Nodup ∧ (∀ vertex, vertex ∈ final.order ↔ vertex ∈ domain) ∧
        Ordered succ domain final.order := by
  have initial : Sorting succ domain
      { degree := degree, stack := stack, order := [] } := {
    nodup := nodup
    inside := fun vertex waiting => ((mem_stack vertex).mp waiting).1
    degree_eq := degree_eq
    zero_iff := fun vertex member =>
      ⟨fun zero => (mem_stack vertex).mpr ⟨member, zero⟩,
        fun waiting => ((mem_stack vertex).mp waiting).2⟩
    ordered := by
      intro earlier vertex later split
      simp at split }
  obtain ⟨final, ran, sorting, empty⟩ :=
    drain_sorting succNodup closed initial (by simpa using enough)
  have inside := sorting.inside
  have finalNodup := sorting.nodup
  rw [empty, List.append_nil] at inside finalNodup
  exact
    ⟨final, ran, finalNodup,
      fun vertex => ⟨inside vertex, sorting.complete empty acyclic⟩,
      sorting.ordered⟩

end Cgir.Library.Kahn
