import Mathlib.Data.Finset.Card
import Mathlib.Data.Finset.Range
import Mathlib.Logic.Function.Iterate

/-!
# Union-find with path halving

A forest is given by a parent function; a root is its own parent.  `find`
follows the parents of an element and halves the path it walks, `unite` makes
one root the parent of another.  Both are iterated a bounded number of times,
and the bound is met on every finite forest.

The abstract value of a forest is the function `root`.  `find` returns it and
leaves it unchanged (`find_spec`); `unite` redirects one class to the root of
another (`unite_spec`).
-/

namespace Cgir.Library.UnionFind

variable {Element : Type}

/-- `root` is reached from an element in exactly `depth` parent steps. -/
def RootIn (parent : Element → Element) : Nat → Element → Element → Prop
  | 0, element, root => parent element = element ∧ element = root
  | depth + 1, element, root =>
      parent element ≠ element ∧ RootIn parent depth (parent element) root

/-- `root` is the root of an element. -/
def Root (parent : Element → Element) (element root : Element) : Prop :=
  ∃ depth, RootIn parent depth element root

theorem RootIn.unique {parent : Element → Element} {depth : Nat} :
    ∀ {element root : Element} {depth' : Nat} {root' : Element},
      RootIn parent depth element root →
        RootIn parent depth' element root' →
          depth = depth' ∧ root = root' := by
  induction depth with
  | zero =>
      intro element root depth' root' left right
      cases depth' with
      | zero => exact ⟨rfl, left.2.symm.trans right.2⟩
      | succ depth' => exact (right.1 left.1).elim
  | succ depth induction =>
      intro element root depth' root' left right
      cases depth' with
      | zero => exact (left.1 right.1).elim
      | succ depth' =>
          obtain ⟨sameDepth, sameRoot⟩ := induction left.2 right.2
          exact ⟨congrArg Nat.succ sameDepth, sameRoot⟩

theorem Root.unique {parent : Element → Element}
    {element root root' : Element}
    (left : Root parent element root) (right : Root parent element root') :
    root = root' := by
  obtain ⟨_, leftIn⟩ := left
  obtain ⟨_, rightIn⟩ := right
  exact (leftIn.unique rightIn).2

theorem RootIn.parent_root {parent : Element → Element} {depth : Nat} :
    ∀ {element root : Element},
      RootIn parent depth element root → parent root = root := by
  induction depth with
  | zero =>
      intro element root rooted
      exact rooted.2 ▸ rooted.1
  | succ depth induction =>
      intro element root rooted
      exact induction rooted.2

theorem RootIn.iterate {parent : Element → Element} (steps : Nat) :
    ∀ {depth : Nat} {element root : Element},
      RootIn parent (steps + depth) element root →
        RootIn parent depth (parent^[steps] element) root := by
  induction steps with
  | zero =>
      intro depth element root rooted
      simpa using rooted
  | succ steps induction =>
      intro depth element root rooted
      rw [Nat.succ_add] at rooted
      rw [Function.iterate_succ_apply]
      exact induction rooted.2

/-- A parent function on a finite domain in which every element has a root. -/
structure Forest (domain : Finset Element) (parent : Element → Element) :
    Prop where
  closed : ∀ element ∈ domain, parent element ∈ domain
  rooted : ∀ element ∈ domain, ∃ root, Root parent element root

namespace Forest

variable {domain : Finset Element} {parent : Element → Element}

theorem iterate_mem (forest : Forest domain parent)
    {element : Element} (member : element ∈ domain) (steps : Nat) :
    parent^[steps] element ∈ domain := by
  induction steps with
  | zero => simpa using member
  | succ steps induction =>
      rw [Function.iterate_succ_apply']
      exact forest.closed _ induction

/-- The elements on a path to the root are distinct, so the path is short. -/
theorem depth_lt (forest : Forest domain parent)
    {depth : Nat} {element root : Element} (member : element ∈ domain)
    (rooted : RootIn parent depth element root) :
    depth < domain.card := by
  have remaining :
      ∀ steps, steps < depth + 1 →
        RootIn parent (depth - steps) (parent^[steps] element) root := by
    intro steps bound
    refine RootIn.iterate steps ?_
    rwa [Nat.add_sub_cancel' (Nat.lt_succ_iff.mp bound)]
  have injective :
      Set.InjOn (fun steps => parent^[steps] element)
        (Finset.range (depth + 1) : Set Nat) := by
    intro left leftMember right rightMember equal
    have leftBound := Finset.mem_range.mp leftMember
    have rightBound := Finset.mem_range.mp rightMember
    have leftRooted := remaining left leftBound
    have sameElement :
        parent^[left] element = parent^[right] element := equal
    rw [sameElement] at leftRooted
    have sameDepth := (leftRooted.unique (remaining right rightBound)).1
    omega
  have bounded :=
    Finset.card_le_card_of_injOn (fun steps => parent^[steps] element)
      (fun steps _ => forest.iterate_mem member steps) injective
  rw [Finset.card_range] at bounded
  omega

end Forest

/-! ## The abstract value -/

open Classical in
/-- The root of an element, as a function. -/
noncomputable def root (parent : Element → Element) (element : Element) :
    Element :=
  if rooted : ∃ root, Root parent element root then
    rooted.choose
  else
    element

theorem Root.root_eq {parent : Element → Element}
    {element found : Element} (rooted : Root parent element found) :
    root parent element = found := by
  have exists_root : ∃ root, Root parent element root := ⟨found, rooted⟩
  rw [root, dif_pos exists_root]
  exact exists_root.choose_spec.unique rooted

theorem Forest.root_spec {domain : Finset Element}
    {parent : Element → Element} (forest : Forest domain parent)
    {element : Element} (member : element ∈ domain) :
    Root parent element (root parent element) := by
  obtain ⟨found, rooted⟩ := forest.rooted element member
  rw [rooted.root_eq]
  exact rooted

theorem Root.of_fixed {parent : Element → Element} {element : Element}
    (fixed : parent element = element) :
    Root parent element element :=
  ⟨0, fixed, rfl⟩

theorem Root.root_root {parent : Element → Element}
    {element found : Element} (rooted : Root parent element found) :
    Root parent found found :=
  Root.of_fixed rooted.choose_spec.parent_root

theorem Forest.root_root {domain : Finset Element}
    {parent : Element → Element} (forest : Forest domain parent)
    {element : Element} (member : element ∈ domain) :
    root parent (root parent element) = root parent element :=
  (forest.root_spec member).root_root.root_eq

theorem Forest.root_mem {domain : Finset Element}
    {parent : Element → Element} (forest : Forest domain parent)
    {element : Element} (member : element ∈ domain) :
    root parent element ∈ domain := by
  obtain ⟨depth, rooted⟩ := forest.root_spec member
  have reached :
      RootIn parent 0 (parent^[depth] element) (root parent element) :=
    RootIn.iterate depth rooted
  rw [← reached.2]
  exact forest.iterate_mem member depth

/-! ## The operations -/

variable [DecidableEq Element]

/-- Follow the parents to the root, halving the path on the way. -/
def find : Nat → (Element → Element) → Element →
    Option (Element × (Element → Element))
  | 0, _, _ => none
  | fuel + 1, parent, element =>
      if parent element = element then
        some (element, parent)
      else
        let halved :=
          Function.update parent element (parent (parent element))
        find fuel halved (halved element)

/-- Make the root of `left` a child of the root of `right`. -/
def unite (fuel : Nat) (parent : Element → Element)
    (left right : Element) : Option (Element → Element) := do
  let (leftRoot, parent) ← find fuel parent left
  let (rightRoot, parent) ← find fuel parent right
  return if leftRoot ≠ rightRoot then
    Function.update parent leftRoot rightRoot
  else
    parent

/-- Halving one step keeps every root and lengthens no path. -/
theorem RootIn.halve {parent : Element → Element} {here : Element}
    (inner : parent here ≠ here) (depth : Nat) :
    ∀ {element root : Element}, RootIn parent depth element root →
      ∃ depth' ≤ depth,
        RootIn (Function.update parent here (parent (parent here)))
          depth' element root := by
  induction depth using Nat.strongRecOn with
  | ind depth induction =>
      intro element root rooted
      by_cases isHere : element = here
      · subst isHere
        match depth, rooted with
        | 0, rooted => exact (inner rooted.1).elim
        | 1, rooted =>
            obtain ⟨-, fixed, isRoot⟩ := rooted
            refine ⟨1, le_rfl, ?_, ?_, ?_⟩
            · rw [Function.update_self, fixed]
              exact inner
            · rw [Function.update_self, fixed,
                Function.update_of_ne inner]
              exact fixed
            · rw [Function.update_self, fixed]
              exact isRoot
        | depth + 2, rooted =>
            have grand := rooted.2.2
            obtain ⟨depth', bound, rooted'⟩ :=
              induction depth (by omega) grand
            refine ⟨depth' + 1, by omega, ?_, ?_⟩
            · rw [Function.update_self]
              intro cycle
              rw [cycle] at grand
              have sameDepth := (grand.unique rooted).1
              omega
            · rw [Function.update_self]
              exact rooted'
      · match depth, rooted with
        | 0, rooted =>
            refine ⟨0, le_rfl, ?_, rooted.2⟩
            rw [Function.update_of_ne isHere]
            exact rooted.1
        | depth + 1, rooted =>
            obtain ⟨depth', bound, rooted'⟩ :=
              induction depth (by omega) rooted.2
            refine ⟨depth' + 1, by omega, ?_, ?_⟩
            · rw [Function.update_of_ne isHere]
              exact rooted.1
            · rw [Function.update_of_ne isHere]
              exact rooted'

section Specification

variable {domain : Finset Element}

theorem Forest.halve {parent : Element → Element}
    (forest : Forest domain parent) {here : Element}
    (member : here ∈ domain) (inner : parent here ≠ here) :
    Forest domain
      (Function.update parent here (parent (parent here))) where
  closed := by
    intro element elementMember
    rw [Function.update_apply]
    split
    · exact forest.closed _ (forest.closed _ member)
    · exact forest.closed _ elementMember
  rooted := by
    intro element elementMember
    obtain ⟨root, depth, rooted⟩ := forest.rooted element elementMember
    obtain ⟨depth', -, rooted'⟩ := rooted.halve inner
    exact ⟨root, depth', rooted'⟩

private theorem find_spec_aux (fuel : Nat) :
    ∀ {parent : Element → Element} {element found : Element} {depth : Nat},
      Forest domain parent → element ∈ domain →
        RootIn parent depth element found → depth < fuel →
          ∃ parent', find fuel parent element = some (found, parent') ∧
            Forest domain parent' ∧
            ∀ other ∈ domain, root parent' other = root parent other := by
  induction fuel with
  | zero =>
      intro parent element found depth _ _ _ bound
      exact (Nat.not_lt_zero _ bound).elim
  | succ fuel induction =>
      intro parent element found depth forest member rooted bound
      by_cases fixed : parent element = element
      · have isRoot := (Root.of_fixed fixed).unique ⟨depth, rooted⟩
        refine ⟨parent, ?_, forest, fun _ _ => rfl⟩
        rw [find, if_pos fixed, isRoot]
      · have halvedForest := forest.halve member fixed
        have nextRooted :
            ∃ depth', depth' < fuel ∧
              RootIn
                (Function.update parent element (parent (parent element)))
                depth' (parent (parent element)) found := by
          match depth, rooted with
          | 0, rooted => exact (fixed rooted.1).elim
          | 1, rooted =>
              obtain ⟨-, parentFixed, isRoot⟩ := rooted
              have grand :
                  RootIn parent 0 (parent (parent element)) found := by
                rw [parentFixed]
                exact ⟨parentFixed, isRoot⟩
              obtain ⟨depth', bound', rooted'⟩ := grand.halve fixed
              exact ⟨depth', by omega, rooted'⟩
          | depth + 2, rooted =>
              obtain ⟨depth', bound', rooted'⟩ := rooted.2.2.halve fixed
              exact ⟨depth', by omega, rooted'⟩
        obtain ⟨depth', bound', rooted'⟩ := nextRooted
        obtain ⟨parent', ran, forest', same⟩ :=
          induction halvedForest
            (forest.closed _ (forest.closed _ member)) rooted' bound'
        refine ⟨parent', ?_, forest', fun other otherMember => ?_⟩
        · rw [find, if_neg fixed]
          simpa using ran
        · rw [same other otherMember]
          obtain ⟨otherRoot, otherDepth, otherRooted⟩ :=
            forest.rooted other otherMember
          obtain ⟨halvedDepth, -, halvedRooted⟩ := otherRooted.halve fixed
          rw [Root.root_eq ⟨halvedDepth, halvedRooted⟩,
            Root.root_eq ⟨otherDepth, otherRooted⟩]

/-- `find` returns the root of an element and changes no root. -/
theorem find_spec {parent : Element → Element}
    (forest : Forest domain parent) {element : Element}
    (member : element ∈ domain) {fuel : Nat} (enough : domain.card ≤ fuel) :
    ∃ parent', find fuel parent element =
        some (root parent element, parent') ∧
      Forest domain parent' ∧
      ∀ other ∈ domain, root parent' other = root parent other := by
  obtain ⟨depth, rooted⟩ := forest.root_spec member
  exact
    find_spec_aux fuel forest member rooted
      ((forest.depth_lt member rooted).trans_le enough)

/-- Making one root the child of another redirects its whole class. -/
theorem Root.link {parent : Element → Element} {lower upper : Element}
    (lowerFixed : parent lower = lower) (upperFixed : parent upper = upper)
    (different : lower ≠ upper) {element found : Element}
    (rooted : Root parent element found) :
    Root (Function.update parent lower upper) element
      (if found = lower then upper else found) := by
  obtain ⟨depth, rooted⟩ := rooted
  induction depth generalizing element with
  | zero =>
      obtain ⟨fixed, rfl⟩ := rooted
      by_cases isLower : element = lower
      · subst isLower
        rw [if_pos rfl]
        refine ⟨1, ?_, ?_, ?_⟩
        · rw [Function.update_self]
          exact different.symm
        · rw [Function.update_self, Function.update_of_ne different.symm]
          exact upperFixed
        · rw [Function.update_self]
      · rw [if_neg isLower]
        refine ⟨0, ?_, rfl⟩
        rw [Function.update_of_ne isLower]
        exact fixed
  | succ depth induction =>
      have notLower : element ≠ lower := by
        rintro rfl
        exact rooted.1 lowerFixed
      obtain ⟨depth', rooted'⟩ := induction rooted.2
      refine ⟨depth' + 1, ?_, ?_⟩
      · rw [Function.update_of_ne notLower]
        exact rooted.1
      · rw [Function.update_of_ne notLower]
        exact rooted'

/-- `unite` redirects the class of `left` to the root of `right`. -/
theorem unite_spec {parent : Element → Element}
    (forest : Forest domain parent) {left right : Element}
    (leftMember : left ∈ domain) (rightMember : right ∈ domain)
    {fuel : Nat} (enough : domain.card ≤ fuel) :
    ∃ parent', unite fuel parent left right = some parent' ∧
      Forest domain parent' ∧
      ∀ other ∈ domain, root parent' other =
        if root parent other = root parent left then
          root parent right
        else
          root parent other := by
  obtain ⟨parent₁, leftRan, forest₁, same₁⟩ :=
    find_spec forest leftMember enough
  obtain ⟨parent₂, rightRan, forest₂, same₂⟩ :=
    find_spec forest₁ rightMember enough
  have same :
      ∀ other ∈ domain, root parent₂ other = root parent other :=
    fun other member => (same₂ other member).trans (same₁ other member)
  have ran :
      unite fuel parent left right =
        some (if root parent left ≠ root parent right then
          Function.update parent₂ (root parent left) (root parent right)
        else parent₂) := by
    rw [unite, leftRan]
    simp only [Option.bind_eq_bind, Option.bind_some, rightRan,
      same₁ right rightMember, Option.pure_def]
  refine ⟨_, ran, ?_⟩
  by_cases equal : root parent left = root parent right
  · rw [if_neg (by simpa using equal)]
    refine ⟨forest₂, fun other member => ?_⟩
    rw [same other member]
    split
    · rename_i sameClass
      rw [sameClass, equal]
    · rfl
  · rw [if_pos equal]
    have leftFixed :
        parent₂ (root parent left) = root parent left := by
      obtain ⟨depth, rooted⟩ := forest₂.root_spec leftMember
      rw [← same left leftMember]
      exact rooted.parent_root
    have rightFixed :
        parent₂ (root parent right) = root parent right := by
      obtain ⟨depth, rooted⟩ := forest₂.root_spec rightMember
      rw [← same right rightMember]
      exact rooted.parent_root
    have linked :
        ∀ other ∈ domain,
          Root
            (Function.update parent₂ (root parent left)
              (root parent right))
            other
            (if root parent other = root parent left then
              root parent right
            else
              root parent other) := by
      intro other member
      rw [← same other member]
      exact
        Root.link leftFixed rightFixed equal (forest₂.root_spec member)
    refine ⟨⟨?_, fun other member => ⟨_, linked other member⟩⟩,
      fun other member => (linked other member).root_eq⟩
    intro element member
    rw [Function.update_apply]
    split
    · exact forest.root_mem rightMember
    · exact forest₂.closed element member

end Specification

omit [DecidableEq Element] in
/-- Before any union every element is its own root. -/
theorem Forest.discrete (domain : Finset Element) :
    Forest domain (fun element => element) where
  closed := fun _ member => member
  rooted := fun element _ => ⟨element, Root.of_fixed rfl⟩

omit [DecidableEq Element] in
@[simp]
theorem root_discrete (element : Element) :
    root (fun element => element) element = element :=
  (Root.of_fixed rfl).root_eq

end Cgir.Library.UnionFind
