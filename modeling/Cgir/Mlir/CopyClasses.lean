import Cgir.Mlir.CopyFused

/-!
# The classes of the copy-fuse pass

A copy that the pass absorbs ends up in one that survives.  The two are false twins
with the same devices and the same bias, and the survivor moves the bytes of all
copies that ended up in it.
-/

namespace Cgir.Mlir

open Relation
open Cgir.Library

variable {cg : Graph} {state : Fusing} {place : OpId → OpId}

/-! ## One fusion -/

/-- Copies of false twins, between the same devices and with the same bias. -/
def Kin (cg : Graph) (u v : OpId) : Prop :=
  ∃ uCopy vCopy, (cg.ops u).copy1D? = some uCopy ∧
    (cg.ops v).copy1D? = some vCopy ∧ uCopy.Parallel vCopy ∧
      cg.falseTwins u v = true

theorem Kin.trans {u v w : OpId} (first : Kin cg u v) (second : Kin cg v w) :
    Kin cg u w := by
  obtain ⟨uCopy, vCopy, uEq, vEq, parallel, twins⟩ := first
  obtain ⟨vCopy', wCopy, vEq', wEq, parallel', twins'⟩ := second
  rw [vEq, Option.some.injEq] at vEq'
  subst vEq'
  exact
    ⟨uCopy, wCopy, uEq, wEq, parallel.trans parallel',
      Graph.falseTwins_trans twins twins'⟩

/-- The survivor of each op, and what the survivors move. -/
structure Survivors (cg : Graph) (place : OpId → OpId) (state : Fusing) :
    Prop where
  place_mem : ∀ op ∈ cg.body, place op ∈ cg.body
  place_live : ∀ op ∈ cg.body, place op ∉ state.dead
  place_eq : ∀ op, op ∉ state.dead → place op = op
  kin : ∀ op ∈ cg.body, place op ≠ op → Kin cg op (place op)
  header : ∀ op ∈ cg.body,
    (state.cg.ops op).srcNode = (cg.ops op).srcNode ∧
      (state.cg.ops op).duid = (cg.ops op).duid
  moves : ∀ op ∈ cg.body, op ∉ state.dead → ∀ copy,
    (cg.ops op).copy1D? = some copy →
      ∃ copy', (state.cg.ops op).copy1D? = some copy' ∧
        copy'.kind = copy.kind ∧ ∀ transfer, copy'.Moves transfer ↔
          ∃ other ∈ cg.body, place other = op ∧
            ∃ absorbed, (cg.ops other).copy1D? = some absorbed ∧
              absorbed.Moves transfer

/-- At first each copy stands for itself. -/
theorem survivors_nil (cg : Graph) :
    Survivors cg id { cg := cg, dead := [] } where
  place_mem := fun _ member => member
  place_live := fun _ _ => List.not_mem_nil
  place_eq := fun _ _ => rfl
  kin := fun _ _ moved => (moved rfl).elim
  header := fun _ _ => ⟨rfl, rfl⟩
  moves := by
    intro op member _ copy isCopy
    refine ⟨copy, isCopy, rfl, fun transfer => ?_⟩
    constructor
    · exact fun moves => ⟨op, member, rfl, copy, isCopy, moves⟩
    · rintro ⟨_, -, rfl, absorbed, isCopy', moves⟩
      rw [id, isCopy', Option.some.injEq] at isCopy
      exact isCopy ▸ moves

/-- Fusing writes no header. -/
theorem Graph.tryFuse_header {u v : OpId} {after : Graph}
    (ran : cg.tryFuse u v = some after) {op : OpId} (member : op ∈ cg.body) :
    (after.ops op).srcNode = (cg.ops op).srcNode ∧
      (after.ops op).duid = (cg.ops op).duid := by
  rw [tryFuse] at ran
  split at ran
  · rename_i uCopy vCopy _ _
    split at ran
    · obtain rfl := Option.some.inj ran
      have opsEq :=
        (disconnect_spec
          (cg.updateOp u fun op =>
            { op with kind := .copy1D (uCopy.fused vCopy) }) v).2 op member
      rw [opsEq, updateOp_ops]
      split
      · rename_i isFirst
        subst isFirst
        exact ⟨rfl, rfl⟩
      · exact ⟨rfl, rfl⟩
    · cases ran
  · cases ran

/-- What was in the second copy is in the first one. -/
def absorbInto (place : OpId → OpId) (u v op : OpId) : OpId :=
  if place op = v then u else place op

theorem absorbInto_of_eq {u v op : OpId} (same : place op = v) :
    absorbInto place u v op = u :=
  if_pos same

theorem absorbInto_of_ne {u v op : OpId} (other : place op ≠ v) :
    absorbInto place u v op = place op :=
  if_neg other

/-- A fusion keeps the classes apart from the two that it joins. -/
theorem Survivors.fuse {u v : OpId} {after : Graph}
    (survivors : Survivors cg place state) (progress : Progress cg state)
    (ran : state.cg.tryFuse u v = some after)
    (uMember : u ∈ cg.body) (vMember : v ∈ cg.body)
    (uLive : u ∉ state.dead) (vLive : v ∉ state.dead) :
    Survivors cg (absorbInto place u v)
      { cg := after, dead := state.dead ++ [v] } := by
  obtain ⟨uCopy, vCopy, fuses⟩ := Graph.tryFuse_some ran
  have uPlace := survivors.place_eq u uLive
  have vPlace := survivors.place_eq v vLive
  have uLive' : u ∉ state.dead ++ [v] := by
    simp [uLive, fuses.apart]
  obtain ⟨uUnwrapped, uFirst, uFirstEq, uParallel⟩ :=
    progress.copy_back uMember fuses.uCopy_eq
  obtain ⟨vUnwrapped, vFirst, vFirstEq, vParallel⟩ :=
    progress.copy_back vMember fuses.vCopy_eq
  have joined : Kin cg v u :=
    ⟨vFirst, uFirst, vFirstEq, uFirstEq,
      vParallel.symm.trans (fuses.parallel.symm.trans uParallel),
      Graph.falseTwins_symm
        (progress.fuses_twins fuses uMember vMember uLive vLive)⟩
  exact {
    place_mem := by
      intro op member
      by_cases inSecond : place op = v
      · rwa [absorbInto_of_eq inSecond]
      · rw [absorbInto_of_ne inSecond]
        exact survivors.place_mem op member
    place_live := by
      intro op member
      by_cases inSecond : place op = v
      · rwa [absorbInto_of_eq inSecond]
      · rw [absorbInto_of_ne inSecond]
        simp [survivors.place_live op member, inSecond]
    place_eq := by
      intro op live
      rw [List.mem_append, List.mem_singleton, not_or] at live
      have same := survivors.place_eq op live.1
      rw [absorbInto_of_ne (same.symm ▸ live.2), same]
    kin := by
      intro op member moved
      by_cases inSecond : place op = v
      · rw [absorbInto_of_eq inSecond]
        by_cases isSecond : op = v
        · rwa [isSecond]
        · have before :=
            survivors.kin op member (inSecond ▸ Ne.symm isSecond)
          rw [inSecond] at before
          exact before.trans joined
      · rw [absorbInto_of_ne inSecond] at moved ⊢
        exact survivors.kin op member moved
    header := by
      intro op member
      have kept := Graph.tryFuse_header ran (progress.body_eq ▸ member)
      have before := survivors.header op member
      exact ⟨kept.1.trans before.1, kept.2.trans before.2⟩
    moves := by
      intro op member live copy isCopy
      rw [List.mem_append, List.mem_singleton, not_or] at live
      obtain ⟨opLive, notSecond⟩ := live
      obtain ⟨copy', isCopy', kindEq, movesIff⟩ :=
        survivors.moves op member opLive copy isCopy
      by_cases isFirst : op = u
      · subst isFirst
        rw [fuses.uCopy_eq, Option.some.injEq] at isCopy'
        subst isCopy'
        obtain ⟨vCopy', vNow, -, vMovesIff⟩ :=
          survivors.moves v vMember vLive vFirst vFirstEq
        rw [fuses.vCopy_eq, Option.some.injEq] at vNow
        subst vNow
        refine
          ⟨_, fuses.fused_eq (progress.body_eq ▸ member), kindEq,
            fun transfer => ?_⟩
        rw [Copy1DAttrs.moves_fused uUnwrapped vUnwrapped fuses.parallel
          fuses.touching, movesIff, vMovesIff]
        constructor
        · rintro (⟨other, inBody, here, rest⟩ | ⟨other, inBody, here, rest⟩)
          · refine ⟨other, inBody, ?_, rest⟩
            rw [absorbInto_of_ne (here.symm ▸ notSecond), here]
          · exact ⟨other, inBody, absorbInto_of_eq here, rest⟩
        · rintro ⟨other, inBody, here, rest⟩
          by_cases inSecond : place other = v
          · exact Or.inr ⟨other, inBody, inSecond, rest⟩
          · rw [absorbInto_of_ne inSecond] at here
            exact Or.inl ⟨other, inBody, here, rest⟩
      · refine
          ⟨copy',
            (Progress.copy1D?_after fuses progress.body_eq member
              isFirst).trans isCopy', kindEq, fun transfer => ?_⟩
        rw [movesIff]
        refine exists_congr fun other => and_congr_right fun _ =>
          and_congr_left fun _ => ?_
        by_cases inSecond : place other = v
        · rw [absorbInto_of_eq inSecond, inSecond]
          exact
            iff_of_false (Ne.symm notSecond) (Ne.symm isFirst)
        · rw [absorbInto_of_ne inSecond] }

/-! ## The run -/

section Run

variable {getUsers : Graph → OpId → List OpId}
  (usersPerm : ∀ cg token, (getUsers cg token).Perm (cg.users token))

include usersPerm

theorem fuseOp_survivors {u : OpId} (uMember : u ∈ cg.body) (fuel : Nat)
    {state final : Fusing} {place : OpId → OpId}
    (progress : Progress cg state) (survivors : Survivors cg place state)
    (uLive : u ∉ state.dead)
    (ran : fuseOp getUsers u fuel state = some final) :
    Progress cg final ∧ ∃ place, Survivors cg place final := by
  induction fuel generalizing state place with
  | zero => cases ran
  | succ fuel induction =>
      rw [fuseOp] at ran
      split at ran
      · obtain rfl := Option.some.inj ran
        exact ⟨progress, place, survivors⟩
      · rename_i p0 _ _
        split at ran
        · rename_i fused scanned
          obtain ⟨v, sibling, vLive, after, found, rfl⟩ :=
            fuseSibling_some scanned
          obtain ⟨uCopy, vCopy, fuses⟩ := Graph.tryFuse_some found
          have vMember : v ∈ cg.body := by
            rw [(usersPerm state.cg p0).mem_iff, Graph.mem_users,
              progress.body_eq] at sibling
            exact sibling.1
          exact
            induction (progress.fuse fuses uMember vMember uLive vLive)
              (survivors.fuse progress found uMember vMember uLive vLive)
              (by simp [uLive, fuses.apart]) ran
        · obtain rfl := Option.some.inj ran
          exact ⟨progress, place, survivors⟩

/-- The survivors of a whole run. -/
theorem fuseAll_survivors {work : List OpId} (inside : ∀ u ∈ work, u ∈ cg.body)
    {final : Fusing} (fusible : Fusible cg)
    (ran : work.foldlM (fuseNext getUsers) { cg := cg, dead := [] } =
      some final) :
    Progress cg final ∧ ∃ place, Survivors cg place final := by
  refine
    Loop.foldlM_some_invariant
      (fun _ state => Progress cg state ∧ ∃ place, Survivors cg place state)
      ran ?_ ⟨progress_nil fusible, id, survivors_nil cg⟩
  rintro done u rest state after split ⟨progress, place, survivors⟩ stepped
  rw [fuseNext] at stepped
  split at stepped
  · obtain rfl := Option.some.inj stepped
    exact ⟨progress, place, survivors⟩
  · rename_i live
    exact
      fuseOp_survivors usersPerm (inside u (by simp [split])) _ progress survivors
        live stepped

end Run

/-! ## The result -/

/-- What the pass makes of a graph: the survivors, with the bytes of their classes. -/
structure Merged (cg : Graph) (place : OpId → OpId) (after : Graph) :
    Prop where
  sublist : after.body.Sublist cg.body
  mem_body : ∀ op, op ∈ after.body ↔ op ∈ cg.body ∧ place op = op
  placed : ∀ op ∈ cg.body, place op ∈ after.body
  kin : ∀ op ∈ cg.body, place op ≠ op → Kin cg op (place op)
  operands_eq : ∀ op ∈ after.body,
    after.operands op = (cg.operands op).filter fun pred => place pred = pred
  header : ∀ op ∈ after.body, (after.ops op).srcNode = (cg.ops op).srcNode ∧
    (after.ops op).duid = (cg.ops op).duid
  other_eq : ∀ op ∈ after.body, (cg.ops op).copy1D? = none →
    (after.ops op).kind = (cg.ops op).kind
  copy_eq : ∀ op ∈ after.body, ∀ copy, (cg.ops op).copy1D? = some copy →
    ∃ copy', (after.ops op).copy1D? = some copy' ∧
      copy'.kind = copy.kind ∧ copy'.Parallel copy ∧ copy'.Unwrapped ∧
        ∀ transfer, copy'.Moves transfer ↔
          ∃ other ∈ cg.body, place other = op ∧
            ∃ absorbed, (cg.ops other).copy1D? = some absorbed ∧
              absorbed.Moves transfer

/-- The pass returns, and merges each class of copies into its survivor. -/
theorem copyFuse_merges (fusible : Fusible cg)
    {getUsers : Graph → OpId → List OpId}
    (usersPerm : ∀ cg token, (getUsers cg token).Perm (cg.users token)) :
    ∃ after place, copyFuse getUsers cg = some after ∧
      Merged cg place after := by
  obtain ⟨after, ran, -⟩ := copyFuse_spec fusible usersPerm
  have whole := ran
  simp only [copyFuse, Option.bind_eq_bind] at ran
  obtain ⟨state, swept, erased⟩ := Option.bind_eq_some_iff.mp ran
  obtain rfl := Option.some.inj erased
  obtain ⟨progress, place, survivors⟩ :=
    fuseAll_survivors usersPerm (fun u member => (List.mem_filter.mp member).1)
      fusible swept
  obtain ⟨opsEq, sublist, members⟩ :=
    @erase_dead state.dead state.cg (progress.body_eq ▸ fusible.nodup)
  rw [progress.body_eq] at sublist members
  refine ⟨_, place, whole, ?_⟩
  generalize state.dead.foldl Graph.erase state.cg = after at *
  have liveIff : ∀ op, op ∉ state.dead ↔ place op = op := by
    intro op
    refine ⟨survivors.place_eq op, fun same dead => ?_⟩
    have live := survivors.place_live op (progress.dead_mem op dead)
    exact live (same.symm ▸ dead)
  have memBody : ∀ op, op ∈ after.body ↔ op ∈ cg.body ∧ place op = op := by
    intro op
    rw [members, liveIff]
  exact {
    sublist := sublist
    mem_body := memBody
    placed := fun op member =>
      (members _).mpr
        ⟨survivors.place_mem op member, survivors.place_live op member⟩
    kin := survivors.kin
    operands_eq := by
      intro op member
      rw [Graph.operands, opsEq]
      refine (progress.operands_eq op ((members op).mp member).1).trans ?_
      apply List.filter_congr
      intro pred _
      simp only [liveIff]
    header := by
      intro op member
      rw [opsEq]
      exact survivors.header op ((members op).mp member).1
    other_eq := by
      intro op member notCopy
      rw [opsEq]
      have same := (progress.other_eq op ((members op).mp member).1 notCopy).2
      exact (congrArg Op.kind same :)
    copy_eq := by
      intro op member copy isCopy
      obtain ⟨inBody, live⟩ := (members op).mp member
      obtain ⟨copy', isCopy', kindEq, movesIff⟩ :=
        survivors.moves op inBody live copy isCopy
      obtain ⟨unwrapped, first, firstEq, parallel⟩ :=
        progress.copy_back inBody isCopy'
      rw [isCopy, Option.some.injEq] at firstEq
      subst firstEq
      exact
        ⟨copy', opsEq ▸ isCopy', kindEq, parallel, unwrapped, movesIff⟩ }

end Cgir.Mlir
