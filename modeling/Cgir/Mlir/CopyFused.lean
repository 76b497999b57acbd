import Cgir.Mlir.BatchPass
import Cgir.Mlir.CopyFuse

/-!
# The copy-fuse pass of the dialect is sound and complete

Fusing false twins changes no other pair of false twins: an operand that is
fused away leaves an operand behind that the same ops use
(`Progress.falseTwins_iff`).  So the pass merges ranges within fixed classes of
copies, and a copy whose siblings are all apart from it stays so
(`Progress.fuse`).
-/

namespace Cgir.Mlir

open Relation
open Cgir.Library
open Cgir.Model

/-! ## Uses and twins -/

namespace Graph

variable {cg : Graph}

theorem mem_users {token op : OpId} :
    op ∈ cg.users token ↔ op ∈ cg.body ∧ token ∈ cg.operands op := by
  rw [users, List.mem_flatMap]
  constructor
  · rintro ⟨other, member, isOp⟩
    obtain ⟨positive, rfl⟩ := List.mem_replicate.mp isOp
    exact
      ⟨member, List.count_pos_iff.mp (Nat.pos_of_ne_zero positive)⟩
  · rintro ⟨member, uses⟩
    exact
      ⟨op, member,
        List.mem_replicate.mpr
          ⟨(List.count_pos_iff.mpr uses).ne', rfl⟩⟩

theorem falseTwins_iff {u v : OpId} :
    cg.falseTwins u v = true ↔
      (∀ p, p ∈ cg.operands u ↔ p ∈ cg.operands v) ∧
        ∀ s ∈ cg.body, u ∈ cg.operands s ↔ v ∈ cg.operands s := by
  rw [falseTwins, Bool.and_eq_true, decide_eq_true_eq, decide_eq_true_eq,
    Finset.ext_iff, Finset.ext_iff]
  simp only [List.mem_toFinset, mem_users, and_congr_right_iff]

theorem falseTwins_symm {u v : OpId} (twins : cg.falseTwins u v = true) :
    cg.falseTwins v u = true := by
  obtain ⟨operands, users⟩ := falseTwins_iff.mp twins
  exact
    falseTwins_iff.mpr
      ⟨fun p => (operands p).symm, fun s member => (users s member).symm⟩

theorem falseTwins_trans {u v w : OpId} (first : cg.falseTwins u v = true)
    (second : cg.falseTwins v w = true) : cg.falseTwins u w = true := by
  obtain ⟨operands, users⟩ := falseTwins_iff.mp first
  obtain ⟨operands', users'⟩ := falseTwins_iff.mp second
  exact
    falseTwins_iff.mpr
      ⟨fun p => (operands p).trans (operands' p), fun s member =>
        (users s member).trans (users' s member)⟩

/-- The token is taken out of all operands. -/
theorem disconnect_spec (cg : Graph) (token : OpId) :
    (cg.disconnect token).body = cg.body ∧
      ∀ op ∈ cg.body, (cg.disconnect token).ops op =
        (cg.ops op).withOperands
          ((cg.operands op).filter (· ≠ token)) := by
  have kept :
      (cg.disconnect token).body = cg.body ∧
        ∀ op, (cg.disconnect token).ops op =
          if op ∈ cg.users token then
            (cg.ops op).withOperands ((cg.operands op).filter (· ≠ token))
          else cg.ops op := by
    refine
      Loop.foldl_invariant _
        (fun done (after : Graph) => after.body = cg.body ∧
          ∀ op, after.ops op =
            if op ∈ done then
              (cg.ops op).withOperands ((cg.operands op).filter (· ≠ token))
            else cg.ops op)
        (cg.users token) cg ?_ ?_
    · rintro done user rest after split ⟨bodyEq, opsEq⟩
      refine ⟨bodyEq, ?_⟩
      intro op
      rw [setOperands_ops]
      by_cases same : op = user
      · subst same
        have operands : (after.operands op).filter (· ≠ token) =
            (cg.operands op).filter (· ≠ token) := by
          rw [Graph.operands, opsEq]
          split
          · rw [Op.withOperands_operands, List.filter_filter]
            simp
          · rfl
        have visited : op ∈ done ++ [op] := by simp
        rw [if_pos rfl, operands, if_pos visited, opsEq]
        split
        · exact Op.withOperands_withOperands ..
        · rfl
      · rw [if_neg same, opsEq]
        simp [same]
    · simp
  refine ⟨kept.1, ?_⟩
  intro op member
  rw [kept.2]
  split
  · rfl
  · rename_i unused
    rw [mem_users, not_and] at unused
    have untouched : (cg.operands op).filter (· ≠ token) = cg.operands op := by
      rw [List.filter_eq_self]
      intro operand isOperand
      rw [decide_eq_true_eq]
      rintro rfl
      exact unused member isOperand
    rw [untouched]
    rfl

/-- What a fusion tests and changes. -/
structure Fuses (cg : Graph) (u v : OpId) (uCopy vCopy : Copy1DAttrs)
    (after : Graph) : Prop where
  apart : u ≠ v
  uCopy_eq : (cg.ops u).copy1D? = some uCopy
  vCopy_eq : (cg.ops v).copy1D? = some vCopy
  twins : cg.falseTwins u v = true
  parallel : uCopy.Parallel vCopy
  touching : uCopy.touches vCopy = true
  body_eq : after.body = cg.body
  operands_eq : ∀ op ∈ cg.body,
    after.operands op = (cg.operands op).filter (· ≠ v)
  ops_eq : ∀ op ∈ cg.body, op ≠ u →
    (after.ops op).withOperands [] = (cg.ops op).withOperands []
  fused_eq : u ∈ cg.body →
    (after.ops u).copy1D? = some (uCopy.fused vCopy)

theorem tryFuse_some {u v : OpId} {after : Graph}
    (ran : cg.tryFuse u v = some after) :
    ∃ uCopy vCopy, Fuses cg u v uCopy vCopy after := by
  rw [tryFuse] at ran
  split at ran
  · rename_i uCopy vCopy uEq vEq
    split at ran
    · rename_i tests
      obtain ⟨apart, twins, fusable⟩ := tests
      obtain ⟨parallel, touching⟩ := Copy1DAttrs.fusable_iff.mp fusable
      obtain rfl := Option.some.inj ran
      obtain ⟨bodyEq, opsEq⟩ :=
        disconnect_spec
          (cg.updateOp u fun op =>
            { op with kind := .copy1D (uCopy.fused vCopy) }) v
      have operandsEq : ∀ op,
          (cg.updateOp u fun op =>
            { op with kind := .copy1D (uCopy.fused vCopy) }).operands op =
          cg.operands op := by
        intro op
        rw [Graph.operands, updateOp_ops]
        split
        · rename_i same
          rw [same]
          rfl
        · rfl
      refine ⟨uCopy, vCopy, apart, uEq, vEq, twins, parallel, touching,
        bodyEq, ?_, ?_, ?_⟩
      · intro op member
        rw [Graph.operands, opsEq op member, Op.withOperands_operands,
          operandsEq]
      · intro op member other
        rw [opsEq op member, Op.withOperands_withOperands, updateOp_ops,
          if_neg other]
      · intro member
        rw [opsEq u member, updateOp_ops, if_pos rfl]
        rfl
    · cases ran
  · cases ran

theorem tryFuse_none {u v : OpId} (ran : cg.tryFuse u v = none)
    (apart : u ≠ v) (twins : cg.falseTwins u v = true)
    {uCopy vCopy : Copy1DAttrs} (uEq : (cg.ops u).copy1D? = some uCopy)
    (vEq : (cg.ops v).copy1D? = some vCopy)
    (parallel : uCopy.Parallel vCopy) : ¬ uCopy.touches vCopy = true := by
  intro touching
  rw [tryFuse, uEq, vEq] at ran
  dsimp only at ran
  rw [if_pos
    ⟨apart, twins, Copy1DAttrs.fusable_iff.mpr ⟨parallel, touching⟩⟩] at ran
  cases ran

end Graph

/-! ## One fusion -/

/-- What the pass needs of a graph. -/
structure Fusible (cg : Graph) : Prop where
  nodup : cg.body.Nodup
  rooted : ∀ u ∈ cg.body, ∀ v ∈ cg.body, cg.operands u = [] →
    cg.operands v = [] → u = v
  unwrapped : ∀ op ∈ cg.body, ∀ copy, (cg.ops op).copy1D? = some copy →
    copy.Unwrapped

/-- Two copies that are fused once their ranges touch. -/
structure Alike (cg : Graph) (u v : OpId) : Prop where
  twins : cg.falseTwins u v = true
  parallel : ∀ uCopy vCopy, (cg.ops u).copy1D? = some uCopy →
    (cg.ops v).copy1D? = some vCopy → uCopy.Parallel vCopy

/-- How far the pass has come. -/
structure Progress (cg : Graph) (state : Fusing) : Prop where
  body_eq : state.cg.body = cg.body
  dead_nodup : state.dead.Nodup
  dead_mem : ∀ d ∈ state.dead, d ∈ cg.body
  operands_eq : ∀ op ∈ cg.body,
    state.cg.operands op = (cg.operands op).filter (· ∉ state.dead)
  other_eq : ∀ op ∈ cg.body, (cg.ops op).copy1D? = none →
    op ∉ state.dead ∧
      (state.cg.ops op).withOperands [] = (cg.ops op).withOperands []
  copy_eq : ∀ op ∈ cg.body, ∀ copy, (cg.ops op).copy1D? = some copy →
    ∃ copy', (state.cg.ops op).copy1D? = some copy' ∧
      copy'.Parallel copy ∧ copy'.Unwrapped
  covered : ∀ d ∈ state.dead, ∃ r ∈ cg.body, r ∉ state.dead ∧
    cg.falseTwins d r = true
  moves_iff : ∀ transfer,
    (∃ op ∈ cg.body, op ∉ state.dead ∧
      ∃ copy, (state.cg.ops op).copy1D? = some copy ∧
        copy.Moves transfer) ↔
      ∃ op ∈ cg.body, ∃ copy, (cg.ops op).copy1D? = some copy ∧
        copy.Moves transfer

/-- The visited copies that are left are apart from all others. -/
def Settled (cg : Graph) (done : List OpId) (state : Fusing) : Prop :=
  ∀ u ∈ done, u ∈ cg.body → u ∉ state.dead → ∀ v ∈ cg.body,
    v ∉ state.dead → u ≠ v → Alike cg u v → ∀ uCopy vCopy,
      (state.cg.ops u).copy1D? = some uCopy →
        (state.cg.ops v).copy1D? = some vCopy →
          ¬ uCopy.touches vCopy = true

namespace Progress

variable {cg : Graph} {state : Fusing} {u v : OpId}
  (progress : Progress cg state)

include progress

theorem mem_operands {op token : OpId} (member : op ∈ cg.body) :
    token ∈ state.cg.operands op ↔
      token ∈ cg.operands op ∧ token ∉ state.dead := by
  rw [progress.operands_eq op member, List.mem_filter, decide_eq_true_eq]

/-- False twins among the live ops are false twins of the original graph. -/
theorem falseTwins_iff (uLive : u ∉ state.dead) (vLive : v ∉ state.dead)
    (uMember : u ∈ cg.body) (vMember : v ∈ cg.body) :
    state.cg.falseTwins u v = true ↔ cg.falseTwins u v = true := by
  rw [Graph.falseTwins_iff, Graph.falseTwins_iff, progress.body_eq]
  apply and_congr
  · simp only [progress.mem_operands uMember, progress.mem_operands vMember]
    constructor
    · intro same p
      by_cases live : p ∈ state.dead
      · -- a live twin of the operand tells the same
        obtain ⟨r, rMember, rLive, twins⟩ := progress.covered p live
        obtain ⟨-, users⟩ := Graph.falseTwins_iff.mp twins
        have swapped := same r
        rw [and_iff_left rLive, and_iff_left rLive] at swapped
        rw [users u uMember, users v vMember]
        exact swapped
      · have swapped := same p
        rwa [and_iff_left live, and_iff_left live] at swapped
    · intro same p
      rw [same]
  · apply forall₂_congr
    intro s member
    rw [progress.mem_operands member, progress.mem_operands member,
      and_iff_left uLive, and_iff_left vLive]

/-- An op that has operands keeps one. -/
theorem operands_eq_nil (member : u ∈ cg.body)
    (empty : state.cg.operands u = []) : cg.operands u = [] := by
  rw [List.eq_nil_iff_forall_not_mem] at empty ⊢
  intro p isOperand
  by_cases live : p ∈ state.dead
  · obtain ⟨r, -, rLive, twins⟩ := progress.covered p live
    obtain ⟨-, users⟩ := Graph.falseTwins_iff.mp twins
    have uses := (users u member).mp isOperand
    exact empty r ((progress.mem_operands member).mpr ⟨uses, rLive⟩)
  · exact empty p ((progress.mem_operands member).mpr ⟨isOperand, live⟩)

/-- A live copy was one from the start. -/
theorem copy_back {op : OpId} (member : op ∈ cg.body) {copy : Copy1DAttrs}
    (isCopy : (state.cg.ops op).copy1D? = some copy) :
    copy.Unwrapped ∧ ∃ copy', (cg.ops op).copy1D? = some copy' ∧
      copy.Parallel copy' := by
  cases before : (cg.ops op).copy1D? with
  | none =>
      have same := (progress.other_eq op member before).2
      have kind := congrArg Op.copy1D? same
      change (state.cg.ops op).copy1D? = (cg.ops op).copy1D? at kind
      rw [kind, before] at isCopy
      cases isCopy
  | some copy' =>
      obtain ⟨copy'', now, parallel, unwrapped⟩ :=
        progress.copy_eq op member copy' before
      rw [isCopy, Option.some.injEq] at now
      subst now
      exact ⟨unwrapped, copy', rfl, parallel⟩

section Fuse

variable {uCopy vCopy : Copy1DAttrs} {after : Graph}
  (fuses : Graph.Fuses state.cg u v uCopy vCopy after)
  (uMember : u ∈ cg.body) (vMember : v ∈ cg.body)
  (uLive : u ∉ state.dead) (vLive : v ∉ state.dead)

include fuses

omit progress in
/-- A fusion changes no copy but the first of the two. -/
theorem copy1D?_after (bodyEq : state.cg.body = cg.body) {op : OpId}
    (member : op ∈ cg.body) (other : op ≠ u) :
    (after.ops op).copy1D? = (state.cg.ops op).copy1D? := by
  have same :=
    congrArg Op.copy1D? (fuses.ops_eq op (bodyEq ▸ member) other)
  exact same

include uMember vMember

/-- Both copies span ranges that do not wrap. -/
theorem fuses_unwrapped : uCopy.Unwrapped ∧ vCopy.Unwrapped :=
  ⟨(progress.copy_back uMember fuses.uCopy_eq).1,
    (progress.copy_back vMember fuses.vCopy_eq).1⟩

include uLive vLive

theorem fuses_twins : cg.falseTwins u v = true :=
  (progress.falseTwins_iff uLive vLive uMember vMember).mp fuses.twins

theorem moves_iff_after (transfer : Transfer) :
    (∃ op ∈ cg.body, op ∉ state.dead ++ [v] ∧
      ∃ copy, (after.ops op).copy1D? = some copy ∧ copy.Moves transfer) ↔
      ∃ op ∈ cg.body, op ∉ state.dead ∧
        ∃ copy, (state.cg.ops op).copy1D? = some copy ∧
          copy.Moves transfer := by
  obtain ⟨uUnwrapped, vUnwrapped⟩ :=
    progress.fuses_unwrapped fuses uMember vMember
  have union :=
    Copy1DAttrs.moves_fused uUnwrapped vUnwrapped fuses.parallel
      fuses.touching transfer
  have same := fun {op : OpId} (member : op ∈ cg.body) (other : op ≠ u) =>
    copy1D?_after fuses progress.body_eq member other
  have uAfter := fuses.fused_eq (progress.body_eq ▸ uMember)
  constructor
  · rintro ⟨op, member, live, copy, isCopy, moves⟩
    rw [List.mem_append, not_or] at live
    by_cases isFirst : op = u
    · subst isFirst
      rw [uAfter, Option.some.injEq] at isCopy
      subst isCopy
      rcases union.mp moves with moves | moves
      · exact ⟨op, member, live.1, uCopy, fuses.uCopy_eq, moves⟩
      · exact ⟨v, vMember, vLive, vCopy, fuses.vCopy_eq, moves⟩
    · rw [same member isFirst] at isCopy
      exact ⟨op, member, live.1, copy, isCopy, moves⟩
  · rintro ⟨op, member, live, copy, isCopy, moves⟩
    have uLive' : u ∉ state.dead ++ [v] := by
      simp [uLive, fuses.apart]
    by_cases isFirst : op = u
    · subst isFirst
      rw [fuses.uCopy_eq, Option.some.injEq] at isCopy
      subst isCopy
      exact ⟨op, member, uLive', _, uAfter, union.mpr (.inl moves)⟩
    · by_cases isSecond : op = v
      · subst isSecond
        rw [fuses.vCopy_eq, Option.some.injEq] at isCopy
        subst isCopy
        exact ⟨u, uMember, uLive', _, uAfter, union.mpr (.inr moves)⟩
      · rw [← same member isFirst] at isCopy
        exact
          ⟨op, member, by simp [live, isSecond], copy, isCopy, moves⟩

/-- A fusion keeps the invariant. -/
theorem fuse : Progress cg { cg := after, dead := state.dead ++ [v] } where
  body_eq := fuses.body_eq.trans progress.body_eq
  dead_nodup := by
    simp only
    rw [List.nodup_append]
    refine ⟨progress.dead_nodup, List.nodup_singleton v, ?_⟩
    rintro d member other isSecond rfl
    rw [List.mem_singleton] at isSecond
    exact vLive (isSecond ▸ member)
  dead_mem := by
    intro d member
    rcases List.mem_append.mp member with earlier | isSecond
    · exact progress.dead_mem d earlier
    · exact List.mem_singleton.mp isSecond ▸ vMember
  operands_eq := by
    intro op member
    rw [fuses.operands_eq op (progress.body_eq ▸ member),
      progress.operands_eq op member, List.filter_filter]
    apply List.filter_congr
    intro p _
    simp [and_comm]
  other_eq := by
    intro op member notCopy
    obtain ⟨live, same⟩ := progress.other_eq op member notCopy
    have apart : ∀ {w copy}, w ∈ cg.body →
        (state.cg.ops w).copy1D? = some copy → op ≠ w := by
      rintro w copy wMember isCopy rfl
      obtain ⟨-, copy', isCopy', -⟩ := progress.copy_back wMember isCopy
      rw [notCopy] at isCopy'
      cases isCopy'
    have notFirst := apart uMember fuses.uCopy_eq
    have notSecond := apart vMember fuses.vCopy_eq
    exact
      ⟨by simp [live, notSecond],
        (fuses.ops_eq op (progress.body_eq ▸ member) notFirst).trans same⟩
  copy_eq := by
    intro op member copy isCopy
    obtain ⟨copy', isCopy', parallel, unwrapped⟩ :=
      progress.copy_eq op member copy isCopy
    by_cases isFirst : op = u
    · subst isFirst
      rw [fuses.uCopy_eq, Option.some.injEq] at isCopy'
      subst isCopy'
      obtain ⟨uUnwrapped, vUnwrapped⟩ :=
        progress.fuses_unwrapped fuses uMember vMember
      exact
        ⟨_, fuses.fused_eq (progress.body_eq ▸ member),
          Copy1DAttrs.fused_parallel.trans parallel,
          Copy1DAttrs.fused_unwrapped uUnwrapped vUnwrapped⟩
    · exact
        ⟨copy',
          (copy1D?_after fuses progress.body_eq member isFirst).trans isCopy',
          parallel, unwrapped⟩
  covered := by
    have twins := progress.fuses_twins fuses uMember vMember uLive vLive
    have uLive' : u ∉ state.dead ++ [v] := by
      simp [uLive, fuses.apart]
    intro d member
    rcases List.mem_append.mp member with earlier | isSecond
    · obtain ⟨r, rMember, rLive, twins'⟩ := progress.covered d earlier
      by_cases isSecond : r = v
      · subst isSecond
        exact
          ⟨u, uMember, uLive',
            Graph.falseTwins_trans twins' (Graph.falseTwins_symm twins)⟩
      · exact ⟨r, rMember, by simp [rLive, isSecond], twins'⟩
    · rw [List.mem_singleton.mp isSecond]
      exact ⟨u, uMember, uLive', Graph.falseTwins_symm twins⟩
  moves_iff := by
    intro transfer
    rw [← progress.moves_iff]
    exact
      progress.moves_iff_after fuses uMember vMember uLive vLive transfer

/-- A fusion keeps the visited copies apart. -/
theorem settled_fuse {done : List OpId} (unvisited : u ∉ done)
    (settled : Settled cg done state) :
    Settled cg done { cg := after, dead := state.dead ++ [v] } := by
  intro w visited wMember wLive x xMember xLive apart alike wCopy xCopy
    wEq xEq
  simp only [List.mem_append, List.mem_singleton, not_or] at wLive xLive
  have notFirst : w ≠ u := fun same => unvisited (same ▸ visited)
  have same := fun {op : OpId} (member : op ∈ cg.body) (other : op ≠ u) =>
    copy1D?_after fuses progress.body_eq member other
  rw [show (after.ops w).copy1D? = _ from same wMember notFirst] at wEq
  by_cases isFirst : x = u
  · subst isFirst
    rw [show (after.ops x).copy1D? = _ from
      fuses.fused_eq (progress.body_eq ▸ xMember), Option.some.injEq] at xEq
    subst xEq
    have twins := progress.fuses_twins fuses uMember vMember uLive vLive
    -- the absorbed copy is of the same class
    have alike' : Alike cg w v := by
      refine ⟨Graph.falseTwins_trans alike.twins twins, ?_⟩
      intro wOld vOld wOldEq vOldEq
      obtain ⟨-, uOld, uOldEq, uParallel⟩ :=
        progress.copy_back uMember fuses.uCopy_eq
      obtain ⟨-, vOld', vOldEq', vParallel⟩ :=
        progress.copy_back vMember fuses.vCopy_eq
      rw [vOldEq, Option.some.injEq] at vOldEq'
      subst vOldEq'
      exact
        (alike.parallel wOld uOld wOldEq uOldEq).trans
          (uParallel.symm.trans (fuses.parallel.trans vParallel))
    obtain ⟨uUnwrapped, vUnwrapped⟩ :=
      progress.fuses_unwrapped fuses uMember vMember
    exact
      Copy1DAttrs.touches_fused uUnwrapped vUnwrapped
        (progress.copy_back wMember wEq).1 fuses.touching
        (settled w visited wMember wLive.1 x xMember xLive.1 apart alike
          wCopy uCopy wEq fuses.uCopy_eq)
        (settled w visited wMember wLive.1 v vMember vLive
          wLive.2 alike' wCopy vCopy wEq fuses.vCopy_eq)
  · rw [show (after.ops x).copy1D? = _ from same xMember isFirst] at xEq
    exact
      settled w visited wMember wLive.1 x xMember xLive.1 apart alike wCopy
        xCopy wEq xEq

end Fuse

end Progress

/-! ## The loops -/

theorem fuseSibling_some {state fused : Fusing} {u : OpId}
    {siblings : List OpId}
    (ran : fuseSibling state u siblings = some fused) :
    ∃ v ∈ siblings, v ∉ state.dead ∧ ∃ after,
      state.cg.tryFuse u v = some after ∧
        fused = { cg := after, dead := state.dead ++ [v] } := by
  induction siblings with
  | nil => cases ran
  | cons v rest induction =>
      rw [fuseSibling] at ran
      have later : fuseSibling state u rest = some fused →
          ∃ v' ∈ v :: rest, v' ∉ state.dead ∧ ∃ after,
            state.cg.tryFuse u v' = some after ∧
              fused = { cg := after, dead := state.dead ++ [v'] } := by
        intro ran
        obtain ⟨v', member, found⟩ := induction ran
        exact ⟨v', List.mem_cons_of_mem v member, found⟩
      split at ran
      · exact later ran
      · rename_i tested
        rw [not_or] at tested
        split at ran
        · rename_i after found
          exact
            ⟨v, List.mem_cons_self, tested.2, after, found,
              (Option.some.inj ran).symm⟩
        · exact later ran

theorem fuseSibling_none {state : Fusing} {u : OpId} {siblings : List OpId}
    (ran : fuseSibling state u siblings = none) {v : OpId}
    (member : v ∈ siblings) (apart : u ≠ v) (live : v ∉ state.dead) :
    state.cg.tryFuse u v = none := by
  induction siblings with
  | nil => cases member
  | cons first rest induction =>
      rw [fuseSibling] at ran
      split at ran
      · rename_i skipped
        rcases List.mem_cons.mp member with rfl | later
        · rcases skipped with same | dead
          · exact (apart same.symm).elim
          · exact (live dead).elim
        · exact induction ran later
      · split at ran
        · cases ran
        · rename_i none
          rcases List.mem_cons.mp member with rfl | later
          · exact none
          · exact induction ran later

section Run

variable {cg : Graph} (fusible : Fusible cg)
  {getUsers : Graph → OpId → List OpId}
  (usersPerm : ∀ cg token, (getUsers cg token).Perm (cg.users token))

include fusible usersPerm

/-- A copy with no sibling left to fuse is apart from all others. -/
theorem Progress.settled_last {state : Fusing} {done : List OpId}
    {u : OpId} (progress : Progress cg state)
    (settled : Settled cg done state)
    (stops : ∀ p0 rest, state.cg.operands u = p0 :: rest →
      fuseSibling state u (getUsers state.cg p0) = none) :
    Settled cg (done ++ [u]) state := by
  intro w visited wMember wLive v vMember vLive apart alike wCopy vCopy wEq
    vEq
  rcases List.mem_append.mp visited with earlier | isLast
  · exact
      settled w earlier wMember wLive v vMember vLive apart alike wCopy vCopy
        wEq vEq
  · obtain rfl := List.mem_singleton.mp isLast
    have twins :=
      (progress.falseTwins_iff wLive vLive wMember vMember).mpr alike.twins
    obtain ⟨sameOperands, -⟩ := Graph.falseTwins_iff.mp twins
    have parallel : wCopy.Parallel vCopy := by
      obtain ⟨-, wOld, wOldEq, wParallel⟩ := progress.copy_back wMember wEq
      obtain ⟨-, vOld, vOldEq, vParallel⟩ := progress.copy_back vMember vEq
      exact
        wParallel.trans
          ((alike.parallel wOld vOld wOldEq vOldEq).trans vParallel.symm)
    cases operands : state.cg.operands w with
    | nil =>
        have vOperands : state.cg.operands v = [] := by
          rw [List.eq_nil_iff_forall_not_mem]
          intro p isOperand
          rw [← sameOperands, operands] at isOperand
          cases isOperand
        exact
          (apart
            (fusible.rooted w wMember v vMember
              (progress.operands_eq_nil wMember operands)
              (progress.operands_eq_nil vMember vOperands))).elim
    | cons p0 rest =>
        have uses : p0 ∈ state.cg.operands v := by
          rw [← sameOperands, operands]
          exact List.mem_cons_self
        have sibling : v ∈ getUsers state.cg p0 := by
          rw [(usersPerm state.cg p0).mem_iff, Graph.mem_users,
            progress.body_eq]
          exact ⟨vMember, uses⟩
        exact
          Graph.tryFuse_none
            (fuseSibling_none (stops p0 rest operands) sibling apart vLive)
            apart twins wEq vEq parallel

/-- The inner loop ends with its copy apart from all others. -/
theorem fuseOp_spec {done : List OpId} {u : OpId} (uMember : u ∈ cg.body)
    (unvisited : u ∉ done) (fuel : Nat) {state : Fusing}
    (progress : Progress cg state) (settled : Settled cg done state)
    (uLive : u ∉ state.dead)
    (enough : cg.body.length < state.dead.length + fuel) :
    ∃ final, fuseOp getUsers u fuel state = some final ∧
      Progress cg final ∧ Settled cg (done ++ [u]) final := by
  induction fuel generalizing state with
  | zero =>
      have bound :=
        (progress.dead_nodup.subperm progress.dead_mem).length_le
      omega
  | succ fuel induction =>
      rw [fuseOp]
      split
      · rename_i empty
        refine ⟨state, rfl, progress, ?_⟩
        apply progress.settled_last fusible usersPerm settled
        intro p0 rest operands
        rw [empty] at operands
        cases operands
      · rename_i p0 rest operands
        split
        · rename_i fused ran
          obtain ⟨v, sibling, vLive, after, found, rfl⟩ :=
            fuseSibling_some ran
          obtain ⟨uCopy, vCopy, fuses⟩ := Graph.tryFuse_some found
          have vMember : v ∈ cg.body := by
            rw [(usersPerm state.cg p0).mem_iff, Graph.mem_users,
              progress.body_eq] at sibling
            exact sibling.1
          refine
            induction (progress.fuse fuses uMember vMember uLive vLive)
              (progress.settled_fuse fuses uMember vMember uLive vLive
                unvisited settled) ?_ ?_
          · simp [uLive, fuses.apart]
          · simp only [List.length_append, List.length_singleton]
            omega
        · rename_i ran
          refine ⟨state, rfl, progress, ?_⟩
          apply progress.settled_last fusible usersPerm settled
          intro p0' rest' operands'
          rw [operands, List.cons.injEq] at operands'
          rw [← operands'.1]
          exact ran

end Run

/-- Before the first copy is visited. -/
theorem progress_nil {cg : Graph} (fusible : Fusible cg) :
    Progress cg { cg := cg, dead := [] } where
  body_eq := rfl
  dead_nodup := List.nodup_nil
  dead_mem := by simp
  operands_eq := by simp
  other_eq := by simp
  copy_eq := fun op member copy isCopy =>
    ⟨copy, isCopy, ⟨rfl, rfl, rfl⟩, fusible.unwrapped op member copy isCopy⟩
  covered := by simp
  moves_iff := by simp

/-! ## The result -/

/-- The bytes that the copies of a graph move. -/
def Graph.Moves (cg : Graph) (transfer : Transfer) : Prop :=
  ∃ op ∈ cg.body, ∃ copy, (cg.ops op).copy1D? = some copy ∧
    copy.Moves transfer

/-- Two copies that could still be fused. -/
structure Unfused (cg : Graph) (u v : OpId) : Prop where
  apart : u ≠ v
  twins : cg.falseTwins u v = true
  close : ∃ uCopy vCopy, (cg.ops u).copy1D? = some uCopy ∧
    (cg.ops v).copy1D? = some vCopy ∧ uCopy.Parallel vCopy ∧
      uCopy.srcAddr.toNat ≤ vCopy.srcEnd ∧
        vCopy.srcAddr.toNat ≤ uCopy.srcEnd

/-- The copies were fused without loss, and as far as possible. -/
structure CopyFused (before after : Graph) : Prop where
  survivors : after.body.Sublist before.body
  others : ∀ op ∈ before.body, (before.ops op).copy1D? = none →
    op ∈ after.body ∧
      (after.ops op).withOperands [] = (before.ops op).withOperands []
  copies : ∀ op ∈ after.body, ∀ copy, (after.ops op).copy1D? = some copy →
    copy.Unwrapped ∧ ∃ copy', (before.ops op).copy1D? = some copy' ∧
      copy.Parallel copy'
  closed : ∀ op ∈ after.body, ∀ p ∈ after.operands op, p ∈ before.body →
    p ∈ after.body
  moves_iff : ∀ transfer, after.Moves transfer ↔ before.Moves transfer
  reach_iff : ∀ u ∈ after.body, ∀ v ∈ after.body,
    ReflTransGen (OpEdge after) u v ↔ ReflTransGen (OpEdge before) u v
  complete : ∀ u ∈ after.body, ∀ v ∈ after.body, ¬ Unfused after u v

/-- Erasing the dead ops leaves the others. -/
theorem erase_dead (dead : List OpId) {cg : Graph} (nodup : cg.body.Nodup) :
    (dead.foldl Graph.erase cg).ops = cg.ops ∧
      (dead.foldl Graph.erase cg).body.Sublist cg.body ∧
        ∀ op, op ∈ (dead.foldl Graph.erase cg).body ↔
          op ∈ cg.body ∧ op ∉ dead := by
  induction dead generalizing cg with
  | nil => exact ⟨rfl, .refl _, by simp⟩
  | cons d rest induction =>
      obtain ⟨ops, sublist, members⟩ :=
        @induction (cg.erase d) (nodup.erase d)
      rw [List.foldl_cons]
      refine ⟨ops, sublist.trans List.erase_sublist, ?_⟩
      intro op
      rw [members, Graph.erase, nodup.mem_erase_iff, List.mem_cons, not_or]
      tauto

section Result

variable {cg : Graph} {state : Fusing} {after : Graph}
  (progress : Progress cg state) (ops_eq : after.ops = state.cg.ops)
  (mem_body : ∀ op, op ∈ after.body ↔ op ∈ cg.body ∧ op ∉ state.dead)

include progress ops_eq mem_body

/-- Tokens between ops that are left. -/
theorem opEdge_after_iff (p s : OpId) :
    OpEdge after p s ↔ OpEdge cg p s ∧ s ∉ state.dead ∧ p ∉ state.dead := by
  unfold OpEdge
  rw [mem_body, Graph.operands, ops_eq]
  constructor
  · rintro ⟨⟨member, live⟩, uses⟩
    obtain ⟨uses, live'⟩ := (progress.mem_operands member).mp uses
    exact ⟨⟨member, uses⟩, live, live'⟩
  · rintro ⟨⟨member, uses⟩, live, live'⟩
    exact ⟨⟨member, live⟩, (progress.mem_operands member).mpr ⟨uses, live'⟩⟩

/-- Paths lead through the live twins of fused ops. -/
theorem reach_after_iff {u v : OpId} (uLive : u ∉ state.dead)
    (vLive : v ∉ state.dead) :
    ReflTransGen (OpEdge after) u v ↔ ReflTransGen (OpEdge cg) u v := by
  have edgeIff := opEdge_after_iff progress ops_eq mem_body
  have twin : ∀ op, ∃ r, r ∉ state.dead ∧ (op ∈ cg.body → r ∈ cg.body) ∧
      cg.falseTwins op r = true ∧ (op ∉ state.dead → r = op) := by
    intro op
    by_cases live : op ∈ state.dead
    · obtain ⟨r, member, rLive, twins⟩ := progress.covered op live
      exact ⟨r, rLive, fun _ => member, twins, fun alive => (alive live).elim⟩
    · have self : cg.falseTwins op op = true :=
        Graph.falseTwins_iff.mpr ⟨fun _ => Iff.rfl, fun _ _ => Iff.rfl⟩
      exact ⟨op, live, id, self, fun _ => rfl⟩
  choose place placeLive placeMember placeTwins placeSelf using twin
  constructor
  · exact ReflTransGen.mono (fun p s edge => ((edgeIff p s).mp edge).1) u v
  · intro path
    have lifted : ReflTransGen (OpEdge after) (place u) (place v) := by
      refine ReflTransGen.lift place ?_ u v path
      rintro p s ⟨member, uses⟩
      refine
        (edgeIff _ _).mpr
          ⟨⟨placeMember s member, ?_⟩, placeLive s, placeLive p⟩
      obtain ⟨operands, -⟩ := Graph.falseTwins_iff.mp (placeTwins s)
      obtain ⟨-, users⟩ := Graph.falseTwins_iff.mp (placeTwins p)
      rw [← users (place s) (placeMember s member), ← operands]
      exact uses
    rwa [placeSelf u uLive, placeSelf v vLive] at lifted

/-- Twins among the ops that are left were twins before. -/
theorem falseTwins_of_after {u v : OpId} (uMember : u ∈ after.body)
    (vMember : v ∈ after.body) (twins : after.falseTwins u v = true) :
    cg.falseTwins u v = true := by
  obtain ⟨uOld, uLive⟩ := (mem_body u).mp uMember
  obtain ⟨vOld, vLive⟩ := (mem_body v).mp vMember
  rw [← progress.falseTwins_iff uLive vLive uOld vOld]
  obtain ⟨operands, users⟩ := Graph.falseTwins_iff.mp twins
  simp only [Graph.operands, ops_eq] at operands users
  refine Graph.falseTwins_iff.mpr ⟨operands, ?_⟩
  intro s member
  rw [progress.body_eq] at member
  by_cases live : s ∈ state.dead
  · -- a dead user has the operands of a live one
    obtain ⟨r, rMember, rLive, same⟩ := progress.covered s live
    obtain ⟨sameOperands, -⟩ := Graph.falseTwins_iff.mp same
    have onTwin := users r ((mem_body r).mpr ⟨rMember, rLive⟩)
    have onTwin' :
        u ∈ state.cg.operands r ↔ v ∈ state.cg.operands r := onTwin
    rw [progress.mem_operands rMember, progress.mem_operands rMember]
      at onTwin'
    rw [progress.mem_operands member, progress.mem_operands member,
      sameOperands, sameOperands]
    exact onTwin'
  · exact users s ((mem_body s).mpr ⟨member, live⟩)

end Result

/-- The pass ends, and fuses the copies without loss as far as possible. -/
theorem copyFuse_spec {cg : Graph} (fusible : Fusible cg)
    {getUsers : Graph → OpId → List OpId}
    (usersPerm : ∀ cg token, (getUsers cg token).Perm (cg.users token)) :
    ∃ after, copyFuse getUsers cg = some after ∧ CopyFused cg after := by
  let work := cg.body.filter fun op => (cg.ops op).copy1D?.isSome
  have workNodup : work.Nodup := fusible.nodup.filter _
  obtain ⟨state, ran, progress, settled⟩ :=
    Loop.foldlM_invariant (fuseNext getUsers)
      (fun done state => Progress cg state ∧ Settled cg done state) work
      { cg := cg, dead := [] }
      (by
        rintro done u rest state split ⟨progress, settled⟩
        have inWork : u ∈ work := by simp [split]
        have uMember := (List.mem_filter.mp inWork).1
        have unvisited : u ∉ done := by
          rw [split, List.nodup_middle, List.nodup_cons] at workNodup
          exact fun earlier =>
            workNodup.1 (List.mem_append_left rest earlier)
        rw [fuseNext]
        split
        · rename_i dead
          refine ⟨state, rfl, progress, ?_⟩
          intro w visited wMember wLive
          rcases List.mem_append.mp visited with earlier | isLast
          · exact settled w earlier wMember wLive
          · exact (wLive (List.mem_singleton.mp isLast ▸ dead)).elim
        · rename_i live
          apply fuseOp_spec fusible usersPerm uMember unvisited _ progress
            settled live
          rw [progress.body_eq]
          omega)
      ⟨progress_nil fusible, fun u visited =>
        (List.not_mem_nil visited).elim⟩
  obtain ⟨opsEq, sublist, members⟩ :=
    @erase_dead state.dead state.cg (progress.body_eq ▸ fusible.nodup)
  rw [progress.body_eq] at sublist members
  refine ⟨state.dead.foldl Graph.erase state.cg, ?_, ?_⟩
  · simp only [copyFuse, Option.bind_eq_bind]
    rw [show List.foldlM _ _ _ = some state from ran]
    rfl
  generalize state.dead.foldl Graph.erase state.cg = after at *
  exact {
    survivors := sublist
    others := by
      intro op member notCopy
      obtain ⟨live, same⟩ := progress.other_eq op member notCopy
      rw [members, opsEq]
      exact ⟨⟨member, live⟩, same⟩
    copies := by
      intro op member copy isCopy
      rw [opsEq] at isCopy
      exact progress.copy_back ((members op).mp member).1 isCopy
    closed := by
      intro op member p uses old
      obtain ⟨-, -, live⟩ :=
        (opEdge_after_iff progress opsEq members p op).mp ⟨member, uses⟩
      exact (members p).mpr ⟨old, live⟩
    moves_iff := by
      intro transfer
      rw [Graph.Moves, Graph.Moves, ← progress.moves_iff, opsEq]
      simp only [members, and_assoc]
    reach_iff := by
      intro u uMember v vMember
      exact
        reach_after_iff progress opsEq members ((members u).mp uMember).2
          ((members v).mp vMember).2
    complete := by
      rintro u uMember v vMember
        ⟨apart, twins, uCopy, vCopy, uEq, vEq, parallel, touching⟩
      rw [opsEq] at uEq vEq
      obtain ⟨uOld, uLive⟩ := (members u).mp uMember
      obtain ⟨vOld, vLive⟩ := (members v).mp vMember
      obtain ⟨uUnwrapped, uBefore, uBeforeEq, uParallel⟩ :=
        progress.copy_back uOld uEq
      obtain ⟨vUnwrapped, vBefore, vBeforeEq, vParallel⟩ :=
        progress.copy_back vOld vEq
      have alike : Alike cg u v := by
        refine
          ⟨falseTwins_of_after progress opsEq members uMember vMember twins,
            ?_⟩
        intro uFirst vFirst uFirstEq vFirstEq
        rw [uBeforeEq, Option.some.injEq] at uFirstEq
        rw [vBeforeEq, Option.some.injEq] at vFirstEq
        subst uFirstEq vFirstEq
        exact uParallel.symm.trans (parallel.trans vParallel)
      have inWork : u ∈ work := by
        rw [List.mem_filter]
        exact ⟨uOld, by rw [uBeforeEq]; rfl⟩
      exact
        settled u inWork uOld uLive v vOld vLive apart alike uCopy vCopy uEq
          vEq ((Copy1DAttrs.touches_iff uUnwrapped vUnwrapped).mpr touching) }

/-! ## Imported graphs -/

/-- A `cg.copy_1d` that import made holds the copy of its node. -/
theorem copy1D?_created {node : CommandGraphNode} {isEntry isExit : Bool}
    {op : Op} (created : createNodeOp node isEntry isExit = some op)
    {copy : Copy1DAttrs} (isCopy : op.copy1D? = some copy) :
    ∃ direction original, node.command = some (.copy1D direction original) ∧
      copy = Copy1DAttrs.ofCopy direction original := by
  unfold createNodeOp at created
  cases type : node.type with
  | empty =>
      rw [type] at created
      cases created
      cases isCopy
  | command =>
      rw [type] at created
      obtain ⟨command, held, rfl⟩ := Option.map_eq_some_iff.mp created
      cases command with
      | copy1D direction original =>
          cases isCopy
          exact ⟨direction, original, held, rfl⟩
      | _ => cases isCopy
  | commandGraph =>
      rw [type] at created
      cases created
  | condition =>
      rw [type] at created
      cases created

/-- The 1-D copies of a graph end within the address space. -/
def SourcesUnwrapped (heap : Heap) (graph : GraphId) : Prop :=
  ∀ node direction copy, heap.Reachable graph node →
    (heap.nodes node).command = some (.copy1D direction copy) →
      copy.srcDeviceAddr.toNat + copy.size.toNat < 2 ^ 64

/-- A command that is no 1-D copy, or a copy within the address space. -/
def sourceUnwrapped : Option Command → Bool
  | some (.copy1D _ copy) =>
      decide (copy.srcDeviceAddr.toNat + copy.size.toNat < 2 ^ 64)
  | _ => true

theorem sourcesUnwrapped_of_numbered {heap : Heap} {graph : GraphId}
    (numbered : heap.Numbered graph)
    (all : ∀ node < heap.nodeCount,
      sourceUnwrapped (heap.nodes node).command = true) :
    SourcesUnwrapped heap graph := by
  intro node direction copy reachable held
  have small := all node (numbered.lt_of_reachable reachable)
  rw [held] at small
  exact of_decide_eq_true small

/-- An imported graph of copies that do not wrap can be fused. -/
theorem fusible_of_imported {iterators : Iterators} {cg : Graph}
    (imported : Imported iterators cg) (valid : iterators.Valid)
    (formed : iterators.heap.WellFormed iterators.graph)
    (unwrapped : SourcesUnwrapped iterators.heap iterators.graph) :
    Fusible cg := by
  have reachable : ∀ {i}, i ∈ cg.body → i < iterators.count ∧
      iterators.heap.Reachable iterators.graph (iterators.node i) := by
    intro i member
    rw [imported.body_eq, List.mem_range] at member
    exact ⟨member, (valid.mem_iff _).mp (Iterators.node_mem member)⟩
  -- only the entry has no predecessor
  have isEntry : ∀ {i}, i ∈ cg.body → cg.operands i = [] →
      iterators.node i = (iterators.heap.graphs iterators.graph).entry := by
    intro i member empty
    obtain ⟨bound, inside⟩ := reachable member
    rw [Graph.operands, (imported.encodes i bound).operands_eq,
      List.map_eq_nil_iff] at empty
    rcases ReflTransGen.cases_tail inside with same | ⟨pred, before, step⟩
    · exact same
    · have isPred :=
        (formed.mem_predecessors _ inside pred).mpr ⟨before, step⟩
      rw [empty] at isPred
      cases isPred
  exact {
    nodup := by
      rw [imported.body_eq]
      exact List.nodup_range
    rooted := by
      intro u uMember v vMember uEmpty vEmpty
      have same :=
        (isEntry uMember uEmpty).trans (isEntry vMember vEmpty).symm
      rw [← valid.index_node (reachable uMember).1, same,
        valid.index_node (reachable vMember).1]
    unwrapped := by
      intro op member copy isCopy
      obtain ⟨bound, inside⟩ := reachable member
      obtain ⟨direction, original, held, rfl⟩ :=
        copy1D?_created (imported.encodes op bound).created isCopy
      exact unwrapped _ direction original inside held }

/--
Import and the copy-fuse pass return.  The surviving copies move the bytes of the
original ones, the surviving ops reach each other as before, and no two of the
copies could be fused.
-/
theorem copyFuse_imported (heap : Heap) (graph : GraphId)
    (formed : heap.WellFormed graph) (ready : heap.WalkReady graph)
    (importable : ∀ node, heap.Reachable graph node →
      Importable (heap.nodes node))
    (unwrapped : SourcesUnwrapped heap graph)
    (getUsers : Graph → OpId → List OpId)
    (usersPerm : ∀ cg token, (getUsers cg token).Perm (cg.users token)) :
    ∃ indexed cg after, importCommandGraph heap graph = some (indexed, cg) ∧
      copyFuse getUsers cg = some after ∧ CopyFused cg after := by
  obtain ⟨indexed, nodes, cg, ran, iterated, imported⟩ :=
    importCommandGraph_spec formed ready importable
  have same := iterated.unmarked_eq
  have unwrapped' : SourcesUnwrapped indexed graph := by
    intro node direction copy reachable held
    rw [Heap.reachable_congr same] at reachable
    rw [Heap.unmarked_command same] at held
    exact unwrapped node direction copy reachable held
  have fusible :=
    fusible_of_imported imported (Iterators.valid_of_iterated iterated)
      (formed.congr same) unwrapped'
  obtain ⟨after, fused, result⟩ := copyFuse_spec fusible usersPerm
  exact ⟨indexed, cg, after, ran, fused, result⟩

/-- Two adjacent copies side by side, and a third one apart from both. -/
def copySiblings : Heap :=
  Heap.ofNodes
    [Heap.linkedNode unspecifiedDeviceUniqueId .empty [] [1, 2, 3],
      { Heap.linkedNode 0 .command [0] [4] with
        command := some (.copy1D .h2d {
          srcDeviceUniqueId := 254
          dstDeviceUniqueId := 0
          srcDeviceAddr := 4096
          dstDeviceAddr := 8192
          size := 256 }) },
      { Heap.linkedNode 0 .command [0] [4] with
        command := some (.copy1D .h2d {
          srcDeviceUniqueId := 254
          dstDeviceUniqueId := 0
          srcDeviceAddr := 4352
          dstDeviceAddr := 8448
          size := 128 }) },
      { Heap.linkedNode 0 .command [0] [4] with
        command := some (.copy1D .h2d {
          srcDeviceUniqueId := 254
          dstDeviceUniqueId := 0
          srcDeviceAddr := 5000
          dstDeviceAddr := 9096
          size := 16 }) },
      Heap.linkedNode unspecifiedDeviceUniqueId .empty [1, 2, 3] []]
    { entry := 0, exit := 4, walkId := 0, isSequence := false }

theorem copyFuse_imported_copySiblings :
    ∃ indexed cg after, importCommandGraph copySiblings 0 =
        some (indexed, cg) ∧
      copyFuse Graph.users cg = some after ∧ CopyFused cg after := by
  have numbered : copySiblings.Numbered 0 := by decide
  refine
    copyFuse_imported copySiblings 0 numbered.wellFormed
      (numbered.walkReady (by decide)) ?_ ?_ Graph.users
      (fun _ _ => .refl _)
  · have all : ∀ node < copySiblings.nodeCount,
        Importable (copySiblings.nodes node) := by decide
    exact fun node reachable => all node (numbered.lt_of_reachable reachable)
  · exact sourcesUnwrapped_of_numbered numbered (by decide)

/-- The second copy is fused into the first; the exit and the third stay. -/
example :
    ((importCommandGraph copySiblings 0).bind fun imported =>
        (copyFuse Graph.users imported.2).map fun after =>
          after.body.map fun op =>
            (after.ops op).copy1D?.map fun copy =>
              (copy.srcAddr, copy.size)) =
      some [none, some (4096, 384), none, some (5000, 16)] := by
  decide

end Cgir.Mlir
