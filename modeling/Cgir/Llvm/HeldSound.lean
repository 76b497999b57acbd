import Cgir.Llvm.ArgsRuns
import Cgir.Llvm.Held

/-!
# Ownership of buffers over fusions and compilations

Both passes keep the custody of the buffers of all programs sound: no buffer is
freed twice, and no program refers to a freed one.  `calls_disciplined_iff` says
in which runs they lose no buffer either.
-/

namespace Cgir.Llvm

open Cgir.Library Cgir.Model

namespace ProgStore

/-! ## Custody -/

/-- Which pointers hold and own which buffers. -/
def custody (store : ProgStore) : Custody (ProgId × BufferField) where
  held := fun slot => (store.progs slot.1).pointer slot.2
  owned := fun slot => (store.progs slot.1).flag slot.2
  next := store.next
  freed := store.freed

section Assign

variable (store : ProgStore) (p : ProgId) (field : BufferField)

@[simp] theorem free_progs :
    (store.free p field).progs = store.progs := by
  unfold free
  split
  · rfl
  · rfl

@[simp] theorem free_next :
    (store.free p field).next = store.next := by
  unfold free
  split
  · rfl
  · rfl

theorem free_freed : (store.free p field).freed =
    store.freed ++ store.custody.disposed (p, field) := by
  unfold free
  cases flag : (store.progs p).flag field with
  | false => simp [owns, flag, Custody.disposed, custody]
  | true =>
      cases pointer : (store.progs p).pointer field with
      | none => simp [owns, flag, pointer, Custody.disposed, custody]
      | some buffer => simp [owns, flag, pointer, Custody.disposed, custody]

variable {store p field}

/-- Assigning to one pointer, after freeing it or not, is a write. -/
theorem custody_assign (frees : Prop) [Decidable frees] (fresh : Bool)
    {change : HeldProg → HeldProg}
    (pointer_eq : (change (store.progs p)).pointer =
      Function.update (store.progs p).pointer field
        (if fresh then some store.next else none))
    (flag_eq : (change (store.progs p)).flag =
      Function.update (store.progs p).flag field fresh) :
    ((if frees then store.free p field else store).assign p fresh
        change).custody =
      store.custody.put ⟨(p, field), decide frees, fresh⟩ := by
  have progs : (if frees then store.free p field else store).progs =
      store.progs := by
    split
    · exact free_progs store p field
    · rfl
  have next : (if frees then store.free p field else store).next =
      store.next := by
    split
    · exact free_next store p field
    · rfl
  have onSlots : ∀ {Value : Type} (read : HeldProg → BufferField → Value)
      (value : Value), read (change (store.progs p)) =
          Function.update (read (store.progs p)) field value →
        (fun slot : ProgId × BufferField =>
          read (Function.update store.progs p (change (store.progs p)) slot.1)
            slot.2) =
          Function.update
            (fun slot : ProgId × BufferField =>
              read (store.progs slot.1) slot.2) (p, field) value := by
    intro Value read value same
    funext ⟨q, other⟩
    by_cases isProg : q = p
    · subst isProg
      rw [Function.update_self, same]
      by_cases isField : other = field
      · subst isField
        rw [Function.update_self, Function.update_self]
      · rw [Function.update_of_ne isField, Function.update_of_ne]
        exact fun pair => isField (Prod.mk.inj pair).2
    · rw [Function.update_of_ne isProg, Function.update_of_ne]
      exact fun pair => isProg (Prod.mk.inj pair).1
  apply Custody.ext
  · simp only [custody, assign, progs]
    exact onSlots HeldProg.pointer _ pointer_eq
  · simp only [custody, assign, progs]
    exact onSlots HeldProg.flag _ flag_eq
  · simp only [custody, assign, next]
    rfl
  · by_cases isFreed : frees
    · simp only [custody, assign, Custody.put, isFreed, if_true, decide_true]
      exact free_freed store p field
    · simp only [custody, assign, Custody.put, isFreed, if_false, decide_false]
      exact (List.append_nil _).symm

end Assign

/-! ## Writes -/

section Writes

variable (store : ProgStore) (p dst : ProgId)

theorem custody_installBitcode (packed device : Bool)
    (bitcode : RawSource) :
    (store.installBitcode dst packed device bitcode).custody =
      store.custody.put
        ⟨(dst, .raw), decide ((store.progs dst).prog.source.type = .llvmir),
          true⟩ := by
  have write := fun change =>
    @custody_assign store dst .raw
      ((store.progs dst).prog.source.type = .llvmir) _ true change
  unfold installBitcode
  apply write
  · rfl
  · funext field
    cases field <;> rfl

theorem custody_installSource (packed device : Bool) (bitcode : RawSource) :
    (store.installSource dst packed device bitcode).custody =
      store.custody.puts
        [⟨(dst, .raw), decide ((store.progs dst).prog.source.type = .llvmir),
            true⟩,
          ⟨(dst, .params), false, false⟩] := by
  rw [Custody.puts, List.foldl_cons, List.foldl_cons, List.foldl_nil,
    ← custody_installBitcode store dst packed device bitcode]
  exact
    custody_assign False false rfl (by funext field; cases field <;> rfl)

theorem custody_installExterns (merged : List CommandProgExtern) :
    (store.installExterns dst merged).custody =
      store.custody.put ⟨(dst, .externs), true, !merged.isEmpty⟩ :=
  custody_assign True _ rfl (by funext field; cases field <;> rfl)

theorem custody_installArgs (first : CommandProg) (packed : Bool)
    (args : ArgsBuffer) (nArgs : Nat) :
    (store.installArgs dst first packed args nArgs).custody =
      store.custody.put ⟨(dst, .args), true, true⟩ :=
  custody_assign True true rfl (by funext field; cases field <;> rfl)

theorem custody_replaceSource (ptx : String) :
    (store.replaceSource p ptx).custody =
      store.custody.put ⟨(p, .raw), true, true⟩ :=
  custody_assign True true rfl (by funext field; cases field <;> rfl)

theorem custody_replaceArgs (code : Address) (bytes : List (BitVec 8)) :
    (store.replaceArgs p code bytes).custody =
      store.custody.put ⟨(p, .args), true, true⟩ :=
  custody_assign True true rfl (by funext field; cases field <;> rfl)

theorem custody_installLauncher (prototype : FunctionPrototype)
    (code : Address) :
    (store.installLauncher p prototype code).custody = store.custody := by
  have kept : ∀ {Value : Type} (read : HeldProg → BufferField → Value)
      (changed : HeldProg), read changed = read (store.progs p) →
        (fun slot : ProgId × BufferField =>
          read (Function.update store.progs p changed slot.1) slot.2) =
          fun slot => read (store.progs slot.1) slot.2 := by
    intro Value read changed same
    funext ⟨q, field⟩
    by_cases isProg : q = p
    · subst isProg
      rw [Function.update_self, same]
    · rw [Function.update_of_ne isProg]
  apply Custody.ext
  · exact kept HeldProg.pointer _ rfl
  · exact kept HeldProg.flag _ (by funext field; cases field <;> rfl)
  · rfl
  · rfl

end Writes

/-- The custody changes by writes that free what they overwrite. -/
def FreeingWrites (before after : ProgStore) : Prop :=
  ∃ writes, (∀ write ∈ writes, write.frees = true) ∧
    after.custody = before.custody.puts writes

namespace FreeingWrites

variable {before middle after store : ProgStore}

theorem refl (store : ProgStore) : FreeingWrites store store :=
  ⟨[], fun _ member => (List.not_mem_nil member).elim, rfl⟩

theorem single {write : Write (ProgId × BufferField)}
    (frees : write.frees = true)
    (written : after.custody = before.custody.put write) :
    FreeingWrites before after := by
  refine ⟨[write], ?_, written⟩
  intro other member
  rw [List.mem_singleton.mp member]
  exact frees

theorem trans (first : FreeingWrites before middle)
    (second : FreeingWrites middle after) : FreeingWrites before after := by
  obtain ⟨writes, frees, written⟩ := first
  obtain ⟨later, laterFrees, laterWritten⟩ := second
  refine ⟨writes ++ later, ?_, ?_⟩
  · intro write member
    rcases List.mem_append.mp member with inFirst | inLater
    · exact frees write inFirst
    · exact laterFrees write inLater
  · rw [laterWritten, written, Custody.puts, Custody.puts, Custody.puts,
      List.foldl_append]

/-- A consumed program is written by freeing writes only. -/
theorem releaseInput (dst p : ProgId) :
    FreeingWrites store (store.releaseInput dst p) := by
  unfold ProgStore.releaseInput
  split
  · exact refl store
  · have raw : FreeingWrites store (store.releaseRaw p) := by
      unfold releaseRaw
      split
      · exact
          single rfl
            (custody_assign True false rfl
              (by funext field; cases field <;> rfl))
      · exact refl store
    have args : ∀ store : ProgStore,
        FreeingWrites store (store.releaseArgs p) := by
      intro store
      unfold releaseArgs
      split
      · exact
          single rfl
            (custody_assign True false rfl
              (by funext field; cases field <;> rfl))
      · exact refl store
    have externs : ∀ store : ProgStore,
        FreeingWrites store (store.releaseExterns p) := by
      intro store
      unfold releaseExterns
      split
      · exact
          single rfl
            (custody_assign True false rfl
              (by funext field; cases field <;> rfl))
      · exact refl store
    exact raw.trans ((args _).trans (externs _))

theorem releaseInputs (dst : ProgId) (progs : List ProgId) :
    FreeingWrites store
      (progs.foldl (fun store p => store.releaseInput dst p) store) := by
  induction progs generalizing store with
  | nil => exact refl store
  | cons p rest induction => exact (releaseInput dst p).trans induction

end FreeingWrites

/-- What a compilation that returns did. -/
theorem jitLlvmir_cases {store after : ProgStore} {memory : Memory}
    {code : Address} {ptx : String} {p : ProgId}
    (returned : store.jitLlvmir memory code ptx p = some after) :
    ∃ module, parseLlvmir (store.progs p).prog.source = some module ∧
      ((jitSelect (store.progs p).prog.source.symbol module = none ∧
          after = store) ∨
        ∃ entry, jitSelect (store.progs p).prog.source.symbol module =
            some entry ∧
          (((store.progs p).prog.source.triple.isSome = true ∧
              after = store.replaceSource p ptx) ∨
            (store.progs p).prog.source.triple.isSome = false ∧
              ((isVoidPtrSize entry = true ∧
                  ((∃ bytes, jitPack memory (store.progs p).prog =
                      some bytes ∧ after = store.replaceArgs p code bytes) ∨
                    (jitPack memory (store.progs p).prog = none ∧
                      after = store.installLauncher p .packed code))) ∨
                (isVoidPtrSize entry = false ∧
                  after = store.installLauncher p .variadic code)))) := by
  unfold jitLlvmir at returned
  dsimp only at returned
  cases parsed : parseLlvmir (store.progs p).prog.source with
  | none =>
      rw [parsed] at returned
      cases returned
  | some module =>
      refine ⟨module, rfl, ?_⟩
      rw [parsed, Option.bind_eq_bind, Option.bind_some] at returned
      cases selected :
          jitSelect (store.progs p).prog.source.symbol module with
      | none =>
          rw [selected] at returned
          exact Or.inl ⟨rfl, (Option.some.inj returned).symm⟩
      | some entry =>
          rw [selected] at returned
          refine Or.inr ⟨entry, rfl, ?_⟩
          dsimp only at returned
          cases device : (store.progs p).prog.source.triple.isSome with
          | true =>
              rw [device, if_pos rfl] at returned
              exact Or.inl ⟨rfl, (Option.some.inj returned).symm⟩
          | false =>
              rw [device, if_neg Bool.false_ne_true] at returned
              refine Or.inr ⟨rfl, ?_⟩
              cases packed : isVoidPtrSize entry with
              | false =>
                  rw [packed, if_neg Bool.false_ne_true] at returned
                  exact Or.inr ⟨rfl, (Option.some.inj returned).symm⟩
              | true =>
                  rw [packed, if_pos rfl] at returned
                  refine Or.inl ⟨rfl, ?_⟩
                  cases packs : jitPack memory (store.progs p).prog with
                  | none =>
                      rw [packs] at returned
                      exact Or.inr ⟨rfl, (Option.some.inj returned).symm⟩
                  | some bytes =>
                      rw [packs] at returned
                      exact
                        Or.inl
                          ⟨bytes, rfl, (Option.some.inj returned).symm⟩

/-- Compilation writes by freeing writes only. -/
theorem jitLlvmir_writes {store after : ProgStore} {memory : Memory}
    {code : Address} {ptx : String} {p : ProgId}
    (returned : store.jitLlvmir memory code ptx p = some after) :
    FreeingWrites store after := by
  have launcher : ∀ prototype,
      FreeingWrites store (store.installLauncher p prototype code) := by
    intro prototype
    refine ⟨[], fun _ member => (List.not_mem_nil member).elim, ?_⟩
    exact custody_installLauncher store p prototype code
  obtain ⟨module, -, ⟨-, rfl⟩ | ⟨entry, -, ⟨-, rfl⟩ | ⟨-,
    ⟨-, ⟨bytes, -, rfl⟩ | ⟨-, rfl⟩⟩ | ⟨-, rfl⟩⟩⟩⟩ :=
    jitLlvmir_cases returned
  · exact FreeingWrites.refl _
  · exact FreeingWrites.single rfl (custody_replaceSource store p ptx)
  · exact FreeingWrites.single rfl (custody_replaceArgs store p code bytes)
  · exact launcher .packed
  · exact launcher .variadic

/-- Fusion writes the source and the params table first, then frees. -/
theorem fuseLlvmir_writes {env : FuseEnv} {store after : ProgStore}
    {memory : Memory} {progs : List ProgId} {dst : ProgId}
    (returned : store.fuseLlvmir env memory progs dst = some after) :
    ∃ writes, (∀ write ∈ writes, write.frees = true) ∧
      after.custody = store.custody.puts
        (⟨(dst, .raw), decide ((store.progs dst).prog.source.type = .llvmir),
            true⟩ ::
          ⟨(dst, .params), false, false⟩ :: writes) := by
  simp only [fuseLlvmir, Option.bind_eq_bind, Option.bind_eq_some_iff,
    Option.pure_def, Option.some.injEq] at returned
  obtain ⟨-, -, first, -, ⟨inputs, dedup⟩, -, rfl⟩ := returned
  obtain ⟨writes, frees, written⟩ :=
    (FreeingWrites.single rfl
      (custody_installExterns
        (store.installSource dst
          (packedOutput env (store.values progs) inputs)
          (isDeviceChain (store.values progs))
          (.module (env.link inputs
            (fusedEntry env (store.values progs) inputs dedup))))
        dst (mergeExterns (store.values progs)))).trans
      ((FreeingWrites.single rfl
        (custody_installArgs _ dst first
          (packedOutput env (store.values progs) inputs)
          (fusedArgs env memory (store.values progs) inputs dedup)
          dedup.table.entries.length)).trans
        (FreeingWrites.releaseInputs dst progs))
  refine ⟨writes, frees, written.trans ?_⟩
  rw [custody_installSource]
  rfl

/-! ## Values -/

section Values

variable {store after : ProgStore} {env : FuseEnv} {memory : Memory}

theorem assign_progs_self (p : ProgId) (fresh : Bool)
    (change : HeldProg → HeldProg) :
    (store.assign p fresh change).progs p = change (store.progs p) :=
  Function.update_self ..

theorem assign_progs_of_ne {p q : ProgId} (apart : q ≠ p) (fresh : Bool)
    (change : HeldProg → HeldProg) :
    (store.assign p fresh change).progs q = store.progs q :=
  Function.update_of_ne apart ..

/-- Releasing a consumed program leaves the others as they are. -/
theorem releaseInput_progs {dst p q : ProgId} (apart : q = dst ∨ q ≠ p) :
    (store.releaseInput dst p).progs q = store.progs q := by
  unfold releaseInput
  split
  · rfl
  · rename_i notDst
    have other : q ≠ p := by
      rcases apart with rfl | other
      · exact fun same => notDst same.symm
      · exact other
    have raw : (store.releaseRaw p).progs q = store.progs q := by
      unfold releaseRaw
      split
      · rw [assign_progs_of_ne other, free_progs]
      · rfl
    have args : ((store.releaseRaw p).releaseArgs p).progs q =
        store.progs q := by
      unfold releaseArgs
      split
      · rw [assign_progs_of_ne other, free_progs, raw]
      · exact raw
    unfold releaseExterns
    split
    · rw [assign_progs_of_ne other, free_progs, args]
    · exact args

theorem releaseInputs_progs {dst : ProgId} (progs : List ProgId)
    {q : ProgId} (apart : q = dst ∨ q ∉ progs) :
    (progs.foldl (fun store p => store.releaseInput dst p) store).progs q =
      store.progs q := by
  induction progs generalizing store with
  | nil => rfl
  | cons p rest induction =>
      rw [List.foldl_cons, induction, releaseInput_progs]
      · exact apart.imp_right fun absent same => absent (by simp [same])
      · exact apart.imp_right fun absent member => absent (by simp [member])

/--
Fusion writes the fused program into its destination, which keeps its own
target: no step of fusion assigns `triple`, `arch` or `runtime_bc`.
-/
theorem fuseLlvmir_dst {progs : List ProgId} {dst : ProgId}
    (returned : store.fuseLlvmir env memory progs dst = some after) :
    ∃ fused, Llvm.fuseLlvmir env memory (store.values progs) = some fused ∧
      (after.progs dst).prog =
        { fused with
          source :=
            { fused.source with
              triple := (store.progs dst).prog.source.triple
              arch := (store.progs dst).prog.source.arch
              runtimeBc := (store.progs dst).prog.source.runtimeBc } } := by
  simp only [fuseLlvmir, Option.bind_eq_bind, Option.bind_eq_some_iff,
    Option.pure_def, Option.some.injEq] at returned
  obtain ⟨-, -, first, isFirst, ⟨inputs, dedup⟩, collected, rfl⟩ := returned
  have released : ∀ {frees : Prop} [Decidable frees] {field : BufferField},
      (if frees then store.free dst field else store).progs = store.progs := by
    intro frees _ field
    split
    · exact free_progs store dst field
    · rfl
  rw [releaseInputs_progs _ (Or.inl rfl), installArgs, assign_progs_self,
    free_progs, installExterns, assign_progs_self, free_progs, installSource,
    assign_progs_self, installBitcode, assign_progs_self, released]
  simp only [Llvm.fuseLlvmir, collected, isFirst, Option.bind_eq_bind,
    Option.bind_some]
  exact ⟨_, rfl, rfl⟩

/-- Fusion into the first program writes the fused program. -/
theorem fuseLlvmir_prog {dst : ProgId} {rest : List ProgId}
    (returned : store.fuseLlvmir env memory (dst :: rest) dst = some after) :
    Llvm.fuseLlvmir env memory (store.values (dst :: rest)) =
      some (after.progs dst).prog := by
  obtain ⟨fused, ran, written⟩ := fuseLlvmir_dst returned
  rw [ran, written]
  obtain ⟨triple, arch, runtimeBc⟩ := fuseLlvmir_target ran rfl
  rw [← triple, ← arch, ← runtimeBc]

/-- Compilation writes the compiled program. -/
theorem jitLlvmir_prog {code : Address} {ptx : String} {p : ProgId}
    (returned : store.jitLlvmir memory code ptx p = some after) :
    (after.progs p).prog =
      Llvm.jitLlvmir memory code ptx (store.progs p).prog := by
  unfold Llvm.jitLlvmir
  obtain ⟨module, parsed, ⟨skipped, rfl⟩ | ⟨entry, selected,
    ⟨device, rfl⟩ | ⟨host, ⟨packed, ⟨bytes, packs, rfl⟩ | ⟨idle, rfl⟩⟩ |
      ⟨other, rfl⟩⟩⟩⟩ := jitLlvmir_cases returned
  · rw [parsed, Option.bind_some, skipped]
  · rw [parsed, Option.bind_some, selected]
    dsimp only
    rw [if_pos device, replaceSource, assign_progs_self, free_progs]
    rfl
  · rw [parsed, Option.bind_some, selected]
    dsimp only
    rw [host, if_neg Bool.false_ne_true, if_pos packed, packs, replaceArgs,
      assign_progs_self, free_progs]
    rfl
  · rw [parsed, Option.bind_some, selected]
    dsimp only
    rw [host, if_neg Bool.false_ne_true, if_pos packed, idle,
      installLauncher, assign_progs_self]
  · rw [parsed, Option.bind_some, selected]
    dsimp only
    rw [host, if_neg Bool.false_ne_true, other,
      if_neg Bool.false_ne_true, installLauncher, assign_progs_self]

end Values

end ProgStore

/-! ## Runs -/

/-- A call of one of the two functions. -/
inductive FuseJitCall where
  | jit (p : ProgId)
  | fuse (progs : List ProgId) (dst : ProgId)
  deriving DecidableEq, Repr

/-- One call that returns, with any memory and any emitted code. -/
inductive Calls (env : FuseEnv) : ProgStore → FuseJitCall → ProgStore → Prop
  | jit {store after : ProgStore} {p : ProgId} (memory : Memory)
      (code : Address) (ptx : String)
      (returned : store.jitLlvmir memory code ptx p = some after) :
      Calls env store (.jit p) after
  | fuse {store after : ProgStore} {progs : List ProgId} {dst : ProgId}
      (memory : Memory)
      (returned : store.fuseLlvmir env memory progs dst = some after) :
      Calls env store (.fuse progs dst) after

/-- At the start every owned buffer is held by one pointer, and none is freed. -/
structure ProgStore.Exclusive (store : ProgStore) : Prop where
  allocated : ∀ p field buffer,
    (store.progs p).pointer field = some buffer → buffer < store.next
  alone : ∀ p field q other buffer, (store.progs p).flag field = true →
    (store.progs p).pointer field = some buffer →
      (store.progs q).pointer other = some buffer → q = p ∧ other = field
  none_freed : store.freed = []

/--
After a call no buffer was freed twice, no program refers to a freed buffer, and
the call freed every owned buffer that it dropped.
-/
structure Disciplined (before after : ProgStore) : Prop where
  freed_once : after.freed.Nodup
  no_dangling : ∀ p field buffer,
    (after.progs p).pointer field = some buffer → buffer ∉ after.freed
  drops_freed : ∀ p field buffer, (before.progs p).flag field = true →
    (before.progs p).pointer field = some buffer →
      (after.progs p).pointer field ≠ some buffer →
        buffer ∈ after.freed.drop before.freed.length

/--
The destination of a fusion owns no params table, and its source is LLVM IR or
is not owned.
-/
def KeepsBuffers (store : ProgStore) : FuseJitCall → Prop
  | .jit _ => True
  | .fuse _ dst => store.owns dst .params = false ∧
      ((store.progs dst).prog.source.type = .llvmir ∨
        store.owns dst .raw = false)

section Runs

variable {env : FuseEnv} {before after : ProgStore} {call : FuseJitCall}

theorem ProgStore.Exclusive.sound {store : ProgStore}
    (exclusive : store.Exclusive) : store.custody.Sound where
  held_lt := fun slot buffer held =>
    exclusive.allocated slot.1 slot.2 buffer held
  held_live := by
    intro slot buffer _ gone
    rw [ProgStore.custody, exclusive.none_freed] at gone
    exact List.not_mem_nil gone
  exclusive := by
    rintro ⟨p, field⟩ ⟨q, other⟩ buffer ⟨owned, held⟩ again
    obtain ⟨rfl, rfl⟩ :=
      exclusive.alone p field q other buffer owned held again
    rfl
  freed_lt := by
    intro buffer gone
    rw [ProgStore.custody, exclusive.none_freed] at gone
    exact (List.not_mem_nil gone).elim
  freed_nodup := by
    rw [ProgStore.custody, exclusive.none_freed]
    exact List.nodup_nil

theorem ProgStore.owns_eq_false_iff {store : ProgStore} {p : ProgId}
    {field : BufferField} :
    store.owns p field = false ↔
      ∀ buffer, ¬ store.custody.Owns (p, field) buffer := by
  unfold ProgStore.owns Custody.Owns ProgStore.custody
  dsimp only
  cases (store.progs p).flag field with
  | false => simp
  | true =>
      cases (store.progs p).pointer field with
      | none => simp
      | some buffer => simp

/-- The writes of a call, which lose a buffer only where it says so. -/
theorem Calls.writes (called : Calls env before call after) :
    ∃ writes, after.custody = before.custody.puts writes ∧
      Custody.FreesLater writes ∧
        ((∀ write ∈ writes, before.custody.Spares write) ↔
          KeepsBuffers before call) := by
  cases called with
  | jit memory code ptx returned =>
      obtain ⟨writes, frees, written⟩ := ProgStore.jitLlvmir_writes returned
      refine ⟨writes, written, Custody.freesLater_of_frees frees, ?_⟩
      exact
        iff_of_true (fun write member => Or.inl (frees write member)) trivial
  | fuse memory returned =>
      obtain ⟨writes, frees, written⟩ := ProgStore.fuseLlvmir_writes returned
      refine ⟨_, written, ?_, ?_⟩
      · refine
          List.pairwise_cons.mpr ⟨?_, List.pairwise_cons.mpr ⟨?_, ?_⟩⟩
        · intro write member
          rcases List.mem_cons.mp member with rfl | inWrites
          · exact Or.inr (by simp)
          · exact Or.inl (frees write inWrites)
        · exact fun write member => Or.inl (frees write member)
        · exact Custody.freesLater_of_frees frees
      · rw [List.forall_mem_cons, List.forall_mem_cons, KeepsBuffers,
          ProgStore.owns_eq_false_iff, ProgStore.owns_eq_false_iff]
        unfold Custody.Spares
        rw [decide_eq_true_eq]
        constructor
        · rintro ⟨raw, params, -⟩
          exact ⟨params.resolve_left Bool.false_ne_true, raw⟩
        · rintro ⟨params, raw⟩
          exact
            ⟨raw, Or.inr params, fun write member =>
              Or.inl (frees write member)⟩

/-- A call on a sound store keeps it sound, and is disciplined if it may be. -/
theorem Calls.disciplined_iff (called : Calls env before call after)
    (sound : before.custody.Sound) :
    after.custody.Sound ∧
      (Disciplined before after ↔ KeepsBuffers before call) := by
  obtain ⟨writes, written, later, spares⟩ := called.writes
  have afterSound : after.custody.Sound := written ▸ sound.puts writes
  refine ⟨afterSound, ?_⟩
  rw [← spares, ← sound.tidy_puts_iff later, ← written]
  constructor
  · intro disciplined slot buffer owns
    by_cases kept : after.custody.held slot = some buffer
    · exact Or.inl kept
    · exact
        Or.inr
          (List.mem_of_mem_drop
            (disciplined.drops_freed slot.1 slot.2 buffer owns.1 owns.2 kept))
  · intro tidy
    refine ⟨afterSound.freed_nodup, ?_, ?_⟩
    · intro p field buffer held
      exact afterSound.held_live (p, field) buffer held
    · intro p field buffer owned held dropped
      have gone := (tidy (p, field) buffer ⟨owned, held⟩).resolve_left dropped
      obtain ⟨new, same⟩ : ∃ new, after.freed = before.freed ++ new := by
        obtain ⟨new, same⟩ :=
          @Custody.freed_puts _ before.custody _ writes
        exact ⟨new, (congrArg Custody.freed written).trans same⟩
      have live := sound.held_live (p, field) buffer held
      rw [same, List.drop_left]
      have either : buffer ∈ before.freed ++ new := same ▸ (gone :)
      exact (List.mem_append.mp either).resolve_left live

end Runs

/--
In a run from exclusive buffers every call is disciplined if and only if every
fusion has a destination without an owned params table and without an owned
source of another format.
-/
theorem calls_disciplined_iff (env : FuseEnv) (start : ProgStore)
    (steps : List (ProgStore × FuseJitCall × ProgStore))
    (exclusive : start.Exclusive) (trace : Trace (Calls env) start steps) :
    (∀ before call after, (before, call, after) ∈ steps →
        Disciplined before after) ↔
      ∀ before call after, (before, call, after) ∈ steps →
        KeepsBuffers before call := by
  have sound :=
    trace.invariant exclusive.sound fun sound called =>
      (called.disciplined_iff sound).1
  constructor
  · intro disciplined before call after member
    obtain ⟨beforeSound, called⟩ := sound before call after member
    exact
      (called.disciplined_iff beforeSound).2.mp
        (disciplined before call after member)
  · intro keeps before call after member
    obtain ⟨beforeSound, called⟩ := sound before call after member
    exact
      (called.disciplined_iff beforeSound).2.mpr
        (keeps before call after member)

/-! ## Wrappers, tasks and a device kernel -/

/-- A program whose pointers refer to four buffers, unless they are null. -/
def heldFrom (first : BufferId) (prog : CommandProg) : HeldProg where
  prog := prog
  pointer
    | .raw => prog.source.raw.map fun _ => first
    | .args => prog.args.map fun _ => first + 1
    | .externs => if prog.source.externs = [] then none else some (first + 2)
    | .params => prog.source.params.map fun _ => first + 3
  raw_null := by simp
  args_null := by simp
  externs_null := by simp
  params_null := by simp

/-- Wrappers that own nothing. -/
def heldWrappers : ProgStore where
  progs
    | 0 => heldFrom 0 (onePointerTask .voidPtrptr)
    | 1 => heldFrom 4 (onePointerTask .voidPtrptr)
    | _ => heldFrom 8 (onePointerTask .voidPtrptr)
  next := 12
  freed := []

theorem heldWrappers_exclusive : heldWrappers.Exclusive where
  allocated := by
    intro p field buffer held
    match p, field with
    | 0, .raw | 0, .args | 1, .raw | 1, .args | _ + 2, .raw | _ + 2, .args =>
        obtain rfl := Option.some.inj held
        decide
    | 0, .externs | 0, .params | 1, .externs | 1, .params | _ + 2, .externs
    | _ + 2, .params => cases held
  alone := by
    intro p field q other buffer owned
    match p, field with
    | 0, .raw | 0, .args | 0, .externs | 0, .params | 1, .raw | 1, .args
    | 1, .externs | 1, .params | _ + 2, .raw | _ + 2, .args | _ + 2, .externs
    | _ + 2, .params => cases owned
  none_freed := rfl

/-- The second fusion frees the source and the arguments of the first one. -/
theorem calls_disciplined_iff_heldWrappers :
    ∃ fused again compiled,
      (fused.progs 0).flag .raw = true ∧ (fused.progs 0).flag .args = true ∧
        again.freed = [12, 13] ∧
          let steps :=
            [(heldWrappers, FuseJitCall.fuse [0, 1] 0, fused),
              (fused, .fuse [0, 2] 0, again), (again, .jit 0, compiled)]
          (∀ before call after, (before, call, after) ∈ steps →
              Disciplined before after) ↔
            ∀ before call after, (before, call, after) ∈ steps →
              KeepsBuffers before call := by
  obtain ⟨fused, returned, source, args, again, returned', freed, compiled,
      emitted⟩ : ∃ fused,
      heldWrappers.fuseLlvmir plainEnv pagedMemory [0, 1] 0 = some fused ∧
        (fused.progs 0).flag .raw = true ∧
        (fused.progs 0).flag .args = true ∧ ∃ again,
          fused.fuseLlvmir plainEnv pagedMemory [0, 2] 0 = some again ∧
          again.freed = [12, 13] ∧ ∃ compiled,
            again.jitLlvmir pagedMemory 65536 "" 0 = some compiled :=
    ⟨_, rfl, rfl, rfl, _, rfl, rfl, _, rfl⟩
  exact
    ⟨fused, again, compiled, source, args, freed,
      calls_disciplined_iff plainEnv heldWrappers _ heldWrappers_exclusive
        (.cons (.fuse pagedMemory returned)
          (.cons (.fuse pagedMemory returned')
            (.cons (.jit pagedMemory 65536 "" emitted) (.nil compiled))))⟩

/-- A device kernel over one pointer. -/
def deviceKernel : CommandProg :=
  let task := onePointerTask .unpackedParams
  { task with
    launchMode := .direct
    source :=
      { task.source with
        triple := some "nvptx64-nvidia-cuda"
        arch := some "sm_80" } }

/-- Two packed tasks and a device kernel, all of which own nothing. -/
def heldTasks : ProgStore where
  progs
    | 0 => heldFrom 0 valueTask
    | 1 => heldFrom 4 valueTask
    | 2 => heldFrom 8 deviceKernel
    | _ =>
        heldFrom 0
          { valueTask with
            args := none
            source := { valueTask.source with raw := none, params := none } }
  next := 12
  freed := []

theorem heldTasks_exclusive : heldTasks.Exclusive where
  allocated := by
    intro p field buffer held
    match p, field with
    | 0, .raw | 0, .args | 0, .params | 1, .raw | 1, .args | 1, .params
    | 2, .raw | 2, .args =>
        obtain rfl := Option.some.inj held
        decide
    | 0, .externs | 1, .externs | 2, .externs | 2, .params | _ + 3, .raw
    | _ + 3, .args | _ + 3, .externs | _ + 3, .params => cases held
  alone := by
    intro p field q other buffer owned
    match p, field with
    | 0, .raw | 0, .args | 0, .externs | 0, .params | 1, .raw | 1, .args
    | 1, .externs | 1, .params | 2, .raw | 2, .args | 2, .externs
    | 2, .params | _ + 3, .raw | _ + 3, .args | _ + 3, .externs
    | _ + 3, .params => cases owned
  none_freed := rfl

/-- Fused into a compiled device kernel, the tasks drop its PTX. -/
theorem fusion_drops_ptx :
    heldTasks.Exclusive ∧
      ∃ compiled after, Calls plainEnv heldTasks (.jit 2) compiled ∧
        Calls plainEnv compiled (.fuse [0, 1] 2) after ∧
          ¬ Disciplined compiled after := by
  refine ⟨heldTasks_exclusive, ?_⟩
  obtain ⟨compiled, emitted, owned, pointer, after, returned, replaced,
    freed⟩ : ∃ compiled,
      heldTasks.jitLlvmir pagedMemory 65536 "" 2 = some compiled ∧
        (compiled.progs 2).flag .raw = true ∧
        (compiled.progs 2).pointer .raw = some 12 ∧
        ∃ after,
          compiled.fuseLlvmir plainEnv pagedMemory [0, 1] 2 = some after ∧
            (after.progs 2).pointer .raw = some 13 ∧ after.freed = [] :=
    ⟨_, rfl, rfl, rfl, _, rfl, rfl, rfl⟩
  refine
    ⟨compiled, after, .jit pagedMemory 65536 "" emitted,
      .fuse pagedMemory returned, ?_⟩
  intro disciplined
  have gone := disciplined.drops_freed 2 .raw 12 owned pointer
  rw [replaced, freed, List.drop_nil] at gone
  exact List.not_mem_nil (gone (by decide))

end Cgir.Llvm
