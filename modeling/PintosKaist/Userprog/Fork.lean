/-
The fork handshake (`process_fork` and `__do_fork` of `userprog/process.c`,
`sys_exit` of `userprog/syscall.c`). The parent creates the child and sleeps
on its own `fork_sema`; the child copies the parent, ups the semaphore, and
the parent then reads the child's `exit_status` to learn how it went.

The parent and the child each take one step at a time, in any order. A step
is a statement that touches what the other side can see.
-/
import PintosKaist.Lib.Run

namespace PintosKaist.Fork

/-- `TID_ERROR`. -/
def tidError : Int := -1

/-- The parent's next statement in `process_fork`. -/
inductive ParentPc where
  | create
  /-- `sema_down(&parent->fork_sema)` -/
  | down
  /-- `if (child->exit_status == TID_ERROR)` -/
  | check
  | ret (r : Int)
  deriving DecidableEq, Repr

/-- The child's next statement. -/
inductive ChildPc where
  | pml4Create
  | sptCopy
  | fdCopy
  /-- `sema_up` once everything is copied, then `do_iret`, then user code. -/
  | signal
  | iret
  | user
  /-- Past the `exit_status` store of a `sys_exit` in user code. -/
  | exited
  /-- The label `error`: `sema_up`, then `sys_exit(TID_ERROR)`. -/
  | signalError
  | exitError
  | exitedError
  deriving DecidableEq, Repr

structure State where
  parent : ParentPc
  child : Option ChildPc
  childTid : Int
  /-- The child's `exit_status`; `init_thread` zeroes it. -/
  exitStatus : Int
  /-- The value of the parent's `fork_sema`. -/
  sema : Nat
  /-- The parent sleeps on `fork_sema`. -/
  waiting : Bool
  deriving DecidableEq, Repr

/-- The parent enters `process_fork`. -/
def start : State := ⟨.create, none, 0, 0, 0, false⟩

inductive Event where
  /-- `thread_create`, with the tid it allocates (tids start at 1), or not. -/
  | threadCreate (r : Option Nat)
  | semaDown
  | readStatus
  | pml4Create (ok : Bool)
  | sptCopy (ok : Bool)
  /-- The fd-table part; `full` is `parent->fd_idx == MAX_FD`. -/
  | fdCopy (full : Bool)
  | semaUp
  | doIret
  /-- User code ends: `sys_exit(status)`, or `thread_exit` with no status set. -/
  | userExit (status : Option Int)
  /-- The error path's `sys_exit(TID_ERROR)`. -/
  | sysExit
  deriving DecidableEq, Repr

/-- The parent's side. -/
def parentStep (s : State) : Event → Option State
  | .threadCreate r =>
    if s.parent = .create then
      match r with
      | none => some { s with parent := .ret tidError }
      | some n => some { s with parent := .down, child := some .pml4Create, childTid := n + 1 }
    else none
  | .semaDown =>
    -- The loop of `sema_down`: asleep until the next `sema_up`, then it tests the value again.
    if s.parent = .down ∧ s.waiting = false then
      if s.sema = 0 then some { s with waiting := true }
      else some { s with sema := s.sema - 1, parent := .check }
    else none
  | .readStatus =>
    if s.parent = .check then
      some { s with parent := .ret (if s.exitStatus = tidError then tidError else s.childTid) }
    else none
  | _ => none

/-- `sema_up(&parent->fork_sema)`. -/
def semaUp (s : State) (pc : ChildPc) : State :=
  { s with waiting := false, sema := s.sema + 1, child := some pc }

/-- The child's side. -/
def childStep (s : State) : Event → Option State
  | .pml4Create ok =>
    if s.child = some .pml4Create then
      some { s with child := some (if ok then .sptCopy else .signalError) }
    else none
  | .sptCopy ok =>
    if s.child = some .sptCopy then some { s with child := some (if ok then .fdCopy else .signalError) }
    else none
  | .fdCopy full =>
    if s.child = some .fdCopy then some { s with child := some (if full then .signalError else .signal) }
    else none
  | .semaUp =>
    if s.child = some .signal then some (semaUp s .iret)
    else if s.child = some .signalError then some (semaUp s .exitError)
    else none
  | .doIret => if s.child = some .iret then some { s with child := some .user } else none
  | .userExit status =>
    if s.child = some .user then
      some { s with child := some .exited, exitStatus := status.getD s.exitStatus }
    else none
  | .sysExit =>
    if s.child = some .exitError then some { s with child := some .exitedError, exitStatus := tidError }
    else none
  | _ => none

/-- One step of either side. -/
def step (s : State) (e : Event) : Option State := (parentStep s e).or (childStep s e)

/-- The child has copied the address space and the fd table: nothing but
`sema_up` and `do_iret` lies between it and user code. -/
def Copied (s : State) : Prop :=
  s.child = some .signal ∨ s.child = some .iret ∨ s.child = some .user ∨ s.child = some .exited

/-- `process_fork` has returned the truth: the child's tid exactly when the
child was copied, and `TID_ERROR` otherwise. -/
def Truthful (s : State) : Prop :=
  ∀ r, s.parent = .ret r → (r = s.childTid ↔ Copied s) ∧ (¬ Copied s → r = tidError)

instance (s : State) : Decidable (Copied s) := inferInstanceAs (Decidable (_ ∨ _ ∨ _ ∨ _))

/-- The steps that tell the truth: when the parent reads `exit_status`, a
child that failed is past its store of `TID_ERROR`, and a child that was
copied has not already exited with that very status. -/
def InOrder (s : State) : Event → Prop
  | .readStatus => s.child ≠ some .exitError ∧ ¬ (s.child = some .exited ∧ s.exitStatus = tidError)
  | _ => True

instance (s : State) (e : Event) : Decidable (InOrder s e) := by
  cases e <;> unfold InOrder <;> infer_instance

/-! ## What every interleaving keeps -/

/-- The child has not upped the semaphore yet. -/
def ChildPc.silent : ChildPc → Bool
  | .pml4Create | .sptCopy | .fdCopy | .signal | .signalError => true
  | _ => false

structure Inv (s : State) : Prop where
  /-- There is no child before `thread_create`, and there is one to wait for. -/
  unborn : s.parent = .create → s.child = none
  born : s.parent = .down ∨ s.parent = .check → s.child ≠ none
  tid : (s.child = none → s.childTid = 0) ∧ (s.child ≠ none → 0 < s.childTid)
  /-- The parent gets past its `sema_down` only after the child's `sema_up`. -/
  sema : 0 < s.sema → ∃ pc, s.child = some pc ∧ pc.silent = false
  signalled : s.parent ≠ .create → s.parent ≠ .down → ∀ pc, s.child = some pc → pc.silent = false
  /-- `exit_status` is 0 until one of the two stores. -/
  fresh : s.child ≠ some .exited → s.child ≠ some .exitedError → s.exitStatus = 0
  failed : s.child = some .exitedError → s.exitStatus = tidError

theorem start_inv : Inv start := by
  constructor <;> simp [start]

theorem parentStep_inv {s s' : State} {e : Event} (h : Inv s) (hs : parentStep s e = some s') : Inv s' := by
  cases e with
  | threadCreate r =>
    simp only [parentStep] at hs
    split at hs
    · rename_i hp
      have hc := h.unborn hp
      have hf := h.fresh (by simp [hc]) (by simp [hc])
      have hz : ¬ 0 < s.sema := fun hpos => by
        obtain ⟨pc, hpc, -⟩ := h.sema hpos
        simp [hc] at hpc
      cases r with
      | none =>
        simp only [Option.some.injEq] at hs
        subst hs
        exact ⟨by simp, by simp, h.tid, h.sema, by simp [hc], h.fresh, h.failed⟩
      | some n =>
        simp only [Option.some.injEq] at hs
        subst hs
        exact ⟨by simp, by simp, by simp, by simp [hz], by simp, by simp [hf], by simp⟩
    · simp at hs
  | semaDown =>
    simp only [parentStep] at hs
    split at hs
    · rename_i hp
      split at hs
      · simp only [Option.some.injEq] at hs
        subst hs
        exact ⟨h.unborn, h.born, h.tid, h.sema, h.signalled, h.fresh, h.failed⟩
      · rename_i hz
        simp only [Option.some.injEq] at hs
        subst hs
        obtain ⟨pc, hpc, hq⟩ := h.sema (by omega)
        refine ⟨by simp, fun _ => h.born (.inl hp.1), h.tid, fun _ => ⟨pc, hpc, hq⟩, ?_, h.fresh, h.failed⟩
        intro _ _ pc' hpc'
        simp only [hpc, Option.some.injEq] at hpc'
        exact hpc' ▸ hq
    · simp at hs
  | readStatus =>
    simp only [parentStep] at hs
    split at hs
    · rename_i hp
      simp only [Option.some.injEq] at hs
      subst hs
      have hq := h.signalled (by simp [hp]) (by simp [hp])
      exact ⟨by simp, by simp, h.tid, h.sema, fun _ _ => hq, h.fresh, h.failed⟩
    · simp at hs
  | _ => simp [parentStep] at hs

/-- A child step from `pc` to `pc'` that ups nothing and stores no status. -/
theorem Inv.move {s : State} (h : Inv s) {pc pc' : ChildPc} (hpc : s.child = some pc)
    (hsil : pc'.silent = pc.silent) (hne : pc ≠ .exited ∧ pc ≠ .exitedError)
    (hne' : pc' ≠ .exited ∧ pc' ≠ .exitedError) : Inv { s with child := some pc' } where
  unborn hp := by simp [h.unborn hp] at hpc
  born _ := by simp
  tid := ⟨by simp, fun _ => h.tid.2 (by simp [hpc])⟩
  sema hpos := by
    obtain ⟨pc₀, hpc₀, hq⟩ := h.sema hpos
    simp only [hpc, Option.some.injEq] at hpc₀
    exact ⟨pc', rfl, by rw [hsil, hpc₀]; exact hq⟩
  signalled h1 h2 pc₁ hpc₁ := by
    simp only [Option.some.injEq] at hpc₁
    rw [← hpc₁, hsil]
    exact h.signalled h1 h2 pc hpc
  fresh _ _ := h.fresh (by simp [hpc, hne.1]) (by simp [hpc, hne.2])
  failed hf := by simp only [Option.some.injEq] at hf; exact absurd hf hne'.2

/-- The child's `sema_up`. -/
theorem Inv.up {s : State} (h : Inv s) {pc pc' : ChildPc} (hpc : s.child = some pc)
    (hne : pc ≠ .exited ∧ pc ≠ .exitedError) (hq : pc'.silent = false)
    (hne' : pc' ≠ .exited ∧ pc' ≠ .exitedError) : Inv (semaUp s pc') where
  unborn hp := by simp [h.unborn hp] at hpc
  born _ := by simp [semaUp]
  tid := ⟨by simp [semaUp], fun _ => h.tid.2 (by simp [hpc])⟩
  sema _ := ⟨pc', rfl, hq⟩
  signalled _ _ pc₁ hpc₁ := by simp only [semaUp, Option.some.injEq] at hpc₁; exact hpc₁ ▸ hq
  fresh _ _ := h.fresh (by simp [hpc, hne.1]) (by simp [hpc, hne.2])
  failed hf := by simp only [semaUp, Option.some.injEq] at hf; exact absurd hf hne'.2

/-- A store of `exit_status` by a child that has upped the semaphore. -/
theorem Inv.store {s : State} (h : Inv s) {pc pc' : ChildPc} {v : Int} (hpc : s.child = some pc)
    (hq : pc'.silent = false) (hst : pc' = .exited ∨ pc' = .exitedError ∧ v = tidError) :
    Inv { s with child := some pc', exitStatus := v } where
  unborn hp := by simp [h.unborn hp] at hpc
  born _ := by simp
  tid := ⟨by simp, fun _ => h.tid.2 (by simp [hpc])⟩
  sema _ := ⟨pc', rfl, hq⟩
  signalled _ _ pc₁ hpc₁ := by simp only [Option.some.injEq] at hpc₁; exact hpc₁ ▸ hq
  fresh h1 h2 := by
    rcases hst with hst | ⟨hst, -⟩
    · exact absurd (by rw [hst]) h1
    · exact absurd (by rw [hst]) h2
  failed hf := by
    simp only [Option.some.injEq] at hf
    rcases hst with hst | ⟨-, hv⟩
    · rw [hst] at hf; cases hf
    · exact hv

/-- What the child can do: it goes on before its `sema_up`, ups, returns to user
code, or stores its status and ends. -/
inductive ChildStep (s : State) : State → Prop
  | move {pc pc' : ChildPc} (hpc : s.child = some pc) (hsil : pc.silent = true) (hsil' : pc'.silent = true) :
    ChildStep s { s with child := some pc' }
  | up {pc pc' : ChildPc} (hpc : s.child = some pc) (hsil : pc.silent = true)
    (hpc' : pc' = .iret ∨ pc' = .exitError) : ChildStep s (semaUp s pc')
  | iret (hpc : s.child = some .iret) : ChildStep s { s with child := some .user }
  | exit (v : Int) (hpc : s.child = some .user) : ChildStep s { s with child := some .exited, exitStatus := v }
  | fail (hpc : s.child = some .exitError) :
    ChildStep s { s with child := some .exitedError, exitStatus := tidError }

theorem childStep_cases {s s' : State} {e : Event} (hs : childStep s e = some s') : ChildStep s s' := by
  cases e with
  | pml4Create ok | sptCopy ok | fdCopy ok =>
    simp only [childStep, Option.ite_none_right_eq_some, Option.some.injEq] at hs
    obtain ⟨hc, rfl⟩ := hs
    exact .move hc rfl (by cases ok <;> rfl)
  | semaUp =>
    simp only [childStep] at hs
    split at hs
    · rename_i hc
      obtain rfl := Option.some.inj hs
      exact .up hc rfl (.inl rfl)
    · simp only [Option.ite_none_right_eq_some, Option.some.injEq] at hs
      obtain ⟨hc, rfl⟩ := hs
      exact .up hc rfl (.inr rfl)
  | doIret =>
    simp only [childStep, Option.ite_none_right_eq_some, Option.some.injEq] at hs
    obtain ⟨hc, rfl⟩ := hs
    exact .iret hc
  | userExit status =>
    simp only [childStep, Option.ite_none_right_eq_some, Option.some.injEq] at hs
    obtain ⟨hc, rfl⟩ := hs
    exact .exit _ hc
  | sysExit =>
    simp only [childStep, Option.ite_none_right_eq_some, Option.some.injEq] at hs
    obtain ⟨hc, rfl⟩ := hs
    exact .fail hc
  | _ => simp [childStep] at hs

theorem ChildPc.silent_live {pc : ChildPc} (h : pc.silent = true) : pc ≠ .exited ∧ pc ≠ .exitedError :=
  ⟨fun he => by simp [he, silent] at h, fun he => by simp [he, silent] at h⟩

theorem childStep_inv {s s' : State} {e : Event} (h : Inv s) (hs : childStep s e = some s') : Inv s' := by
  cases childStep_cases hs with
  | move hpc hsil hsil' =>
    exact h.move hpc (hsil'.trans hsil.symm) (ChildPc.silent_live hsil) (ChildPc.silent_live hsil')
  | up hpc hsil hpc' =>
    rcases hpc' with rfl | rfl
    · exact h.up hpc (ChildPc.silent_live hsil) rfl (by simp)
    · exact h.up hpc (ChildPc.silent_live hsil) rfl (by simp)
  | iret hpc => exact h.move hpc rfl (by simp) (by simp)
  | exit v hpc => exact h.store hpc rfl (.inl rfl)
  | fail hpc => exact h.store hpc rfl (.inr ⟨rfl, rfl⟩)

theorem step_inv {s s' : State} {e : Event} (h : Inv s) (hs : step s e = some s') : Inv s' := by
  rcases Option.or_eq_some_iff.mp hs with hs | ⟨-, hs⟩
  · exact parentStep_inv h hs
  · exact childStep_inv h hs

/-! ## The answer -/

/-- A step that is not the parent's read: it makes no answer, or fails to
create the child, or leaves the answer and whether the child was copied. -/
theorem step_truthful_other {s s' : State} {e : Event} (h : Inv s) (hs : step s e = some s')
    (he : e ≠ .readStatus) : Truthful s' ↔ Truthful s := by
  rcases Option.or_eq_some_iff.mp hs with hs | ⟨-, hs⟩
  · cases e with
    | threadCreate r =>
      simp only [parentStep] at hs
      split at hs
      · rename_i hp
        have hc := h.unborn hp
        cases r with
        | none =>
          simp only [Option.some.injEq] at hs
          subst hs
          simp [Truthful, Copied, hp, hc, h.tid.1 hc, tidError]
        | some n =>
          simp only [Option.some.injEq] at hs
          subst hs
          simp [Truthful, hp]
      · simp at hs
    | semaDown =>
      simp only [parentStep] at hs
      split at hs
      · rename_i hp
        split at hs <;> simp only [Option.some.injEq] at hs <;> subst hs <;> simp [Truthful, hp.1]
      · simp at hs
    | readStatus => exact absurd rfl he
    | _ => simp [parentStep] at hs
  · have hret : s'.parent = s.parent ∧ s'.childTid = s.childTid ∧
        (∀ r, s.parent = .ret r → (Copied s' ↔ Copied s)) := by
      have hq : ∀ r, s.parent = .ret r → ∀ pc, s.child = some pc → pc.silent = false :=
        fun r hr => h.signalled (by simp [hr]) (by simp [hr])
      cases childStep_cases hs with
      | move hpc hsil | up hpc hsil =>
        exact ⟨rfl, rfl, fun r hr => by cases (hq r hr _ hpc).symm.trans hsil⟩
      | iret hpc | exit v hpc | fail hpc => exact ⟨rfl, rfl, fun r _ => by simp [Copied, hpc]⟩
    obtain ⟨hp, ht, hcopied⟩ := hret
    simp only [Truthful, hp, ht]
    constructor <;> intro hT r hr
    · rw [← hcopied r hr]; exact hT r hr
    · rw [hcopied r hr]; exact hT r hr

/-- The parent's read is the truth exactly when it is in order. -/
theorem readStatus_truthful {s s' : State} (h : Inv s) (hs : step s .readStatus = some s') :
    Truthful s' ↔ InOrder s .readStatus := by
  rcases Option.or_eq_some_iff.mp hs with hs | ⟨-, hs⟩
  · simp only [parentStep] at hs
    split at hs
    · rename_i hp
      simp only [Option.some.injEq] at hs
      subst hs
      obtain ⟨pc, hpc⟩ := Option.ne_none_iff_exists'.mp (h.born (.inr hp))
      have hq := h.signalled (by simp [hp]) (by simp [hp]) pc hpc
      have htid := h.tid.2 (by simp [hpc])
      have hneg : ¬ tidError = s.childTid := by unfold tidError; omega
      have hz : (0 : Int) ≠ tidError := by decide
      cases pc with
      | pml4Create | sptCopy | fdCopy | signal | signalError => simp [ChildPc.silent] at hq
      | iret | user =>
        have hst := h.fresh (by simp [hpc]) (by simp [hpc])
        simp [Truthful, Copied, InOrder, hpc, hst, hz]
      | exited =>
        by_cases hst : s.exitStatus = tidError <;> simp [Truthful, Copied, InOrder, hpc, hst, hneg]
      | exitError =>
        have hst := h.fresh (by simp [hpc]) (by simp [hpc])
        simp [Truthful, Copied, InOrder, hpc, hst, hz]
      | exitedError =>
        have hst := h.failed hpc
        simp [Truthful, Copied, InOrder, hpc, hst, hneg]
    · simp at hs
  · simp [childStep] at hs

theorem step_truthful {s s' : State} {e : Event} (h : Inv s) (hs : step s e = some s') :
    Truthful s' ↔ Truthful s ∧ InOrder s e := by
  by_cases he : e = .readStatus
  · subst he
    have hT : Truthful s := by
      intro r hr
      simp [step, parentStep, childStep, hr] at hs
    rw [readStatus_truthful h hs, and_iff_right hT]
  · have hO : InOrder s e := by
      cases e <;> trivial
    rw [step_truthful_other h hs he, and_iff_left hO]

theorem run_truthful {s s' : State} {es : List Event} (h : Inv s) (hs : Run.run step s es = some s') :
    Truthful s' ↔ Truthful s ∧ Run.Always step InOrder s es := by
  induction es generalizing s with
  | nil =>
    simp only [Run.run_nil, Option.some.injEq] at hs
    subst hs
    simp [Run.Always]
  | cons e es ih =>
    obtain ⟨t, ht, hr⟩ := Run.run_cons.mp hs
    rw [ih (step_inv h ht) hr, step_truthful h ht, Run.always_cons, and_assoc]
    refine and_congr_right fun _ => and_congr_right fun _ => ?_
    simp [ht]

/-- **Fork reports the truth exactly when the read is in order.** For every
interleaving of `process_fork`, `__do_fork` and what the child does after it,
the answer is right if and only if every step is in order: the parent does
not read `exit_status` between a failed child's `sema_up` and its store of
`TID_ERROR`, nor after a copied child has exited with that status. -/
theorem fork_truthful_iff {s : State} {es : List Event} (h : Run.run step start es = some s) :
    Truthful s ↔ Run.Always step InOrder start es := by
  rw [run_truthful start_inv h]
  exact and_iff_right fun r hr => by simp [start] at hr

/-- A fork that succeeds: the parent sleeps first, and reads before the child
exits with status 3. -/
def sampleRun : List Event :=
  [.threadCreate (some 4), .semaDown, .pml4Create true, .sptCopy true, .fdCopy false, .semaUp, .semaDown,
    .doIret, .readStatus, .userExit (some 3)]

theorem fork_truthful_iff_sample :
    ∃ s, Run.run step start sampleRun = some s ∧ s.parent = .ret 5 ∧ Truthful s := by
  have h : Run.run step start sampleRun = some ⟨.ret 5, some .exited, 5, 3, 0, false⟩ := by decide
  exact ⟨_, h, rfl, (fork_truthful_iff h).mpr (by decide)⟩

/-- The child is copied and its program exits with -1 before the parent runs:
`process_fork` returns `TID_ERROR` for a child that ran. And the child fails,
and the parent runs between its `sema_up` and its `sys_exit`: `process_fork`
returns the tid of a child that never ran. -/
theorem fork_untruthful :
    (∃ s, Run.run step start [.threadCreate (some 4), .semaDown, .pml4Create true, .sptCopy true,
        .fdCopy false, .semaUp, .doIret, .userExit (some (-1)), .semaDown, .readStatus] = some s ∧
      s.parent = .ret tidError ∧ Copied s) ∧
    (∃ s, Run.run step start [.threadCreate (some 4), .semaDown, .pml4Create true, .sptCopy false,
        .semaUp, .semaDown, .readStatus, .sysExit] = some s ∧
      s.parent = .ret 5 ∧ s.childTid = 5 ∧ ¬ Copied s) :=
  ⟨⟨⟨.ret tidError, some .exited, 5, -1, 0, false⟩, by decide, rfl, by decide⟩,
    ⟨⟨.ret 5, some .exitedError, 5, -1, 0, false⟩, by decide, rfl, rfl, by decide⟩⟩

end PintosKaist.Fork
