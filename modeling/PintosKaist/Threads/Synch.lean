/-
Semaphores count: one semaphore and one lock (`threads/synch.c`), with
`unsigned` values, under every interleaving of the threads and handlers that
use them.

A semaphore operation runs with interrupts off up to the `thread_block` of
`sema_down`, so it is one step; the thread that `sema_up` unblocks comes back
to the `while` in a step of its own, with any others in between. The lock calls
run with interrupts on and are cut into their statements. Priorities are those
of the moment, whatever they are.
-/
import Mathlib.Algebra.Group.Nat.Defs
import PintosKaist.Lib.OrdList
import PintosKaist.Lib.Run

namespace PintosKaist.Synch

open OrdList

/-- `struct semaphore`; `value` is an `unsigned`. -/
structure Semaphore where
  value : Nat
  waiters : List Nat
  deriving DecidableEq, Repr

/-- `value++`. -/
def inc (v : Nat) : Nat := (v + 1) % 2 ^ 32

/-- One turn of the `while` of `sema_down` by thread `t`, and whether it
completes the call. -/
def semaDown (prio : Nat → Int) (t : Nat) (sema : Semaphore) : Semaphore × Bool :=
  if sema.value = 0 then ({ sema with waiters := insertBy prio t sema.waiters }, false)
  else ({ sema with value := sema.value - 1 }, true)

/-- `sema_try_down`. -/
def semaTryDown (sema : Semaphore) : Semaphore × Bool :=
  if 0 < sema.value then ({ sema with value := sema.value - 1 }, true) else (sema, false)

/-- `sema_up`, and the thread it unblocks. -/
def semaUp (prio : Nat → Int) (sema : Semaphore) : Semaphore × Option Nat :=
  match sortBy prio sema.waiters with
  | [] => ({ sema with value := inc sema.value }, none)
  | w :: ws => (⟨inc sema.value, ws⟩, some w)

/-! ## A semaphore in use -/

/-- A semaphore with what has happened to it. -/
structure Sem where
  sema : Semaphore
  /-- The threads it has unblocked that have not tested it again yet. -/
  woken : List Nat
  /-- How often `sema_up` was called. -/
  ups : Nat
  /-- How many downs have completed. -/
  downs : Nat
  deriving DecidableEq, Repr

inductive SemEvent where
  /-- `sema_down`, by a thread that is not in it already. -/
  | down (prio : Nat → Int) (t : Nat)
  /-- An unblocked thread runs again, at the `while` of its `sema_down`. -/
  | again (prio : Nat → Int) (t : Nat)
  | tryDown
  | up (prio : Nat → Int)

def Sem.afterDown (s : Sem) (prio : Nat → Int) (t : Nat) : Sem :=
  let (sema, done) := semaDown prio t s.sema
  { s with sema := sema, downs := s.downs + done.toNat }

def Sem.afterTryDown (s : Sem) : Sem :=
  let (sema, done) := semaTryDown s.sema
  { s with sema := sema, downs := s.downs + done.toNat }

def Sem.afterUp (s : Sem) (prio : Nat → Int) : Sem :=
  let (sema, w) := semaUp prio s.sema
  { s with sema := sema, woken := w.toList ++ s.woken, ups := s.ups + 1 }

def Sem.step (s : Sem) : SemEvent → Option Sem
  | .down prio t => if t ∉ s.sema.waiters ∧ t ∉ s.woken then some (s.afterDown prio t) else none
  | .again prio t => if t ∈ s.woken then some ({ s with woken := s.woken.erase t }.afterDown prio t) else none
  | .tryDown => some s.afterTryDown
  | .up prio => some (s.afterUp prio)

/-- `sema_init`. -/
def Sem.init (value : Nat) : Sem := ⟨⟨value, []⟩, [], 0, 0⟩

/-- The value is the count, less what the `unsigned` has lost; and while
threads wait, no unit is left that no unblocked thread is on its way to. -/
structure Sem.Counts (initial : Nat) (s : Sem) : Prop where
  downs_le : s.downs ≤ initial + s.ups
  value : s.sema.value = (initial + s.ups - s.downs) % 2 ^ 32
  waiters : s.sema.waiters ≠ [] → s.sema.value ≤ s.woken.length

variable {initial : Nat} {s s' : Sem} {prio : Nat → Int} {t : Nat}

/-- A completed down takes one from the value, which is not 0. -/
theorem Sem.Counts.take (h : s.Counts initial) (hv : s.sema.value ≠ 0) :
    s.downs + 1 ≤ initial + s.ups ∧ s.sema.value - 1 = (initial + s.ups - (s.downs + 1)) % 2 ^ 32 := by
  have h₁ := h.downs_le
  have h₂ := h.value
  omega

/-- The `while` of `sema_down`, by a thread that is not among the unblocked
ones any more: `hw` is what they are owed, itself counted. -/
theorem counts_afterDown (h : s.Counts initial) {woken : List Nat}
    (hw : woken.length + 1 = s.woken.length ∨ woken = s.woken) :
    ({ s with woken := woken }.afterDown prio t).Counts initial := by
  simp only [Sem.afterDown, semaDown]
  split
  · rename_i hv
    refine ⟨h.downs_le, h.value, fun _ => ?_⟩
    show s.sema.value ≤ _
    omega
  · rename_i hv
    obtain ⟨h₁, h₂⟩ := h.take hv
    refine ⟨h₁, h₂, fun hne => ?_⟩
    have h₃ := h.waiters hne
    show s.sema.value - 1 ≤ woken.length
    rcases hw with hw | rfl <;> omega

theorem counts_afterTryDown (h : s.Counts initial) : s.afterTryDown.Counts initial := by
  simp only [Sem.afterTryDown, semaTryDown]
  split
  · rename_i hv
    obtain ⟨h₁, h₂⟩ := h.take (Nat.ne_of_gt hv)
    refine ⟨h₁, h₂, fun hne => ?_⟩
    have h₃ := h.waiters hne
    show s.sema.value - 1 ≤ s.woken.length
    omega
  · exact ⟨h.downs_le, h.value, h.waiters⟩

theorem inc_le (v : Nat) : inc v ≤ v + 1 := Nat.mod_le _ _

/-- `sema_up` adds one, and the thread it unblocks to those on their way. -/
theorem counts_afterUp (h : s.Counts initial) : (s.afterUp prio).Counts initial := by
  have h₁ := h.downs_le
  have h₂ : inc s.sema.value = (initial + (s.ups + 1) - s.downs) % 2 ^ 32 := by
    rw [inc, h.value]
    omega
  simp only [Sem.afterUp, semaUp]
  split
  · rename_i hw
    have hnil : s.sema.waiters = [] := by
      have hp : (sortBy prio s.sema.waiters).Perm s.sema.waiters := perm_sortBy
      rw [hw] at hp
      exact hp.symm.eq_nil
    exact ⟨by show s.downs ≤ initial + (s.ups + 1); omega, h₂, fun hne => absurd hnil hne⟩
  · rename_i w ws hw
    refine ⟨by show s.downs ≤ initial + (s.ups + 1); omega, h₂, fun _ => ?_⟩
    have hne : s.sema.waiters ≠ [] := by
      intro hnil
      simp [sortBy, hnil] at hw
    have h₃ := h.waiters hne
    have h₄ := inc_le s.sema.value
    show inc s.sema.value ≤ (w :: s.woken).length
    rw [List.length_cons]
    omega

theorem step_counts {e : SemEvent} (h : s.Counts initial) (hs : s.step e = some s') : s'.Counts initial := by
  cases e with
  | down prio t =>
    simp only [Sem.step, Option.ite_none_right_eq_some, Option.some.injEq] at hs
    exact hs.2 ▸ counts_afterDown h (.inr rfl)
  | again prio t =>
    simp only [Sem.step, Option.ite_none_right_eq_some, Option.some.injEq] at hs
    obtain ⟨ht, rfl⟩ := hs
    exact counts_afterDown h (.inl (by rw [List.length_erase_of_mem ht]; have := List.length_pos_of_mem ht; omega))
  | tryDown => exact Option.some.inj hs ▸ counts_afterTryDown h
  | up prio => exact Option.some.inj hs ▸ counts_afterUp h

theorem counts_of_run (hi : initial < 2 ^ 32) {es : List SemEvent} (hr : Run.run Sem.step (Sem.init initial) es = some s) :
    s.Counts initial := by
  have h₀ : (Sem.init initial).Counts initial :=
    ⟨Nat.zero_le _, (Nat.mod_eq_of_lt hi).symm, fun hne => absurd rfl hne⟩
  exact Run.run_invariant (G := fun _ _ => True) (fun _ _ _ h _ hs => step_counts h hs) h₀ hr
    (Run.always_of_mem _ fun _ _ _ => trivial)

/-! ## A lock in use -/

/-- Where a thread is in the calls on a lock. -/
inductive Phase where
  | out
  /-- In `lock_acquire`, not yet in `sema_down`. -/
  | entering
  | waiting
  /-- Unblocked, on its way back to the `while` of `sema_down`. -/
  | woken
  /-- Its down is complete; `lock->holder` is not yet set. -/
  | taken
  | inside
  /-- In `lock_release`, `lock->holder` reset, not yet in `sema_up`. -/
  | releasing
  deriving DecidableEq, Repr

/-- From the completed down to the `sema_up`. -/
def Phase.critical : Phase → Bool
  | .taken | .inside | .releasing => true
  | _ => false

/-- In no call on the lock. -/
def Phase.free : Phase → Bool
  | .out | .inside => true
  | _ => false

structure Lock where
  sema : Semaphore
  holder : Option Nat
  phase : Nat → Phase

def Lock.setPhase (l : Lock) (t : Nat) (p : Phase) : Lock := { l with phase := Function.update l.phase t p }

inductive LockEvent where
  /-- `lock_acquire`, its `ASSERT`. -/
  | acquire (t : Nat)
  /-- The `while` of its `sema_down`. -/
  | down (prio : Nat → Int) (t : Nat)
  | tryAcquire (t : Nat)
  /-- `lock->holder = thread_current ()`. -/
  | hold (t : Nat)
  /-- `lock_release` up to `lock->holder = NULL`. -/
  | release (t : Nat)
  /-- Its `sema_up`. -/
  | up (prio : Nat → Int) (t : Nat)
  /-- A donation sorts the waiters. -/
  | sort (prio : Nat → Int)

/-- `none` where an `ASSERT` fails, or where the thread is elsewhere. -/
def Lock.step (l : Lock) : LockEvent → Option Lock
  | .acquire t => if (l.phase t).free ∧ l.holder ≠ some t then some (l.setPhase t .entering) else none
  | .down prio t =>
    if l.phase t = .entering ∨ l.phase t = .woken then
      let (sema, done) := semaDown prio t l.sema
      some ({ l with sema := sema }.setPhase t (if done then .taken else .waiting))
    else none
  | .tryAcquire t =>
    if (l.phase t).free ∧ l.holder ≠ some t then
      let (sema, done) := semaTryDown l.sema
      some (if done then { l with sema := sema }.setPhase t .taken else l)
    else none
  | .hold t => if l.phase t = .taken then some ({ l with holder := some t }.setPhase t .inside) else none
  | .release t =>
    if (l.phase t).free ∧ l.holder = some t then some ({ l with holder := none }.setPhase t .releasing) else none
  | .up prio t =>
    if l.phase t = .releasing then
      let (sema, w) := semaUp prio l.sema
      let l₁ := { l with sema := sema }.setPhase t .out
      some (match w with
        | none => l₁
        | some w => l₁.setPhase w .woken)
    else none
  | .sort prio => some { l with sema := { l.sema with waiters := sortBy prio l.sema.waiters } }

/-- `lock_init`. -/
def Lock.init : Lock := ⟨⟨1, []⟩, none, fun _ => .out⟩

/-- `owner` is the one thread between its completed down and its `sema_up`. -/
structure Lock.Owned (l : Lock) (owner : Option Nat) : Prop where
  value : l.sema.value = if owner = none then 1 else 0
  critical : ∀ u, (l.phase u).critical = true ↔ owner = some u
  inside : ∀ u, l.phase u = .inside ↔ l.holder = some u
  waiting : ∀ w ∈ l.sema.waiters, l.phase w = .waiting
  nodup : l.sema.waiters.Nodup

variable {l l' : Lock} {owner : Option Nat} {p : Phase}

@[simp] theorem setPhase_phase {u : Nat} : (l.setPhase t p).phase u = if u = t then p else l.phase u := by
  simp only [Lock.setPhase, Function.update_apply]

theorem Lock.Owned.not_waiter (h : l.Owned owner) (hw : l.phase t ≠ .waiting) : t ∉ l.sema.waiters :=
  fun hm => hw (h.waiting t hm)

/-- A thread outside that does not wait moves on, outside. -/
theorem Lock.Owned.outside (h : l.Owned owner) (ht : (l.phase t).critical = false) (hw : t ∉ l.sema.waiters)
    (hp : p.critical = false) : (l.setPhase t p).Owned owner where
  value := h.value
  critical u := by
    rw [setPhase_phase, ← h.critical u]
    split
    · rename_i hu
      simp [hu, hp, ht]
    · rfl
  inside u := by
    show _ ↔ l.holder = some u
    rw [setPhase_phase, ← h.inside u]
    split
    · rename_i hu
      subst hu
      exact ⟨fun he => by simp [he, Phase.critical] at hp, fun he => by simp [he, Phase.critical] at ht⟩
    · rfl
  waiting w hws := by
    have hne : w ≠ t := fun he => hw (he ▸ hws)
    rw [setPhase_phase, if_neg hne]
    exact h.waiting w hws
  nodup := h.nodup

/-- A thread outside takes the unit there is. -/
theorem Lock.Owned.take (h : l.Owned owner) (ht : (l.phase t).critical = false) (hw : t ∉ l.sema.waiters)
    (hv : l.sema.value ≠ 0) :
    ({ l with sema := { l.sema with value := l.sema.value - 1 } }.setPhase t .taken).Owned (some t) := by
  have hnone : owner = none := by
    by_contra hne
    exact hv (h.value.trans (if_neg hne))
  subst hnone
  have hout (u : Nat) : (l.phase u).critical = false := by
    simpa using (h.critical u).not.mpr (by simp)
  refine ⟨?_, fun u => ?_, fun u => ?_, fun w hws => ?_, h.nodup⟩
  · show l.sema.value - 1 = 0
    rw [h.value]
    rfl
  · rw [setPhase_phase]
    split
    · simp_all [Phase.critical]
    · rename_i hne
      simp [hout u, Ne.symm hne]
  · show _ ↔ l.holder = some u
    rw [setPhase_phase, ← h.inside u]
    split
    · rename_i hu
      subst hu
      exact ⟨by simp, fun he => by simp [he, Phase.critical] at ht⟩
    · rfl
  · have hne : w ≠ t := fun he => hw (he ▸ hws)
    rw [setPhase_phase, if_neg hne]
    exact h.waiting w hws

theorem Lock.Owned.down {prio : Nat → Int} (h : l.Owned owner) (ht : l.phase t = .entering ∨ l.phase t = .woken)
    (hs : l.step (.down prio t) = some l') : ∃ o, l'.Owned o := by
  have hc : (l.phase t).critical = false := by rcases ht with ht | ht <;> rw [ht] <;> rfl
  have hw : t ∉ l.sema.waiters := h.not_waiter (by rcases ht with ht | ht <;> rw [ht] <;> simp)
  simp only [Lock.step, if_pos ht, Option.some.injEq, semaDown] at hs
  subst hs
  split
  · have h' := h.outside (p := .waiting) hc hw rfl
    refine ⟨owner, h'.value, h'.critical, h'.inside, fun w hws => ?_, ?_⟩
    · rcases mem_insertBy.mp hws with rfl | hws
      · show (l.setPhase w .waiting).phase w = .waiting
        rw [setPhase_phase, if_pos rfl]
      · exact h'.waiting w hws
    · exact nodup_insertBy h.nodup hw
  · rename_i hv
    exact ⟨some t, h.take hc hw hv⟩

/-- A thread that is in no call and does not hold the lock is outside. -/
theorem Lock.Owned.out (h : l.Owned owner) (hf : (l.phase t).free ∧ l.holder ≠ some t) : l.phase t = .out := by
  have hni : l.phase t ≠ .inside := fun he => hf.2 ((h.inside t).mp he)
  revert hf hni
  cases l.phase t <;> simp [Phase.free]

theorem Lock.Owned.tryAcquire (h : l.Owned owner) (hs : l.step (.tryAcquire t) = some l') : ∃ o, l'.Owned o := by
  simp only [Lock.step, Option.ite_none_right_eq_some, Option.some.injEq, semaTryDown] at hs
  obtain ⟨hf, rfl⟩ := hs
  have hout := h.out hf
  split
  · rename_i hv
    exact ⟨some t, h.take (by rw [hout]; rfl) (h.not_waiter (by rw [hout]; simp)) (Nat.ne_of_gt hv)⟩
  · exact ⟨owner, h⟩

theorem Lock.Owned.hold (h : l.Owned owner) (ht : l.phase t = .taken) :
    ({ l with holder := some t }.setPhase t .inside).Owned owner := by
  have ho : owner = some t := (h.critical t).mp (by rw [ht]; rfl)
  refine ⟨h.value, fun u => ?_, fun u => ?_, fun w hws => ?_, h.nodup⟩
  · rw [setPhase_phase, ← h.critical u]
    split
    · simp_all [Phase.critical]
    · rfl
  · show _ ↔ some t = some u
    rw [setPhase_phase]
    split
    · simp_all
    · rename_i hne
      -- nobody else is inside
      have hu : l.phase u ≠ .inside := fun he => by
        have := (h.critical u).mp (by rw [he]; rfl)
        exact hne (Option.some.inj (this.symm.trans ho))
      simp [hu, Ne.symm hne]
  · have hne : w ≠ t := fun he => h.not_waiter (by rw [ht]; simp) (he ▸ hws)
    rw [setPhase_phase, if_neg hne]
    exact h.waiting w hws

theorem Lock.Owned.release (h : l.Owned owner) (ht : l.holder = some t) :
    ({ l with holder := none }.setPhase t .releasing).Owned owner := by
  have hin : l.phase t = .inside := (h.inside t).mpr ht
  refine ⟨h.value, fun u => ?_, fun u => ?_, fun w hws => ?_, h.nodup⟩
  · rw [setPhase_phase, ← h.critical u]
    split
    · simp_all [Phase.critical]
    · rfl
  · show _ ↔ none = some u
    rw [setPhase_phase]
    split
    · simp
    · rename_i hne
      have hu : l.phase u ≠ .inside := fun he => hne (Option.some.inj (((h.inside u).mp he).symm.trans ht))
      simp [hu]
  · have hne : w ≠ t := fun he => h.not_waiter (by rw [hin]; simp) (he ▸ hws)
    rw [setPhase_phase, if_neg hne]
    exact h.waiting w hws

/-- The `sema_up` of `lock_release` puts the unit back. -/
theorem Lock.Owned.give {ws : List Nat} (h : l.Owned owner) (ht : l.phase t = .releasing)
    (hw : ∀ w ∈ ws, w ∈ l.sema.waiters) (hn : ws.Nodup) :
    ({ l with sema := ⟨inc l.sema.value, ws⟩ }.setPhase t .out).Owned none := by
  have ho : owner = some t := (h.critical t).mp (by rw [ht]; rfl)
  subst ho
  refine ⟨?_, fun u => ?_, fun u => ?_, fun w hws => ?_, hn⟩
  · show inc l.sema.value = 1
    rw [h.value]
    rfl
  · rw [setPhase_phase]
    split
    · simp [Phase.critical]
    · rename_i hne
      have hu : (l.phase u).critical ≠ true := fun hc => hne (Option.some.inj ((h.critical u).mp hc)).symm
      simp [hu]
  · show _ ↔ l.holder = some u
    rw [setPhase_phase, ← h.inside u]
    split
    · rename_i hu
      simp [hu, ht]
    · rfl
  · have hne : w ≠ t := fun he => h.not_waiter (by rw [ht]; simp) (he ▸ hw w hws)
    rw [setPhase_phase, if_neg hne]
    exact h.waiting w (hw w hws)

theorem Lock.Owned.up {prio : Nat → Int} (h : l.Owned owner) (ht : l.phase t = .releasing)
    (hs : l.step (.up prio t) = some l') : ∃ o, l'.Owned o := by
  have hp : (sortBy prio l.sema.waiters).Perm l.sema.waiters := perm_sortBy
  simp only [Lock.step, if_pos ht, Option.some.injEq, semaUp] at hs
  subst hs
  cases hw : sortBy prio l.sema.waiters with
  | nil => exact ⟨none, h.give ht (fun _ hw => hw) h.nodup⟩
  | cons w ws =>
    rw [hw] at hp
    obtain ⟨hnot, hn⟩ := List.nodup_cons.mp (hp.nodup_iff.mpr h.nodup)
    have h' := h.give ht (fun u hu => hp.mem_iff.mp (List.mem_cons_of_mem _ hu)) hn
    refine ⟨none, h'.outside ?_ hnot rfl⟩
    simpa using (h'.critical w).not.mpr (by simp)

theorem step_owned {e : LockEvent} (h : ∃ o, l.Owned o) (hs : l.step e = some l') : ∃ o, l'.Owned o := by
  obtain ⟨owner, h⟩ := h
  cases e with
  | acquire t =>
    simp only [Lock.step, Option.ite_none_right_eq_some, Option.some.injEq] at hs
    obtain ⟨hf, rfl⟩ := hs
    have hout := h.out hf
    exact ⟨owner, h.outside (by rw [hout]; rfl) (h.not_waiter (by rw [hout]; simp)) rfl⟩
  | down prio t =>
    by_cases ht : l.phase t = .entering ∨ l.phase t = .woken
    · exact h.down ht hs
    · simp [Lock.step, if_neg ht] at hs
  | tryAcquire t => exact h.tryAcquire hs
  | hold t =>
    simp only [Lock.step, Option.ite_none_right_eq_some, Option.some.injEq] at hs
    exact ⟨owner, hs.2 ▸ h.hold hs.1⟩
  | release t =>
    simp only [Lock.step, Option.ite_none_right_eq_some, Option.some.injEq] at hs
    exact ⟨owner, hs.2 ▸ h.release hs.1.2⟩
  | up prio t =>
    by_cases ht : l.phase t = .releasing
    · exact h.up ht hs
    · simp [Lock.step, if_neg ht] at hs
  | sort prio =>
    obtain rfl := Option.some.inj hs
    exact ⟨owner, h.value, h.critical, h.inside, fun w hw => h.waiting w (mem_sortBy.mp hw),
      perm_sortBy.nodup_iff.mpr h.nodup⟩

theorem owned_of_run {es : List LockEvent} (hr : Run.run Lock.step Lock.init es = some l) : ∃ o, l.Owned o := by
  have h₀ : Lock.init.Owned none := by constructor <;> simp [Lock.init, Phase.critical]
  exact Run.run_invariant (G := fun _ _ => True) (fun _ _ _ h _ hs => step_owned h hs) ⟨none, h₀⟩ hr
    (Run.always_of_mem _ fun _ _ _ => trivial)

/-! ## What semaphores are for -/

/-- Semaphores count and lose no wake-up: the value is the initial one plus
the ups less the completed downs, which is not negative, as long as that fits
an `unsigned`; while threads wait, no unit is left over from those on their way.
So a lock is one thread's at a time. -/
theorem counts_and_excludes (initial : Nat) (hi : initial < 2 ^ 32) (es : List SemEvent)
    (hr : Run.run Sem.step (Sem.init initial) es = some s) :
    s.downs ≤ initial + s.ups ∧ s.sema.value = (initial + s.ups - s.downs) % 2 ^ 32 ∧
      (initial + s.ups - s.downs < 2 ^ 32 → s.sema.value = initial + s.ups - s.downs) ∧
      (s.sema.waiters ≠ [] → s.sema.value ≤ s.woken.length) ∧
      ∀ es l, Run.run Lock.step Lock.init es = some l →
        ∀ t u, (l.phase t).critical = true → (l.phase u).critical = true → t = u := by
  have h := counts_of_run hi hr
  refine ⟨h.downs_le, h.value, fun hlt => h.value.trans (Nat.mod_eq_of_lt hlt), h.waiters, fun es l hl t u ht hu => ?_⟩
  obtain ⟨o, ho⟩ := owned_of_run hl
  exact Option.some.inj (((ho.critical t).mp ht).symm.trans ((ho.critical u).mp hu))

/-- Two threads wait, one is unblocked, and a third takes the unit first. -/
def bargeRun : List SemEvent :=
  [.down (fun _ => 31) 0, .down (fun _ => 31) 1, .up fun _ => 31, .down (fun _ => 31) 2, .again (fun _ => 31) 0]

theorem counts_barge : ∃ s, Run.run Sem.step (Sem.init 0) bargeRun = some s ∧ s.downs = 1 ∧
    s.sema.value = 0 + s.ups - s.downs := by
  obtain ⟨s, hs, hd⟩ := (Option.any_eq_true ..).mp
    (show (Run.run Sem.step (Sem.init 0) bargeRun).any (fun s => s.ups = 1 ∧ s.downs = 1) = true by decide +kernel)
  obtain ⟨hu, hd⟩ := of_decide_eq_true hd
  exact ⟨s, hs, hd, (counts_and_excludes 0 (by decide) bargeRun hs).2.2.1 (by rw [hu, hd]; decide)⟩

/-- At the greatest `unsigned` one more `sema_up` gives 0. -/
theorem not_counts_at_max : ∃ s, Run.run Sem.step (Sem.init (2 ^ 32 - 1)) [.up fun _ => 31] = some s ∧
    s.sema.value = 0 ∧ s.sema.value ≠ (2 ^ 32 - 1) + s.ups - s.downs :=
  ⟨_, rfl, by decide, by decide⟩

end PintosKaist.Synch
