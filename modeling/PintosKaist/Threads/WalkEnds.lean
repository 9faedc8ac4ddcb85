/-
When the donation `while` of `lock_acquire` ends. It goes from a holder to the
holder of the lock that one waits for, as long as they are not above the donor,
and looks at nothing else: it keeps no count and no mark. So it ends unless it
runs into threads that wait for each other in a circle, none of them above the
donor; there it goes round for ever, whatever the number of turns.
-/
import PintosKaist.Lib.Chain
import PintosKaist.Threads.DonationRuns
import PintosKaist.Threads.Records

namespace PintosKaist.Threads

open Relation

variable {k k' : Kernel} {t h l : Nat} {pending : Option Nat} {fuel : Nat} {p : Int} {o : Out}

/-- The holder of `pending`, when it is not above `p`. -/
def donee (k : Kernel) (p : Int) (pending : Option Nat) : Option Nat :=
  (pending.bind k.holder).filter fun h => k.prio h ≤ p

/-- The thread that the loop goes to after the holder `t`. -/
def nextDonee (k : Kernel) (p : Int) (t : Nat) : Option Nat := donee k p (k.threads t).pendingLock

/-- `t` waits for a lock of `u`, which is not above `p`. -/
def PassesTo (k : Kernel) (p : Int) (t u : Nat) : Prop :=
  ∃ l, (k.threads t).pendingLock = some l ∧ k.holder l = some u ∧ k.prio u ≤ p

theorem donee_eq_some : donee k p pending = some h ↔ ∃ l, pending = some l ∧ k.holder l = some h ∧ k.prio h ≤ p := by
  simp only [donee, Option.filter_eq_some_iff, Option.bind_eq_some_iff, decide_eq_true_eq]
  exact ⟨fun ⟨⟨l, hl, hh⟩, hp⟩ => ⟨l, hl, hh, hp⟩, fun ⟨l, hl, hh, hp⟩ => ⟨⟨l, hl, hh⟩, hp⟩⟩

theorem next_nextDonee : Chain.Next (nextDonee k p) = PassesTo k p := by
  funext t u
  exact propext donee_eq_some

theorem donees_eq_chain : donees fuel k p pending = Chain.chain (nextDonee k p) fuel (donee k p pending) := by
  induction fuel generalizing pending with
  | zero => rfl
  | succ fuel ih =>
    cases pending with
    | none => rfl
    | some l =>
      simp only [donees]
      cases hl : k.holder l with
      | none => simp [donee, hl]
      | some h =>
        by_cases hp : p < k.prio h
        · have hd : donee k p (some l) = none := by
            simp only [donee, Option.bind_some, hl, Option.filter_some, decide_eq_true_eq,
              if_neg (by omega : ¬ k.prio h ≤ p)]
          simp only [if_pos hp, hd, Chain.chain_none]
        · have hd : donee k p (some l) = some h := donee_eq_some.mpr ⟨l, rfl, hl, by omega⟩
          simp only [if_neg hp, hd, Chain.chain_succ, ih, nextDonee]

/-- A walk that ends in `fuel` turns has passed at most as many holders. -/
theorem walk_some (hw : walk fuel k pending = some k') :
    (donees (fuel + 1) k (k.prio k.cur) pending).length ≤ fuel := by
  induction fuel generalizing k pending with
  | zero =>
    obtain ⟨rfl, ho⟩ | ⟨n, _, _, he, _⟩ := walk_cases hw
    · simp [donees_of_over ho]
    · cases he
  | succ fuel ih =>
    obtain ⟨rfl, ho⟩ | ⟨n, l, h, he, rfl, hh, hle, hw⟩ := walk_cases hw
    · simp [donees_of_over ho]
    · cases he
      have hlen := ih hw
      rw [donate_prio_cur hle, donees_donate hle] at hlen
      simp only [donees, hh, if_neg hle, List.length_cons] at hlen ⊢
      omega

/-- A walk that ends is not led into a circle. -/
theorem not_circular_of_walk (hw : walk fuel k pending = some k') :
    ¬ Chain.Circular (nextDonee k (k.prio k.cur)) (donee k (k.prio k.cur) pending) := by
  intro hc
  have hle := walk_some hw
  rw [donees_eq_chain, hc.length] at hle
  omega

/-- One that is led into none ends within one more turn than there are threads. -/
theorem walk_of_not_circular (hlt : ∀ l t, k.holder l = some t → t < k.next)
    (hc : ¬ Chain.Circular (nextDonee k (k.prio k.cur)) (donee k (k.prio k.cur) pending)) :
    ∃ k', walk (k.next + 1) k pending = some k' := by
  refine Option.ne_none_iff_exists'.mp fun hw => ?_
  have hlen := walk_none hw
  have hin : donees (k.next + 1) k (k.prio k.cur) pending ⊆ List.range k.next := fun t ht => by
    rw [List.mem_range]
    exact donees_lt hlt t ht
  rw [donees_eq_chain] at hlen hin
  have hle := Chain.length_le_of_not_circular hc hin
  rw [List.length_range] at hle
  omega

/-! ## Who holds a lock has been created -/

/-- A part hands locks to the current thread only. -/
structure Grants (k k' : Kernel) : Prop where
  holder : ∀ l t, k'.holder l = some t → k.holder l = some t ∨ t = k.cur
  next : k.next ≤ k'.next

theorem SameLocks.grants (q : SameLocks k k') : Grants k k' where
  holder _ _ ht := .inl (q.holder ▸ ht)
  next := q.next

theorem grants_semaDown {s : Sema} : Grants k (semaDown k s).kernel := by
  rw [semaDown_eq]
  split
  · exact ⟨fun _ _ ht => .inl ht, Nat.le_refl _⟩
  · cases s with
    | sema n => exact ⟨fun _ _ ht => .inl ht, Nat.le_refl _⟩
    | lock l =>
      refine ⟨fun l' t ht => ?_, Nat.le_refl _⟩
      replace ht : Function.update k.holder l (some k.cur) l' = some t := ht
      rw [Function.update_apply] at ht
      split at ht
      · exact .inr (Option.some.inj ht).symm
      · exact .inl ht

theorem grants_lockAcquire (ho : lockAcquire k l = some o) : Grants k o.kernel := by
  simp only [lockAcquire] at ho
  split at ho
  · cases ho
  · split at ho
    · cases ho
      exact grants_semaDown
    · obtain ⟨k₂, hw, rfl⟩ := Option.map_eq_some_iff.mp ho
      have q : Quiet (acquiring k l) k₂ := quiet_walk hw
      obtain ⟨hh, hn⟩ := grants_semaDown (k := k₂) (s := .lock l)
      refine ⟨fun l' t ht => ?_, q.next ▸ hn⟩
      obtain h | h := hh l' t ht
      · exact .inl (walk_holder hw ▸ h)
      · exact .inr (h.trans q.cur)

theorem grants_lockRelease (hr : lockRelease k l = some k') : Grants k k' := by
  simp only [lockRelease, Option.ite_none_right_eq_some] at hr
  obtain ⟨ws, -, hsame⟩ := semaUp_lock hr.2
  refine ⟨fun l' t ht => ?_, hsame.next⟩
  rw [hsame.holder] at ht
  replace ht : Function.update k.holder l none l' = some t := ht
  rw [Function.update_apply] at ht
  split at ht
  · cases ht
  · exact .inl ht

theorem grants_exec {m : Micro} (ho : m.exec k = some o) : Grants k o.kernel := by
  cases m with
  | acquire l => exact grants_lockAcquire ho
  | down s =>
    cases ho
    exact grants_semaDown
  | release l =>
    obtain ⟨k₂, hr, rfl⟩ := Option.map_eq_some_iff.mp ho
    exact grants_lockRelease hr
  | up n =>
    obtain ⟨k₂, hr, rfl⟩ := Option.map_eq_some_iff.mp ho
    exact (same_semaUp hr).grants
  | compare =>
    cases ho
    exact same_compare.grants
  | yield =>
    cases ho
    exact same_threadYield.grants
  | block =>
    cases ho
    exact same_setStatus.grants
  | unblock t =>
    obtain ⟨k₂, hr, rfl⟩ := Option.map_eq_some_iff.mp ho
    exact (same_threadUnblock hr).grants
  | setPriority p =>
    cases ho
    exact ⟨fun l t ht => .inl ht, Nat.le_refl _⟩
  | init p =>
    simp only [Micro.exec, Option.ite_none_right_eq_some, Option.some.injEq] at ho
    exact ho.2 ▸ ⟨fun _ _ ht => .inl ht, Nat.le_refl _⟩
  | create p =>
    simp only [Micro.exec, threadCreate, Option.map_eq_some_iff] at ho
    obtain ⟨k₂, hu, ho⟩ := ho
    have q := same_threadUnblock hu
    have h₂ : Grants k k₂ := ⟨fun l t ht => .inl (q.holder ▸ ht), Nat.le_of_succ_le q.next⟩
    split at ho <;> subst ho
    · have q' := same_threadYield (k := k₂)
      exact ⟨fun l t ht => h₂.holder l t (q'.holder ▸ ht), le_trans h₂.next q'.next⟩
    · exact h₂

/-- The lists are in order, and holders have been created. -/
structure Held (k : Kernel) : Prop extends Sane k where
  holderLt : ∀ l t, k.holder l = some t → t < k.next

theorem Held.grants (hk : Held k) (hs : Sane k') (g : Grants k k') : Held k' := by
  refine ⟨hs, fun l t ht => Nat.lt_of_lt_of_le ?_ g.next⟩
  rcases g.holder l t ht with h | rfl
  · exact hk.holderLt l t h
  · exact hk.curLt

theorem Held.step {e : LockEvent} (hk : Held k) (hs : lockStep k e = some k') : Held k' := by
  cases e with
  | tryAcquire l =>
    simp only [lockStep, lockTryAcquire, Option.ite_none_right_eq_some, Option.ite_none_left_eq_some] at hs
    obtain ⟨-, -, hs⟩ := hs
    split at hs <;> obtain rfl := Option.some.inj hs
    · rename_i hv
      have q : Quiet k (semaTryDown k (.lock l)) := by
        rw [semaTryDown, if_pos hv]
        exact quiet_setSema (.refl _)
      refine hk.grants (hk.quiet (q.trans quiet_setHolder)) ⟨fun l' t ht => ?_, q.next.ge⟩
      rw [setHolder_holder] at ht
      split at ht
      · exact .inr (Option.some.inj ht).symm
      · rw [semaTryDown, if_pos hv] at ht
        exact .inl ht
    · exact hk
  | kern e =>
    have hsane := step_sane hk.toSane hs
    cases e with
    | call c =>
      simp only [lockStep, Threads.step, Option.ite_none_right_eq_some, Option.some.injEq] at hs
      exact ⟨hsane, hs.2 ▸ hk.holderLt⟩
    | part =>
      obtain ⟨o, ho, rfl⟩ := Option.map_eq_some_iff.mp hs
      obtain ⟨m, ms, -, -, he⟩ := partOut_eq_some.mp ho
      obtain ⟨hh, hn⟩ := grants_exec he
      refine hk.grants hsane ⟨fun l t ht => ?_, ?_⟩
      · cases o with
        | done k => exact hh l t ht
        | sched k => exact hh l t (same_schedule.holder ▸ ht)
      · cases o with
        | done k => exact hn
        | sched k => exact le_trans hn same_schedule.next

theorem boot_held (value : Nat → Nat) : Held (boot value) := ⟨boot_sane value, fun _ _ ht => by simp [boot] at ht⟩

/-! ## The loop -/

/-- The `while` of `lock_acquire`, for `n` turns at most, with the assignments
to `cur->pending_lock` and `pending` before it. -/
def donationLoop (n : Nat) (k : Kernel) (l : Nat) : Option Kernel :=
  match k.holder l with
  | none => walk n k none
  | some _ => walk n (acquiring k l) (some l)

/-- The loop ends, and the caller goes on to `sema_down`. -/
def GetsThrough (k : Kernel) (l : Nat) : Prop :=
  ∃ n k', donationLoop n k l = some k' ∧ lockAcquire k l = some (semaDown k' (.lock l))

/-- The way from the holder of `l` leads to threads that wait for each other in
a circle, the caller waiting for `l`, and nobody on it is above the caller. -/
def LeadsIntoCircle (k : Kernel) (l : Nat) : Prop :=
  ∃ h, k.holder l = some h ∧ k.prio h ≤ k.prio k.cur ∧
    ∃ t, ReflTransGen (PassesTo (acquiring k l) (k.prio k.cur)) h t ∧
      TransGen (PassesTo (acquiring k l) (k.prio k.cur)) t t

theorem circular_iff :
    Chain.Circular (nextDonee (acquiring k l) (k.prio k.cur)) (donee (acquiring k l) (k.prio k.cur) (some l)) ↔
    LeadsIntoCircle k l := by
  simp only [Chain.Circular, next_nextDonee, LeadsIntoCircle, Option.mem_def, donee_eq_some, Option.some.injEq,
    exists_eq_left', acquiring_prio]
  exact ⟨fun ⟨h, ⟨hh, hp⟩, hc⟩ => ⟨h, hh, hp, hc⟩, fun ⟨h, hh, hp, hc⟩ => ⟨h, ⟨hh, hp⟩, hc⟩⟩

theorem acquiring_prio_cur : (acquiring k l).prio (acquiring k l).cur = k.prio k.cur := by
  rw [acquiring_prio]
  rfl

/-- In a circle the loop goes round whatever the number of turns. -/
theorem LeadsIntoCircle.loop (hc : LeadsIntoCircle k l) (n : Nat) : donationLoop n k l = none := by
  obtain ⟨h, hh, -⟩ := id hc
  rw [← circular_iff, ← acquiring_prio_cur] at hc
  simp only [donationLoop, hh]
  exact Option.eq_none_iff_forall_ne_some.mpr fun k' hw => not_circular_of_walk hw hc

theorem getsThrough_iff (hk : Held k) (hl : k.holder l ≠ some k.cur) :
    GetsThrough k l ↔ ¬ LeadsIntoCircle k l := by
  constructor
  · rintro ⟨n, k', hw, -⟩ hc
    rw [hc.loop n] at hw
    cases hw
  · intro hc
    simp only [GetsThrough, donationLoop, lockAcquire, if_neg hl]
    cases hh : k.holder l with
    | none => exact ⟨0, k, rfl, rfl⟩
    | some h =>
      rw [← circular_iff, ← acquiring_prio_cur] at hc
      obtain ⟨k', hw⟩ := walk_of_not_circular (k := acquiring k l) hk.holderLt hc
      refine ⟨k.next + 1, k', hw, ?_⟩
      have hw' : walk (k.next + 1) (k.modify k.cur fun th => { th with pendingLock := some l }) (some l) = some k' := hw
      simp only [hw', Option.map_some]

/-- The call is not stuck in its loop. -/
theorem lockAcquire_isSome (hl : k.holder l ≠ some k.cur) : (lockAcquire k l).isSome ↔ GetsThrough k l := by
  refine ⟨fun h => ?_, fun ⟨n, k', hw, he⟩ => he ▸ rfl⟩
  obtain ⟨o, ho⟩ := Option.isSome_iff_exists.mp h
  have ho' := ho
  simp only [lockAcquire, if_neg hl] at ho'
  cases hh : k.holder l with
  | none =>
    rw [hh] at ho'
    exact ⟨0, k, by simp only [donationLoop, hh, walk], ho.trans ho'.symm⟩
  | some h =>
    simp only [hh, Option.map_eq_some_iff] at ho'
    obtain ⟨k', hw, rfl⟩ := ho'
    refine ⟨k.next + 1, k', ?_, ho⟩
    simp only [donationLoop, hh]
    exact hw

theorem acquiring_setTodo_pendingLock {ms : List Micro} :
    ((acquiring (k.setTodo k.cur ms) l).threads t).pendingLock = ((acquiring k l).threads t).pendingLock := by
  have hcur : (k.setTodo k.cur ms).cur = k.cur := rfl
  simp only [acquiring, modify_threads, setTodo_threads, hcur]
  by_cases ht : t = k.cur <;> simp [ht]

/-- What is left of the call does not matter. -/
theorem leadsIntoCircle_setTodo {ms : List Micro} : LeadsIntoCircle (k.setTodo k.cur ms) l ↔ LeadsIntoCircle k l := by
  have hpass : PassesTo (acquiring (k.setTodo k.cur ms) l) = PassesTo (acquiring k l) := by
    funext p t u
    simp only [PassesTo, acquiring_setTodo_pendingLock, acquiring_prio, setTodo_prio]
    rfl
  simp only [LeadsIntoCircle, hpass, setTodo_prio]
  rfl

theorem held_of_run {value : Nat → Nat} {es : List LockEvent} (hr : Run.run lockStep (boot value) es = some k) :
    Held k :=
  Run.run_invariant (G := fun _ _ => True) (fun _ _ _ hk _ hs => hk.step hs) (boot_held value) hr
    (Run.always_of_mem _ fun _ _ _ => trivial)

/-- **When the donation `while` ends.** In every state that threads reach by
acquiring, trying and releasing locks, and for every lock the running thread
may acquire, the loop ends and the thread goes on to `sema_down` exactly when
the way from the lock's holder does not lead to threads that wait for each
other in a circle and are not above the caller; and where it does, a call that
has come to this loop never gets any further. -/
theorem lockAcquire_getsThrough_iff {value : Nat → Nat} {es : List LockEvent}
    (hr : Run.run lockStep (boot value) es = some k) (l : Nat) (hl : k.holder l ≠ some k.cur) :
    (GetsThrough k l ↔ ¬ LeadsIntoCircle k l) ∧
      ∀ ms, (k.threads k.cur).todo = .acquire l :: ms → k.cur ≠ k.idleThread →
        ((lockStep k (.kern .part)).isSome ↔ ¬ LeadsIntoCircle k l) := by
  have hk := held_of_run hr
  refine ⟨getsThrough_iff hk hl, fun ms ht hi => ?_⟩
  have hs : Held (k.setTodo k.cur ms) := ⟨hk.setTodo ms, hk.holderLt⟩
  have hallowed : (Micro.acquire l).allowed k = true := decide_eq_true hi
  have hpart : lockStep k (.kern .part) = (lockAcquire (k.setTodo k.cur ms) l).map Out.finish := by
    simp only [lockStep, step, partOut, ht, hallowed, if_true, Micro.exec]
  rw [hpart, Option.isSome_map, lockAcquire_isSome (k := k.setTodo k.cur ms) hl, getsThrough_iff hs hl,
    leadsIntoCircle_setTodo]

/-- The initial thread takes lock 1 and creates a thread at 32, which takes lock 2. -/
def apartRun : List LockEvent :=
  (callAll (.lockAcquire 1) ++ callAll (.create 32) ++ callAll (.lockAcquire 2)).map .kern

/-- The new thread gets through to wait for lock 1. -/
theorem lockAcquire_getsThrough_apart : ∃ k, Run.run lockStep (boot fun _ => 0) apartRun = some k ∧
    k.holder 1 = some 0 ∧ k.prio 0 < k.prio k.cur ∧ GetsThrough k 1 := by
  obtain ⟨k, hr, hfacts⟩ := (Option.any_eq_true _ _).mp
    (by decide +kernel : (Run.run lockStep (boot fun _ => 0) apartRun).any (fun k => decide (k.cur = 2 ∧
      k.holder 1 = some 0 ∧ k.prio 0 < k.prio 2 ∧ (k.threads 0).pendingLock = none)) = true)
  obtain ⟨hcur, hh, hp, hpend⟩ := of_decide_eq_true hfacts
  have hl : k.holder 1 ≠ some k.cur := by simp [hh, hcur]
  refine ⟨k, hr, hh, by rwa [hcur], ((lockAcquire_getsThrough_iff hr 1 hl).1).mpr ?_⟩
  rintro ⟨h, hh', -, t, hto, hback⟩
  obtain rfl : 0 = h := Option.some.inj (hh.symm.trans hh')
  have hend (u) : ¬ PassesTo (acquiring k 1) (k.prio k.cur) 0 u := by
    rintro ⟨l, hl, -⟩
    simp [acquiring, hcur, hpend] at hl
  obtain rfl | ⟨u, hu, -⟩ := hto.cases_head
  · obtain ⟨u, hu, -⟩ := TransGen.head'_iff.mp hback
    exact hend u hu
  · exact hend u hu

/-- And then waits for it, with its priority left at the holder. -/
def crossRun : List LockEvent := apartRun ++ (callAll (.lockAcquire 1)).map .kern

/-- The initial thread now acquires lock 2: each waits for the other at 32, and
no number of turns gets it out of the loop. -/
theorem crossRun_stuck : ∃ k, Run.run lockStep (boot fun _ => 0) crossRun = some k ∧ (k.threads k.cur).todo = [] ∧
    k.holder 2 ≠ some k.cur ∧ (∀ n, donationLoop n k 2 = none) ∧ ¬ GetsThrough k 2 := by
  obtain ⟨k, hr, hfacts⟩ := (Option.any_eq_true _ _).mp
    (by decide +kernel : (Run.run lockStep (boot fun _ => 0) crossRun).any (fun k => decide (k.cur = 0 ∧
      (k.threads 0).todo = [] ∧ k.holder 1 = some 0 ∧ k.holder 2 = some 2 ∧ k.prio 0 = 32 ∧ k.prio 2 = 32 ∧
      (k.threads 2).pendingLock = some 1)) = true)
  obtain ⟨hcur, htodo, h₁, h₂, hp₀, hp₂, hpend⟩ := of_decide_eq_true hfacts
  have hto : PassesTo (acquiring k 2) 32 2 0 := by
    refine ⟨1, ?_, h₁, ?_⟩
    · simp [acquiring, hcur, hpend]
    · rw [acquiring_prio, hp₀]
  have hback : PassesTo (acquiring k 2) 32 0 2 := by
    refine ⟨2, ?_, h₂, ?_⟩
    · simp [acquiring, hcur]
    · rw [acquiring_prio, hp₂]
  have hc : LeadsIntoCircle k 2 := by
    rw [LeadsIntoCircle, hcur, hp₀]
    exact ⟨2, h₂, hp₂.le, 2, .refl, .head hto (.single hback)⟩
  refine ⟨k, hr, by rw [hcur, htodo], by simp [h₂, hcur], hc.loop, ?_⟩
  rintro ⟨n, k', hw, -⟩
  rw [hc.loop n] at hw
  cases hw

end PintosKaist.Threads
