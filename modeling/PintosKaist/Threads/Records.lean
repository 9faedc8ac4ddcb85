/-
The records of donations: every thread's list is in order, is about locks that
the thread holds, and together with `original_priority` makes its priority.

This needs no condition on the run, unlike that priorities be exact
(`Threads.Donation`): it says what the records and the priority have to do with
each other, not what the records have to do with the threads that wait.
-/
import PintosKaist.Threads.Donation
import PintosKaist.Threads.Life

namespace PintosKaist.Threads

open OrdList

variable {k k' : Kernel} {t h l : Nat} {o : Out} {b x : Int} {ds : List Donation} {d : Donation}

/-! ## `lock_try_acquire` -/

/-- `lock_try_acquire`. -/
def lockTryAcquire (k : Kernel) (l : Nat) : Option Kernel :=
  if k.holder l = some k.cur then none
  else if 0 < (k.semas (.lock l)).value then some ((semaTryDown k (.lock l)).setHolder l (some k.cur))
  else some k

/-- What happens next, `lock_try_acquire` included. -/
inductive LockEvent where
  | kern (e : Event)
  | tryAcquire (l : Nat)
  deriving DecidableEq, Repr

def lockStep (k : Kernel) : LockEvent → Option Kernel
  | .kern e => step k e
  | .tryAcquire l =>
    if (k.threads k.cur).todo = [] ∧ k.cur ≠ k.idleThread then lockTryAcquire k l else none

/-! ## The records -/

structure Booked (k : Kernel) : Prop where
  sorted : ∀ t, Desc Donation.priority (k.threads t).donations
  /-- A record is about a lock that the thread holds. -/
  record : ∀ t, ∀ d ∈ (k.threads t).donations, k.holder d.lock = some t
  paid : ∀ t, k.prio t = payout (k.base t) (k.threads t).donations
  /-- A lock is free when its semaphore is up. -/
  free : ∀ l, k.holder l = none ∧ (k.semas (.lock l)).value = 1 ∨
    k.holder l ≠ none ∧ (k.semas (.lock l)).value = 0

/-- `k'` is `k` as far as records go. -/
structure SameBooks (k k' : Kernel) : Prop where
  prio : ∀ t, k'.prio t = k.prio t
  base : ∀ t, k'.base t = k.base t
  donations : ∀ t, (k'.threads t).donations = (k.threads t).donations
  holder : k'.holder = k.holder
  value : ∀ l, (k'.semas (.lock l)).value = (k.semas (.lock l)).value

theorem SameLocks.books (q : SameLocks k k') : SameBooks k k' := ⟨q.prio, q.base, q.donations, q.holder, q.value⟩

theorem Booked.same (h : Booked k) (q : SameBooks k k') : Booked k' where
  sorted t := by
    rw [q.donations]
    exact h.sorted t
  record t d hd := by
    rw [q.holder]
    exact h.record t d (q.donations t ▸ hd)
  paid t := by
    rw [q.prio, q.base, q.donations]
    exact h.paid t
  free l := by
    rw [q.holder, q.value]
    exact h.free l

theorem Booked.finish (h : Booked o.kernel) : Booked o.finish := by
  cases o with
  | done k => exact h
  | sched k => exact h.same same_schedule.books

/-- Records in order pay out the greatest of them, if it is above the thread's
own priority. -/
theorem payout_eq (hd : Desc Donation.priority ds) (hb : b ≤ x) (hle : ∀ d ∈ ds, d.priority ≤ x)
    (hx : x = b ∨ ∃ d ∈ ds, x = d.priority) : payout b ds = x := by
  obtain ⟨h₁, h₂⟩ := le_payout (b := b) hd
  refine le_antisymm ?_ ?_
  · obtain h | ⟨d, hd, h⟩ := @payout_cases b ds
    · rwa [h]
    · rw [h]
      exact hle d hd
  · obtain rfl | ⟨d, hd, rfl⟩ := hx
    · exact h₁
    · exact h₂ d hd

/-- A new record that is not below what is paid already is what is paid. -/
theorem payout_insertBy (hd : Desc Donation.priority ds) (hle : payout b ds ≤ d.priority) :
    payout b (insertBy Donation.priority d ds) = d.priority := by
  obtain ⟨h₁, h₂⟩ := le_payout (b := b) hd
  refine payout_eq (hd.insertBy d) (le_trans h₁ hle) (fun r hr => ?_) (.inr ⟨d, mem_insertBy.mpr (.inl rfl), rfl⟩)
  obtain rfl | hr := mem_insertBy.mp hr
  · exact le_refl _
  · exact le_trans (h₂ r hr) hle

/-! ## The calls -/

theorem Booked.donate (hk : Booked k) (hl : k.holder l = some h) (hle : ¬ k.prio k.cur < k.prio h) :
    Booked (donate k l h) := by
  refine ⟨fun t => ?_, fun t d hd => ?_, fun t => ?_, fun l' => ?_⟩
  · rw [donate_donations]
    split
    · exact (hk.sorted h).insertBy _
    · exact hk.sorted t
  · rw [donate_holder]
    rw [donate_donations] at hd
    split at hd
    · rename_i ht
      obtain rfl | hd := mem_insertBy.mp hd
      · exact ht ▸ hl
      · exact ht ▸ hk.record h d hd
    · exact hk.record t d hd
  · rw [donate_prio_of_le hle, Kernel.base, donate_originalPriority, donate_donations]
    split
    · rename_i ht
      subst ht
      have hpaid := hk.paid t
      have hle' : payout (k.base t) (k.threads t).donations ≤ k.prio k.cur := by omega
      exact (payout_insertBy (d := ⟨k.prio k.cur, k.cur, l⟩) (hk.sorted t) hle').symm
    · exact hk.paid t
  · rw [donate_holder, donate_value]
    exact hk.free l'

theorem Booked.walk {fuel : Nat} {pending : Option Nat} (hk : Booked k) (hw : walk fuel k pending = some k') :
    Booked k' := by
  induction fuel generalizing k pending with
  | zero =>
    obtain ⟨rfl, -⟩ | ⟨n, _, _, he, _⟩ := walk_cases hw
    · exact hk
    · cases he
  | succ fuel ih =>
    obtain ⟨rfl, -⟩ | ⟨n, l, h, he, -, hl, hle, hw⟩ := walk_cases hw
    · exact hk
    · cases he
      exact ih (hk.donate hl hle) hw

/-- The current thread takes a free lock. -/
theorem Booked.hold (hk : Booked k) (hl : k.holder l = none) (hd : ∀ t, (k'.threads t).donations = (k.threads t).donations)
    (hp : ∀ t, k'.prio t = k.prio t) (hb : ∀ t, k'.base t = k.base t)
    (hh : k'.holder = Function.update k.holder l (some k.cur))
    (hv : ∀ l', (k'.semas (.lock l')).value = if l' = l then 0 else (k.semas (.lock l')).value) : Booked k' := by
  have hold (l') : k'.holder l' = if l' = l then some k.cur else k.holder l' := by rw [hh, Function.update_apply]
  refine ⟨fun t => by rw [hd]; exact hk.sorted t, fun t d hm => ?_, fun t => ?_, fun l' => ?_⟩
  · have := hk.record t d (hd t ▸ hm)
    rw [hold, if_neg (fun e => by simp [e, hl] at this)]
    exact this
  · rw [hp, hb, hd]
    exact hk.paid t
  · rw [hold, hv]
    split
    · exact .inr ⟨by simp, rfl⟩
    · exact hk.free l'

theorem Booked.semaDown {s : Sema} (hk : Booked k) : Booked (Threads.semaDown k s).kernel := by
  cases s with
  | sema n => exact hk.same same_semaDown.books
  | lock l =>
    rw [semaDown_eq]
    split
    · refine hk.same ⟨fun t => ?_, fun t => ?_, fun t => ?_, rfl, fun l' => ?_⟩
      · show ((blockOn k (.lock l)).threads t).priority = _
        rw [blockOn_threads]
        split <;> simp_all [Kernel.prio]
      · show ((blockOn k (.lock l)).threads t).originalPriority = _
        rw [blockOn_threads]
        split <;> simp_all [Kernel.base]
      · show ((blockOn k (.lock l)).threads t).donations = _
        rw [blockOn_threads]
        split <;> simp_all
      · show ((k.setSema (.lock l) _).semas (.lock l')).value = _
        rw [setSema_semas]
        split
        · rename_i he
          rw [he]
        · rfl
    · rename_i hv
      have hl : k.holder l = none := by
        rcases hk.free l with h | h
        · exact h.1
        · exact absurd h.2 hv
      refine hk.hold hl (fun t => ?_) (fun t => ?_) (fun t => ?_) rfl fun l' => ?_
      · show ((take k (.lock l)).threads t).donations = _
        rw [take_threads]
        split <;> simp_all
      · show ((take k (.lock l)).threads t).priority = _
        rw [take_threads]
        split <;> simp_all [Kernel.prio]
      · show ((take k (.lock l)).threads t).originalPriority = _
        rw [take_threads]
        split <;> simp_all [Kernel.base]
      · show ((k.setSema (.lock l) _).semas (.lock l')).value = _
        rw [setSema_semas]
        have h1 := hk.free l
        by_cases he : l' = l
        · rw [if_pos (by rw [he]), if_pos he]
          simp_all
        · rw [if_neg (by simpa using he), if_neg he]

theorem Booked.lockAcquire (hk : Booked k) (ho : lockAcquire k l = some o) : Booked o.kernel := by
  simp only [Threads.lockAcquire] at ho
  split at ho
  · cases ho
  · split at ho
    · cases ho
      exact hk.semaDown
    · obtain ⟨k₂, hw, rfl⟩ := Option.map_eq_some_iff.mp ho
      have h₁ : Booked (acquiring k l) := by
        refine hk.same ⟨fun t => congrFun acquiring_prio t, fun t => ?_, fun t => ?_, rfl, fun _ => rfl⟩
        · rw [acquiring, Kernel.base, modify_threads]
          split <;> simp_all [Kernel.base]
        · rw [acquiring, modify_threads]
          split <;> simp_all
      exact (h₁.walk hw).semaDown

theorem Booked.lockTryAcquire (hk : Booked k) (ho : lockTryAcquire k l = some k') : Booked k' := by
  simp only [Threads.lockTryAcquire] at ho
  split at ho
  · cases ho
  split at ho
  · rename_i hv
    obtain rfl := Option.some.inj ho
    have hfree : k.holder l = none ∧ (k.semas (.lock l)).value = 1 := by
      rcases hk.free l with h | h
      · exact h
      · omega
    rw [semaTryDown, if_pos hv]
    refine hk.hold hfree.1 (fun _ => rfl) (fun _ => rfl) (fun _ => rfl) rfl fun l' => ?_
    show ((k.setSema (.lock l) _).semas (.lock l')).value = _
    rw [setSema_semas]
    by_cases he : l' = l
    · rw [if_pos (by rw [he]), if_pos he, hfree.2]
    · rw [if_neg (by simpa using he), if_neg he]
  · exact Option.some.inj ho ▸ hk

/-- The current thread is paid anew, from some of its records and the base
priority `b`; locks it has no record of any more may be free now. -/
theorem Booked.repay (hk : Booked k) (hsub : ∀ d ∈ ds, d ∈ (k.threads k.cur).donations)
    (hsort : Desc Donation.priority ds) (hcur : k'.threads k.cur = (k.threads k.cur).pay b ds)
    (hother : ∀ t, t ≠ k.cur → k'.threads t = k.threads t)
    (hkeep : ∀ l, k'.holder l = k.holder l ∨ k.holder l = some k.cur ∧ ∀ d ∈ ds, d.lock ≠ l)
    (hfree : ∀ l, k'.holder l = none ∧ (k'.semas (.lock l)).value = 1 ∨
      k'.holder l ≠ none ∧ (k'.semas (.lock l)).value = 0) : Booked k' := by
  refine ⟨fun t => ?_, fun t d hd => ?_, fun t => ?_, hfree⟩
  · by_cases ht : t = k.cur
    · subst ht
      rw [hcur]
      exact hsort
    · rw [hother t ht]
      exact hk.sorted t
  · by_cases ht : t = k.cur
    · subst ht
      rw [hcur] at hd
      have hold := hk.record k.cur d (hsub d hd)
      rcases hkeep d.lock with h | ⟨-, h⟩
      · rwa [h]
      · exact absurd rfl (h d hd)
    · rw [hother t ht] at hd
      have hold := hk.record t d hd
      rcases hkeep d.lock with h | ⟨h, -⟩
      · rwa [h]
      · exact absurd (Option.some.inj (hold.symm.trans h)) ht
  · by_cases ht : t = k.cur
    · subst ht
      rw [Kernel.prio, Kernel.base, hcur]
      rfl
    · rw [Kernel.prio, Kernel.base, hother t ht]
      exact hk.paid t

theorem Booked.setPriority {p : Int} (hk : Booked k) : Booked (threadSetPriority k p) := by
  refine hk.repay (b := p) (fun d hd => hd) (hk.sorted k.cur) ?_ (fun t ht => ?_) (fun l => .inl rfl) hk.free
  · simp only [threadSetPriority, modify_threads, if_true]
    cases (k.threads k.cur).donations <;> rfl
  · simp only [threadSetPriority, modify_threads, if_neg ht]

theorem Booked.lockRelease (hk : Booked k) (hr : lockRelease k l = some k') : Booked k' := by
  simp only [Threads.lockRelease, Option.ite_none_right_eq_some] at hr
  obtain ⟨hl, hr⟩ := hr
  obtain ⟨ws, -, hsame⟩ := semaUp_lock hr
  refine Booked.same ?_ hsame.books
  have hv : (k.semas (.lock l)).value = 0 := by
    rcases hk.free l with ⟨h, -⟩ | ⟨-, h⟩
    · rw [hl] at h
      cases h
    · exact h
  have hcur := (release_threads (l := l) (t := k.cur) (hk.sorted k.cur)).trans (if_pos rfl)
  refine hk.repay (fun d hd => (List.mem_filter.mp hd).1) ((hk.sorted k.cur).filter _) hcur (fun t ht => ?_)
    (fun l' => ?_) fun l' => ?_
  · exact (release_threads (hk.sorted k.cur)).trans (if_neg ht)
  · show ((recalcPriority (removeDonationForLock k l)).setHolder l none).holder l' = _ ∨ _
    rw [setHolder_holder]
    by_cases he : l' = l
    · subst he
      exact .inr ⟨hl, fun d hd => by simpa using (List.mem_filter.mp hd).2⟩
    · exact .inl (if_neg he)
  · show ((recalcPriority (removeDonationForLock k l)).setHolder l none).holder l' = none ∧ _ ∨
      ((recalcPriority (removeDonationForLock k l)).setHolder l none).holder l' ≠ none ∧ _
    rw [setHolder_holder, setSema_semas]
    by_cases he : l' = l
    · subst he
      left
      rw [if_pos rfl, if_pos rfl]
      exact ⟨rfl, congrArg (· + 1) hv⟩
    · rw [if_neg he, if_neg (by simpa using he)]
      exact hk.free l'

theorem Booked.threadCreate {p : Int} (hk : Booked k) (ho : threadCreate k p = some o) : Booked o.kernel := by
  have h₁ : Booked (k.alloc p) := by
    have hthreads (t) : (k.alloc p).threads t = if t = k.next then initThread p else k.threads t :=
      modify_threads (k := k) (f := fun _ => initThread p)
    refine ⟨fun t => ?_, fun t d hd => ?_, fun t => ?_, hk.free⟩
    · rw [hthreads]
      split
      · exact List.Pairwise.nil
      · exact hk.sorted t
    · rw [hthreads] at hd
      split at hd
      · cases hd
      · exact hk.record t d hd
    · rw [Kernel.prio, Kernel.base, hthreads]
      split
      · rfl
      · exact hk.paid t
  simp only [Threads.threadCreate, Option.map_eq_some_iff] at ho
  obtain ⟨k₂, hu, ho⟩ := ho
  have h₂ := h₁.same (same_threadUnblock hu).books
  split at ho <;> subst ho
  · exact h₂.same same_threadYield.books
  · exact h₂

/-! ## The runs -/

theorem Booked.setTodo {ms : List Micro} (hk : Booked k) : Booked (k.setTodo t ms) := by
  have q : SameLocks k (k.setTodo t ms) := same_modify rfl rfl rfl fun _ _ => rfl
  exact hk.same q.books

theorem Booked.exec {m : Micro} (hk : Booked k) (ho : m.exec k = some o) : Booked o.kernel := by
  cases m with
  | acquire l => exact hk.lockAcquire ho
  | down s =>
    cases ho
    exact hk.semaDown
  | release l =>
    obtain ⟨k₂, hr, rfl⟩ := Option.map_eq_some_iff.mp ho
    exact hk.lockRelease hr
  | up n =>
    obtain ⟨k₂, hr, rfl⟩ := Option.map_eq_some_iff.mp ho
    exact hk.same (same_semaUp hr).books
  | compare =>
    cases ho
    exact hk.same same_compare.books
  | yield =>
    cases ho
    exact hk.same same_threadYield.books
  | block =>
    cases ho
    exact hk.same same_setStatus.books
  | unblock t =>
    obtain ⟨k₂, hr, rfl⟩ := Option.map_eq_some_iff.mp ho
    exact hk.same (same_threadUnblock hr).books
  | setPriority p =>
    cases ho
    exact hk.setPriority
  | init p =>
    simp only [Micro.exec, Option.ite_none_right_eq_some, Option.some.injEq] at ho
    exact ho.2 ▸ hk
  | create p => exact hk.threadCreate ho

theorem Booked.step {e : LockEvent} (h : Booked k) (hk : lockStep k e = some k') : Booked k' := by
  cases e with
  | tryAcquire l =>
    simp only [lockStep, Option.ite_none_right_eq_some] at hk
    exact h.lockTryAcquire hk.2
  | kern e =>
    cases e with
    | call c =>
      simp only [lockStep, Threads.step, Option.ite_none_right_eq_some, Option.some.injEq] at hk
      exact hk.2 ▸ h.setTodo
    | part =>
      obtain ⟨o, ho, rfl⟩ := Option.map_eq_some_iff.mp hk
      obtain ⟨m, ms, -, -, he⟩ := partOut_eq_some.mp ho
      exact (h.setTodo.exec he).finish

theorem boot_booked (value : Nat → Nat) : Booked (boot value) := by
  refine ⟨fun t => ?_, fun t d hd => ?_, fun t => ?_, fun l => .inl ⟨rfl, rfl⟩⟩
  · simp only [boot]
    split <;> exact List.Pairwise.nil
  · simp only [boot] at hd
    split at hd <;> cases hd
  · simp only [Kernel.prio, Kernel.base, boot]
    split <;> rfl

/-- The greatest of a priority and those of some records. -/
def maxPriority (b : Int) (ds : List Donation) : Int := (ds.map Donation.priority).foldl max b

theorem maxPriority_spec (b : Int) (ds : List Donation) :
    b ≤ maxPriority b ds ∧ (∀ d ∈ ds, d.priority ≤ maxPriority b ds) ∧
      (maxPriority b ds = b ∨ ∃ d ∈ ds, maxPriority b ds = d.priority) := by
  induction ds generalizing b with
  | nil => exact ⟨le_refl b, by simp, .inl rfl⟩
  | cons d ds ih =>
    obtain ⟨h₁, h₂, h₃⟩ := ih (max b d.priority)
    refine ⟨le_trans (le_max_left ..) h₁, fun r hr => ?_, ?_⟩
    · obtain rfl | hr := List.mem_cons.mp hr
      · exact le_trans (le_max_right ..) h₁
      · exact h₂ r hr
    · obtain h | ⟨r, hr, h⟩ := h₃
      · rcases le_total d.priority b with hle | hle
        · exact .inl (h.trans (max_eq_left hle))
        · exact .inr ⟨d, List.mem_cons_self, h.trans (max_eq_right hle)⟩
      · exact .inr ⟨r, List.mem_cons_of_mem _ hr, h⟩

theorem payout_eq_max (hd : Desc Donation.priority ds) : payout b ds = maxPriority b ds := by
  obtain ⟨h₁, h₂, h₃⟩ := maxPriority_spec b ds
  exact payout_eq hd h₁ h₂ h₃

/-- **The books are right** in every state the threads reach: donations are
listed in descending order and are about locks the thread holds, and its
priority is the greatest of its own and theirs; with no lock held, its own. -/
theorem donations_booked {value : Nat → Nat} {es : List LockEvent}
    (hr : Run.run lockStep (boot value) es = some k) (t : Nat) :
    Desc Donation.priority (k.threads t).donations ∧
      (∀ d ∈ (k.threads t).donations, k.holder d.lock = some t) ∧
      k.prio t = maxPriority (k.base t) (k.threads t).donations ∧
      ((∀ l, k.holder l ≠ some t) → k.prio t = k.base t) := by
  have h : Booked k := Run.run_invariant (G := fun _ _ => True) (fun _ _ _ h _ hk => h.step hk) (boot_booked value) hr
    (Run.always_of_mem _ fun _ _ _ => trivial)
  refine ⟨h.sorted t, h.record t, (h.paid t).trans (payout_eq_max (h.sorted t)), fun hno => ?_⟩
  have hnil : (k.threads t).donations = [] :=
    List.eq_nil_iff_forall_not_mem.mpr fun d hd => hno d.lock (h.record t d hd)
  rw [h.paid t, hnil]
  rfl

/-- The initial thread holds lock 1, tries it for a thread at 50 in vain, and is
waited for. -/
def triedRun : List LockEvent :=
  .tryAcquire 1 :: (callAll (.create 50)).map .kern ++ [.tryAcquire 1] ++ (callAll (.lockAcquire 1)).map .kern

theorem donations_booked_tried : ∃ k, Run.run lockStep (boot fun _ => 0) triedRun = some k ∧ k.prio 0 = 50 ∧
    k.prio 0 = maxPriority (k.base 0) (k.threads 0).donations := by
  obtain ⟨k, hr, hp⟩ := (Option.any_eq_true _ _).mp
    (by decide +kernel : (Run.run lockStep (boot fun _ => 0) triedRun).any (fun k => decide (k.prio 0 = 50)) = true)
  exact ⟨k, hr, of_decide_eq_true hp, (donations_booked hr 0).2.2.1⟩

end PintosKaist.Threads
