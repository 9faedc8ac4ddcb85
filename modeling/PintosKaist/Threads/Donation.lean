/-
Whether donated priorities are exact: every thread at the greatest of its own
priority and those of the threads blocked on locks it holds.

A donation is recorded when the donor blocks, and only along holders it is not
below. What the records say is always true (`Donated.record`: someone on that
lock is at least that high), but a waiter that was below the holder is in no
record. The steps that go by the records, or by none, lose sight of it:
`thread_set_priority` and `lock_release` lower the holder to its best record, a
lock handed over with threads still on it brings no records, and a woken thread
that finds the lock taken again blocks without donating.
-/
import PintosKaist.Lib.Inherit
import PintosKaist.Threads.Walk

namespace PintosKaist.Threads

open OrdList Inherit

variable {k k' : Kernel} {t u w l h : Nat} {s : Sema} {o : Out}

/-- `original_priority`. -/
def Kernel.base (k : Kernel) (t : Nat) : Int := (k.threads t).originalPriority

/-- `w` is blocked in `lock_acquire` on a lock that `t` holds. -/
def waitsFor (k : Kernel) (w t : Nat) : Prop := ∃ l, k.holder l = some t ∧ w ∈ k.waiters (.lock l)

/-! ## The condition -/

/-- If `w` is on a lock that the current thread holds, other than `but`, it is
not above `p`, or one of the records in `ds` covers it. -/
def CoveredBy (k : Kernel) (but : Option Nat) (p : Int) (ds : List Donation) (w : Nat) : Prop :=
  ∀ l ∈ (k.threads w).pendingLock, some l ≠ but → k.holder l = some k.cur →
    w ∈ k.waiters (.lock l) → k.prio w ≤ p ∨ ∃ d ∈ ds, k.prio w ≤ d.priority

instance (k : Kernel) (but : Option Nat) (p : Int) (ds : List Donation) (w : Nat) :
    Decidable (CoveredBy k but p ds w) := by
  unfold CoveredBy
  infer_instance

/-- A lock that is free is taken by a thread that is not below those still on it. -/
def TakenByHighest (k : Kernel) (l : Nat) : Prop :=
  k.holder l = none → ∀ w ∈ k.waiters (.lock l), k.prio w ≤ k.prio k.cur

/-- A thread the donation passes through is on the lock it has pending, as
opposed to woken and not yet back. -/
def ThroughWaiters (k : Kernel) (l : Nat) : Prop :=
  ∀ h ∈ raised k l, ∀ l' ∈ (k.threads h).pendingLock, ∀ h' ∈ k.holder l', k.prio h' ≤ k.prio k.cur →
    h ∈ k.waiters (.lock l')

/-- The condition on a step, for donated priorities to stay exact. -/
def Recorded (k : Kernel) : Event → Prop
  | .call _ => True
  | .part =>
    match (k.threads k.cur).todo with
    | .acquire l :: _ => TakenByHighest k l ∧ ThroughWaiters k l
    | .down (.lock l) :: _ => TakenByHighest k l ∧ ∀ h ∈ k.holder l, k.prio k.cur ≤ k.prio h
    | .release l :: _ => ∀ w < k.next, CoveredBy k (some l) (k.base k.cur)
        ((k.threads k.cur).donations.filter fun d => d.lock ≠ l) w
    | .setPriority p :: _ => ∀ w < k.next, CoveredBy k none p (k.threads k.cur).donations w
    | _ => True

instance (k : Kernel) (e : Event) : Decidable (Recorded k e) := by
  cases e with
  | call c => exact .isTrue trivial
  | part =>
    unfold Recorded TakenByHighest ThroughWaiters
    dsimp only
    split <;> infer_instance

/-! ## The invariant -/

structure Donated (k : Kernel) : Prop where
  exact : ∀ t, Exact k.base k.prio (waitsFor k) t
  /-- A lock is free when its semaphore is up. -/
  free : ∀ l, k.holder l = none ∧ (k.semas (.lock l)).value = 1 ∨
    k.holder l ≠ none ∧ (k.semas (.lock l)).value = 0
  /-- A record is about a lock that the thread holds, and someone on that lock
  is at least as high as it says. -/
  record : ∀ t, ∀ d ∈ (k.threads t).donations, k.holder d.lock = some t ∧
    ∃ w ∈ k.waiters (.lock d.lock), d.priority ≤ k.prio w
  sorted : ∀ t, Desc Donation.priority (k.threads t).donations
  pending : ∀ l, ∀ w ∈ k.waiters (.lock l), (k.threads w).pendingLock = some l
  holderLt : ∀ l t, k.holder l = some t → t < k.next

/-- `k'` is `k` as far as locks and priorities go. -/
structure SameLocks (k k' : Kernel) : Prop where
  prio : ∀ t, k'.prio t = k.prio t
  base : ∀ t, k'.base t = k.base t
  donations : ∀ t, (k'.threads t).donations = (k.threads t).donations
  pendingLock : ∀ l, ∀ w ∈ k.waiters (.lock l), (k'.threads w).pendingLock = (k.threads w).pendingLock
  holder : k'.holder = k.holder
  value : ∀ l, (k'.semas (.lock l)).value = (k.semas (.lock l)).value
  waiters : ∀ l w, w ∈ k'.waiters (.lock l) ↔ w ∈ k.waiters (.lock l)
  next : k.next ≤ k'.next

theorem waitsFor_congr (hh : k'.holder = k.holder)
    (hw : ∀ l w, w ∈ k'.waiters (.lock l) ↔ w ∈ k.waiters (.lock l)) : waitsFor k' w t ↔ waitsFor k w t := by
  simp only [waitsFor, hh, hw]

theorem Donated.same (d : Donated k) (q : SameLocks k k') : Donated k' where
  exact t := (d.exact t).congr (q.base t) (q.prio t) (fun _ => waitsFor_congr q.holder q.waiters)
    fun w _ => q.prio w
  free l := by
    rw [q.holder, q.value]
    exact d.free l
  record t r hr := by
    rw [q.donations] at hr
    obtain ⟨h₁, w, hw, h₂⟩ := d.record t r hr
    rw [q.holder]
    exact ⟨h₁, w, (q.waiters _ w).mpr hw, by rw [q.prio]; exact h₂⟩
  sorted t := by
    rw [q.donations]
    exact d.sorted t
  pending l w hw := by
    have hw := (q.waiters l w).mp hw
    rw [q.pendingLock l w hw]
    exact d.pending l w hw
  holderLt l t ht := by
    rw [q.holder] at ht
    exact Nat.lt_of_lt_of_le (d.holderLt l t ht) q.next

theorem same_modify {f : Thread → Thread} (hp : (f (k.threads t)).priority = (k.threads t).priority)
    (hb : (f (k.threads t)).originalPriority = (k.threads t).originalPriority)
    (hd : (f (k.threads t)).donations = (k.threads t).donations)
    (hl : ∀ l, t ∈ k.waiters (.lock l) → (f (k.threads t)).pendingLock = (k.threads t).pendingLock) :
    SameLocks k (k.modify t f) where
  prio u := by rw [modify_prio hp]
  base u := by
    simp only [Kernel.base, modify_threads]
    split <;> simp_all
  donations u := by
    simp only [modify_threads]
    split <;> simp_all
  pendingLock l u hu := by
    simp only [modify_threads]
    split
    · rename_i he
      exact he ▸ hl l (he ▸ hu)
    · rfl
  holder := rfl
  value _ := rfl
  waiters _ _ := Iff.rfl
  next := Nat.le_refl _

theorem SameLocks.setReady {r : List Nat} (q : SameLocks k k') : SameLocks k (k'.setReady r) :=
  ⟨q.prio, q.base, q.donations, q.pendingLock, q.holder, q.value, q.waiters, q.next⟩

theorem same_setStatus {st : Status} : SameLocks k (k.setStatus t st) := same_modify rfl rfl rfl fun _ _ => rfl

theorem same_threadUnblock (hk : threadUnblock k t = some k') : SameLocks k k' := by
  obtain ⟨-, rfl⟩ := threadUnblock_eq_some.mp hk
  exact same_setStatus.setReady

theorem same_threadYield : SameLocks k (threadYield k) := by
  simp only [threadYield]
  split
  · exact same_setStatus.setReady
  · exact same_setStatus

theorem same_switchTo {r : List Nat} : SameLocks k ((k.setReady r).switchTo t) :=
  have q : SameLocks k (k.setStatus t .running) := same_setStatus
  ⟨q.prio, q.base, q.donations, q.pendingLock, q.holder, q.value, q.waiters, q.next⟩

theorem same_schedule : SameLocks k (schedule k) := by
  simp only [schedule]
  split
  · exact same_switchTo (r := k.readyList)
  · exact same_switchTo

theorem SameLocks.trans {k₁ : Kernel} (q : SameLocks k k') (q' : SameLocks k' k₁) : SameLocks k k₁ where
  prio t := (q'.prio t).trans (q.prio t)
  base t := (q'.base t).trans (q.base t)
  donations t := (q'.donations t).trans (q.donations t)
  pendingLock l w hw := (q'.pendingLock l w ((q.waiters l w).mpr hw)).trans (q.pendingLock l w hw)
  holder := q'.holder.trans q.holder
  value l := (q'.value l).trans (q.value l)
  waiters l w := (q'.waiters l w).trans (q.waiters l w)
  next := Nat.le_trans q.next q'.next

theorem same_setReady {r : List Nat} : SameLocks k (k.setReady r) :=
  ⟨fun _ => rfl, fun _ => rfl, fun _ => rfl, fun _ _ _ => rfl, rfl, fun _ => rfl, fun _ _ => Iff.rfl, Nat.le_refl _⟩

/-- A semaphore that is not a lock's. -/
theorem same_setSema {n : Nat} {v : Semaphore} : SameLocks k (k.setSema (.sema n) v) where
  prio _ := rfl
  base _ := rfl
  donations _ := rfl
  pendingLock _ _ _ := rfl
  holder := rfl
  value l := by rw [setSema_semas, if_neg (by simp)]
  waiters l w := by rw [Kernel.waiters, setSema_semas, if_neg (by simp), Kernel.waiters]
  next := Nat.le_refl _

theorem Donated.finish (d : Donated o.kernel) : Donated o.finish := by
  cases o with
  | done k => exact d
  | sched k => exact d.same same_schedule

theorem same_compare : SameLocks k (compareCurNextPriority k).kernel := by
  simp only [compareCurNextPriority]
  split
  · exact same_setReady (r := k.readyList)
  · split
    · exact same_setReady.trans same_threadYield
    · exact same_setReady

theorem same_semaDown {n : Nat} : SameLocks k (semaDown k (.sema n)).kernel := by
  rw [semaDown_eq]
  split
  · exact (same_setSema.trans (same_modify rfl rfl rfl fun _ _ => rfl)).trans same_setStatus
  · exact same_setSema

theorem same_semaUp {n : Nat} (hk : semaUp k (.sema n) = some k') : SameLocks k k' := by
  obtain ⟨-, rfl⟩ | ⟨w, ws, -, hk⟩ := semaUp_cases hk
  · exact same_setSema
  · exact same_setSema.trans (same_threadUnblock hk)

/-! ## New threads -/

theorem donated_alloc {p : Int} (hs : Sane k) (d : Donated k) : Donated (k.alloc p) := by
  have hthreads (t) : (k.alloc p).threads t = if t = k.next then initThread p else k.threads t :=
    modify_threads (k := k) (f := fun _ => initThread p)
  have hold {t} (ht : t ≠ k.next) : (k.alloc p).threads t = k.threads t := by rw [hthreads, if_neg ht]
  have hwait {s w} (hw : w ∈ k.waiters s) : w ≠ k.next := Nat.ne_of_lt (hs.waiter s w hw).2.2.1
  refine ⟨fun t => ?_, d.free, fun t r hr => ?_, fun t => ?_, fun l w hw => ?_, fun l t ht => ?_⟩
  · by_cases ht : t = k.next
    · -- nobody waits for a thread that holds no lock
      subst ht
      refine exact_iff.mpr ⟨?_, fun w h => ?_, .inl ?_⟩
      · simp [Kernel.base, Kernel.prio, hthreads, initThread]
      · obtain ⟨l, hl, -⟩ := h
        exact absurd (d.holderLt l _ hl) (Nat.lt_irrefl _)
      · simp [Kernel.base, Kernel.prio, hthreads, initThread]
    · refine (d.exact t).congr ?_ ?_ (fun w => Iff.rfl) fun w h => ?_
      · rw [Kernel.base, hold ht, Kernel.base]
      · rw [Kernel.prio, hold ht, Kernel.prio]
      · obtain ⟨l, -, hw⟩ := h
        rw [Kernel.prio, hold (hwait hw), Kernel.prio]
  · by_cases ht : t = k.next
    · simp [hthreads, ht, initThread] at hr
    · rw [hold ht] at hr
      obtain ⟨h₁, w, hw, h₂⟩ := d.record t r hr
      exact ⟨h₁, w, hw, by rw [Kernel.prio, hold (hwait hw)]; exact h₂⟩
  · by_cases ht : t = k.next
    · simp [hthreads, ht, initThread, Desc]
    · rw [hold ht]
      exact d.sorted t
  · rw [hold (hwait hw)]
    exact d.pending l w hw
  · exact Nat.lt_succ_of_lt (d.holderLt l t ht)

theorem donated_threadCreate {p : Int} (hs : Sane k) (d : Donated k) (ho : threadCreate k p = some o) :
    Donated o.kernel := by
  simp only [threadCreate, Option.map_eq_some_iff] at ho
  obtain ⟨k₂, hk, ho⟩ := ho
  have d₂ := (donated_alloc hs d).same (same_threadUnblock hk)
  split at ho <;> subst ho
  · exact d₂.same same_threadYield
  · exact d₂

/-! ## Going by the records -/

/-- The priority that `thread_set_priority` and `recalc_priority` give a thread:
its best record, if that is above its own. -/
def payout (base : Int) : List Donation → Int
  | [] => base
  | d :: _ => if base < d.priority then d.priority else base

theorem le_payout {b : Int} {ds : List Donation} (hd : Desc Donation.priority ds) :
    b ≤ payout b ds ∧ ∀ d ∈ ds, d.priority ≤ payout b ds := by
  cases ds with
  | nil => simp [payout]
  | cons d ds =>
    have hmax := hd.head_max
    simp only [payout, List.mem_cons, forall_eq_or_imp]
    split
    · exact ⟨by omega, le_refl _, hmax⟩
    · exact ⟨le_refl _, by omega, fun r hr => le_trans (hmax r hr) (by omega)⟩

theorem payout_cases {b : Int} {ds : List Donation} : payout b ds = b ∨ ∃ d ∈ ds, payout b ds = d.priority := by
  cases ds with
  | nil => exact .inl rfl
  | cons d ds =>
    simp only [payout]
    split
    · exact .inr ⟨d, by simp, rfl⟩
    · exact .inl rfl

/-- True records that cover every waiter pay out the exact priority. -/
theorem exact_payout {base prio : Nat → Int} {waits : Nat → Nat → Prop} {ds : List Donation}
    (hd : Desc Donation.priority ds) (hp : prio t = payout (base t) ds)
    (htrue : ∀ d ∈ ds, ∃ w, waits w t ∧ d.priority ≤ prio w)
    (hcov : ∀ w, waits w t → prio w ≤ base t ∨ ∃ d ∈ ds, prio w ≤ d.priority) : Exact base prio waits t := by
  obtain ⟨hb, hle⟩ := le_payout (b := base t) hd
  have hub : ∀ w, waits w t → prio w ≤ prio t := fun w hw => by
    rw [hp]
    rcases hcov w hw with h | ⟨d, hd, h⟩
    · exact le_trans h hb
    · exact le_trans h (hle d hd)
  refine exact_iff.mpr ⟨hp ▸ hb, hub, ?_⟩
  rcases @payout_cases (base t) ds with h | ⟨d, hd, h⟩
  · exact .inl (hp.trans h)
  · obtain ⟨w, hw, hdw⟩ := htrue d hd
    have := hub w hw
    exact .inr ⟨w, hw, by omega⟩

/-- The thread with the base priority `b` and the records `ds`, paid out. -/
def Thread.pay (th : Thread) (b : Int) (ds : List Donation) : Thread :=
  { th with originalPriority := b, priority := payout b ds, donations := ds }

/-- The current thread goes over to the records `ds`, some of those it has, and
to the base priority `b`. Nothing else changes, but for locks of its that
others do not wait for any more. -/
theorem Donated.repay {b : Int} {ds : List Donation} (hs : Sane k) (d : Donated k)
    (hsub : ∀ r ∈ ds, r ∈ (k.threads k.cur).donations) (hsort : Desc Donation.priority ds)
    (hcur : k'.threads k.cur = (k.threads k.cur).pay b ds)
    (hother : ∀ t, t ≠ k.cur → k'.threads t = k.threads t)
    (hkeep : ∀ l, k.holder l = k'.holder l ∨ k.holder l = some k.cur ∧ k'.holder l = none)
    (hdrop : ∀ r ∈ ds, k'.holder r.lock = some k.cur)
    (hwait : ∀ l w, w ∈ k'.waiters (.lock l) → w ∈ k.waiters (.lock l))
    (hwait' : ∀ l w, k'.holder l ≠ none → w ∈ k.waiters (.lock l) → w ∈ k'.waiters (.lock l))
    (hfree : ∀ l, k'.holder l = none ∧ (k'.semas (.lock l)).value = 1 ∨
      k'.holder l ≠ none ∧ (k'.semas (.lock l)).value = 0) (hnext : k'.next = k.next)
    (hcov : ∀ l w, k'.holder l = some k.cur → w ∈ k.waiters (.lock l) →
      k.prio w ≤ b ∨ ∃ r ∈ ds, k.prio w ≤ r.priority) : Donated k' := by
  have hprio {l w} (hw : w ∈ k.waiters (.lock l)) : k'.prio w = k.prio w := by
    rw [Kernel.prio, hother w fun he => hs.cur_not_waiting _ (he ▸ hw), Kernel.prio]
  have hhold {l t} (h : k'.holder l = some t) : k.holder l = some t := by
    rcases hkeep l with hl | ⟨-, hl⟩
    · rw [hl, h]
    · rw [hl] at h
      cases h
  have hhold' {l t} (ht : t ≠ k.cur) (h : k.holder l = some t) : k'.holder l = some t := by
    rcases hkeep l with hl | ⟨hl, -⟩
    · rw [← hl, h]
    · exact absurd (Option.some.inj (h.symm.trans hl)) ht
  have hne {l t} (h : k'.holder l = some t) : k'.holder l ≠ none := by simp [h]
  refine ⟨fun t => ?_, hfree, fun t r hr => ?_, fun t => ?_, fun l w hw => ?_, fun l t ht => ?_⟩
  · by_cases ht : t = k.cur
    · subst ht
      have hb : k'.base k.cur = b := by rw [Kernel.base, hcur, Thread.pay]
      refine exact_payout hsort (by rw [Kernel.prio, hcur, hb, Thread.pay]) (fun r hr => ?_) fun w hblocked => ?_
      · obtain ⟨-, w, hw, hle⟩ := d.record _ r (hsub r hr)
        have hl := hdrop r hr
        exact ⟨w, ⟨r.lock, hl, hwait' _ w (hne hl) hw⟩, by rw [hprio hw]; exact hle⟩
      · obtain ⟨l, hl, hw⟩ := hblocked
        have hw := hwait l w hw
        rw [hb, hprio hw]
        exact hcov l w hl hw
    · refine (d.exact t).congr ?_ ?_ (fun w => ?_) fun w hblocked => hprio hblocked.choose_spec.2
      · rw [Kernel.base, hother t ht, Kernel.base]
      · rw [Kernel.prio, hother t ht, Kernel.prio]
      · refine exists_congr fun l => ⟨fun h => ⟨hhold h.1, hwait l w h.2⟩, fun h => ?_⟩
        have hl := hhold' ht h.1
        exact ⟨hl, hwait' l w (hne hl) h.2⟩
  · by_cases ht : t = k.cur
    · subst ht
      rw [hcur] at hr
      obtain ⟨-, w, hw, hle⟩ := d.record _ r (hsub r hr)
      have hl := hdrop r hr
      exact ⟨hl, w, hwait' _ w (hne hl) hw, by rw [hprio hw]; exact hle⟩
    · rw [hother t ht] at hr
      obtain ⟨hl, w, hw, hle⟩ := d.record t r hr
      have hl := hhold' ht hl
      exact ⟨hl, w, hwait' _ w (hne hl) hw, by rw [hprio hw]; exact hle⟩
  · by_cases ht : t = k.cur
    · subst ht
      rw [hcur]
      exact hsort
    · rw [hother t ht]
      exact d.sorted t
  · have hw := hwait l w hw
    rw [hother w fun he => hs.cur_not_waiting _ (he ▸ hw)]
    exact d.pending l w hw
  · rw [hnext]
    exact d.holderLt l t (hhold ht)

/-- Covering, for the waiters as the locks list them. -/
theorem covered_waiters {but : Option Nat} {p : Int} {ds : List Donation} (hs : Sane k) (d : Donated k)
    (hc : ∀ w < k.next, CoveredBy k but p ds w) (hb : some l ≠ but) (hl : k.holder l = some k.cur)
    (hw : w ∈ k.waiters (.lock l)) : k.prio w ≤ p ∨ ∃ r ∈ ds, k.prio w ≤ r.priority :=
  hc w (hs.waiter _ w hw).2.2.1 l (d.pending l w hw) hb hl hw

theorem donated_setPriority {p : Int} (hs : Sane k) (d : Donated k)
    (hc : ∀ w < k.next, CoveredBy k none p (k.threads k.cur).donations w) : Donated (threadSetPriority k p) := by
  refine d.repay (b := p) hs (fun r hr => hr) (d.sorted k.cur) ?_ (fun t ht => ?_) (fun l => .inl rfl)
    (fun r hr => (d.record k.cur r hr).1) (fun _ _ hw => hw) (fun _ _ _ hw => hw) d.free rfl
    fun l w hl hw => covered_waiters hs d hc (by simp) hl hw
  · simp only [threadSetPriority, modify_threads, if_true]
    cases (k.threads k.cur).donations <;> rfl
  · simp only [threadSetPriority, modify_threads, if_neg ht]

theorem recalc_threads (hd : Desc Donation.priority (k.threads k.cur).donations) :
    (recalcPriority k).threads t = if t = k.cur then
      (k.threads k.cur).pay (k.base k.cur) (k.threads k.cur).donations
    else k.threads t := by
  rw [recalcPriority, modify_threads, sortBy_eq_self hd]
  split
  · cases hc : (k.threads k.cur).donations with
    | nil => simp only [Thread.pay, payout, Kernel.base]
    | cons d ds => rfl
  · rfl

/-- What `lock_release` makes of the current thread. -/
theorem release_threads (hd : Desc Donation.priority (k.threads k.cur).donations) :
    ((recalcPriority (removeDonationForLock k l)).setHolder l none).threads t =
      if t = k.cur then
        (k.threads k.cur).pay (k.base k.cur) ((k.threads k.cur).donations.filter fun d => d.lock ≠ l)
      else k.threads t := by
  set k₁ := removeDonationForLock k l with hk₁
  have hcur : k₁.threads k₁.cur =
      { k.threads k.cur with donations := (k.threads k.cur).donations.filter fun d => d.lock ≠ l } :=
    modify_threads.trans (if_pos rfl)
  have hbase : k₁.base k₁.cur = k.base k.cur := by rw [Kernel.base, hcur, Kernel.base]
  have hsort : Desc Donation.priority (k₁.threads k₁.cur).donations := by
    rw [hcur]
    exact hd.filter _
  refine (recalc_threads hsort).trans ?_
  rw [hbase, hcur]
  by_cases ht : t = k.cur
  · rw [if_pos ht]
    exact if_pos ht
  · rw [if_neg ht]
    exact (if_neg ht).trans (modify_threads.trans (if_neg ht))

/-- `sema_up` of a lock's semaphore, as far as locks go: the value goes up and a
waiter may leave. -/
theorem semaUp_lock (hk : semaUp k (.lock l) = some k') : ∃ ws, (∀ w ∈ ws, w ∈ k.waiters (.lock l)) ∧
    SameLocks (k.setSema (.lock l) ⟨(k.semas (.lock l)).value + 1, ws⟩) k' := by
  obtain ⟨hn, rfl⟩ | ⟨w, ws, hs, hk⟩ := semaUp_cases hk
  · exact ⟨_, fun w hw => hw, same_setReady (r := k.readyList)⟩
  · refine ⟨ws, fun u hu => ?_, same_threadUnblock hk⟩
    have hu' : u ∈ sortBy k.prio (k.semas (.lock l)).waiters := hs ▸ List.mem_cons_of_mem _ hu
    exact mem_sortBy.mp hu'

theorem donated_lockRelease (hs : Sane k) (d : Donated k)
    (hc : ∀ w < k.next, CoveredBy k (some l) (k.base k.cur)
      ((k.threads k.cur).donations.filter fun d => d.lock ≠ l) w)
    (hk : lockRelease k l = some k') : Donated k' := by
  simp only [lockRelease, Option.ite_none_right_eq_some] at hk
  obtain ⟨hl, hk⟩ := hk
  obtain ⟨ws, hws, hsame⟩ := semaUp_lock hk
  refine Donated.same ?_ hsame
  set ds := (k.threads k.cur).donations.filter fun d => d.lock ≠ l with hds
  set k₁ := (recalcPriority (removeDonationForLock k l)).setHolder l none with hk₁
  have hholder (l') : k₁.holder l' = if l' = l then none else k.holder l' := setHolder_holder
  have hwait (l') : (k₁.setSema (.lock l) ⟨(k₁.semas (.lock l)).value + 1, ws⟩).waiters (.lock l') =
      if l' = l then ws else k.waiters (.lock l') := by
    rw [Kernel.waiters, setSema_semas]
    by_cases he : l' = l
    · simp [he]
    · rw [if_neg (by simpa using he), if_neg he]
      rfl
  have hv : (k.semas (.lock l)).value = 0 := by
    rcases d.free l with ⟨h, -⟩ | ⟨-, h⟩
    · rw [hl] at h
      cases h
    · exact h
  have hlock {r} (hr : r ∈ ds) : r ∈ (k.threads k.cur).donations ∧ r.lock ≠ l := by
    simpa [hds] using hr
  refine d.repay (b := k.base k.cur) hs (fun r hr => (hlock hr).1) ((d.sorted k.cur).filter _) ?_
    (fun t ht => ?_) (fun l' => ?_) (fun r hr => ?_) (fun l' w hw => ?_) (fun l' w hn hw => ?_) (fun l' => ?_)
    rfl fun l' w hl' hw => ?_
  · exact (release_threads (d.sorted k.cur)).trans (if_pos rfl)
  · exact (release_threads (d.sorted k.cur)).trans (if_neg ht)
  · show _ = k₁.holder l' ∨ _ ∧ k₁.holder l' = _
    rw [hholder]
    by_cases he : l' = l
    · exact .inr ⟨he ▸ hl, if_pos he⟩
    · exact .inl (if_neg he).symm
  · show k₁.holder r.lock = _
    rw [hholder, if_neg (hlock hr).2]
    exact (d.record _ r (hlock hr).1).1
  · rw [hwait] at hw
    split at hw
    · rename_i he
      exact he ▸ hws w hw
    · exact hw
  · rw [hwait]
    have he : l' ≠ l := fun he => hn ((hholder l').trans (if_pos he))
    rw [if_neg he]
    exact hw
  · show k₁.holder l' = none ∧ _ ∨ k₁.holder l' ≠ none ∧ _
    rw [hholder, setSema_semas]
    by_cases he : l' = l
    · subst he
      left
      refine ⟨if_pos rfl, ?_⟩
      rw [if_pos rfl]
      exact congrArg (· + 1) hv
    · rw [if_neg he, if_neg (by simpa using he)]
      exact d.free l'
  · have hl' : k₁.holder l' = some k.cur := hl'
    rw [hholder] at hl'
    split at hl'
    · cases hl'
    · rename_i he
      exact covered_waiters hs d hc (by simpa using he) hl' hw

/-! ## Taking a lock -/

theorem take_threads : (take k (.lock l)).threads t =
    if t = k.cur then { k.threads k.cur with pendingLock := none } else k.threads t :=
  modify_threads (k := k) (f := fun th => { th with pendingLock := none })

theorem donated_take (hs : Sane k) (d : Donated k) (hv : (k.semas (.lock l)).value ≠ 0)
    (hg : TakenByHighest k l) : Donated (take k (.lock l)) := by
  have hfree : k.holder l = none ∧ (k.semas (.lock l)).value = 1 :=
    (d.free l).resolve_right fun h => hv h.2
  have hholder (l') : (take k (.lock l)).holder l' = if l' = l then some k.cur else k.holder l' :=
    setHolder_holder
  have hwait (s) : (take k (.lock l)).waiters s = k.waiters s := by
    show ((k.setSema _ _).semas s).waiters = _
    rw [setSema_semas]
    split
    · rename_i he
      exact he ▸ rfl
    · rfl
  have hvalue (l') : ((take k (.lock l)).semas (.lock l')).value =
      if l' = l then 0 else (k.semas (.lock l')).value := by
    show ((k.setSema _ _).semas (.lock l')).value = _
    rw [setSema_semas]
    by_cases he : l' = l <;> simp [he, hfree.2]
  have hprio (t) : (take k (.lock l)).prio t = k.prio t := by
    rw [Kernel.prio, take_threads]
    by_cases ht : t = k.cur <;> simp [ht, Kernel.prio]
  have hbase (t) : (take k (.lock l)).base t = k.base t := by
    rw [Kernel.base, take_threads]
    by_cases ht : t = k.cur <;> simp [ht, Kernel.base]
  have hrec (t) : ((take k (.lock l)).threads t).donations = (k.threads t).donations := by
    rw [take_threads]
    by_cases ht : t = k.cur <;> simp [ht]
  -- what was held before is held by the same thread
  have hsame {l' t} (h : k.holder l' = some t) : (take k (.lock l)).holder l' = some t := by
    have he : l' ≠ l := fun he => by simp [← he, h] at hfree
    rw [hholder, if_neg he, h]
  refine ⟨fun t => ?_, fun l' => ?_, fun t r hr => ?_, fun t => ?_, fun l' w hw => ?_, fun l' t ht => ?_⟩
  · by_cases ht : t = k.cur
    · subst ht
      have he : Exact k.base k.prio (waitsFor (take k (.lock l))) k.cur := by
        refine (d.exact k.cur).grow (fun w h => h.imp fun l' h => ⟨hsame h.1, hwait _ ▸ h.2⟩) fun w h => ?_
        obtain ⟨l', hl, hw⟩ := h
        rw [hwait] at hw
        rw [hholder] at hl
        split at hl
        · rename_i he
          exact hg hfree.1 w (he ▸ hw)
        · exact (exact_iff.mp (d.exact k.cur)).2.1 w ⟨l', hl, hw⟩
      exact he.congr (hbase _) (hprio _) (fun _ => Iff.rfl) fun w _ => hprio w
    · refine (d.exact t).congr (hbase t) (hprio t) (fun w => ?_) fun w _ => hprio w
      refine exists_congr fun l' => ⟨fun h => ⟨?_, hwait _ ▸ h.2⟩, fun h => ⟨hsame h.1, hwait _ ▸ h.2⟩⟩
      have hl := h.1
      rw [hholder] at hl
      split at hl
      · exact absurd (Option.some.inj hl).symm ht
      · exact hl
  · rw [hholder, hvalue]
    by_cases he : l' = l
    · exact .inr ⟨by simp [he], if_pos he⟩
    · rw [if_neg he, if_neg he]
      exact d.free l'
  · rw [hrec] at hr
    obtain ⟨hl, w, hw, hle⟩ := d.record t r hr
    exact ⟨hsame hl, w, hwait _ ▸ hw, by rw [hprio]; exact hle⟩
  · rw [hrec]
    exact d.sorted t
  · rw [hwait] at hw
    have hne : w ≠ k.cur := fun he => hs.cur_not_waiting _ (he ▸ hw)
    rw [take_threads, if_neg hne]
    exact d.pending l' w hw
  · rw [hholder] at ht
    split at ht
    · exact Option.some.inj ht ▸ hs.curLt
    · exact d.holderLt l' t ht

end PintosKaist.Threads
