/-
Donation in runs: the walk of `lock_acquire` pays everyone it must, blocking
again costs nothing below the holder, and so donated priorities stay exact in
every run whose steps meet `Recorded`.
-/
import PintosKaist.Threads.Donation

namespace PintosKaist.Threads

open OrdList Inherit

variable {k k' : Kernel} {t u w l h : Nat} {s : Sema} {o : Out}

/-! ## Blocking on a lock -/

/-- `w` is on lock `l'`, or is the current thread, which is about to block on `l`. -/
def OnLock (k : Kernel) (l w l' : Nat) : Prop := w ∈ k.waiters (.lock l') ∨ w = k.cur ∧ l' = l

/-- `waitsFor`, with the current thread counted as blocked on `l`. -/
def waitsForIn (k : Kernel) (l w t : Nat) : Prop := ∃ l', k.holder l' = some t ∧ OnLock k l w l'

/-- The current thread is about to block on `l`, and counts among its waiters. -/
structure Entering (k : Kernel) (l : Nat) : Prop where
  free : ∀ l, k.holder l = none ∧ (k.semas (.lock l)).value = 1 ∨
    k.holder l ≠ none ∧ (k.semas (.lock l)).value = 0
  record : ∀ t, ∀ d ∈ (k.threads t).donations, k.holder d.lock = some t ∧
    ∃ w, OnLock k l w d.lock ∧ d.priority ≤ k.prio w
  sorted : ∀ t, Desc Donation.priority (k.threads t).donations
  pending : ∀ l' w, OnLock k l w l' → (k.threads w).pendingLock = some l'
  holderLt : ∀ l t, k.holder l = some t → t < k.next

/-- And the donation, if it takes one, has been made. -/
structure Blocking (k : Kernel) (l : Nat) : Prop extends Entering k l where
  exact : ∀ t, Exact k.base k.prio (waitsForIn k l) t

theorem Blocking.block (b : Blocking k l) : Donated (blockOn k (.lock l)) := by
  have hwait (l' w) : w ∈ (blockOn k (.lock l)).waiters (.lock l') ↔
      w ∈ k.waiters (.lock l') ∨ w = k.cur ∧ l' = l := by
    rw [blockOn_waiters]
    by_cases he : l' = l
    · subst he
      simp [or_comm]
    · simp [he]
  have hthread (t) {α : Type} (f : Thread → α) (hf : ∀ th st ms, f { th with status := st, todo := ms } = f th) :
      f ((blockOn k (.lock l)).threads t) = f (k.threads t) := by
    rw [blockOn_threads]
    by_cases ht : t = k.cur
    · rw [if_pos ht, hf, ht]
    · rw [if_neg ht]
  have hprio (t) : (blockOn k (.lock l)).prio t = k.prio t := hthread t Thread.priority fun _ _ _ => rfl
  refine ⟨fun t => ?_, fun l' => ?_, fun t r hr => ?_, fun t => ?_, fun l' w hw => ?_, b.holderLt⟩
  · refine (b.exact t).congr (hthread t Thread.originalPriority fun _ _ _ => rfl) (hprio t) (fun w => ?_)
      fun w _ => hprio w
    simp only [waitsFor, waitsForIn, OnLock, hwait]
    rfl
  · have hv : ((blockOn k (.lock l)).semas (.lock l')).value = (k.semas (.lock l')).value := by
      show ((k.setSema _ _).semas (.lock l')).value = _
      rw [setSema_semas]
      by_cases he : l' = l <;> simp [he]
    rw [hv]
    exact b.free l'
  · rw [hthread t Thread.donations fun _ _ _ => rfl] at hr
    obtain ⟨hl, w, hw, hle⟩ := b.record t r hr
    exact ⟨hl, w, (hwait _ w).mpr hw, by rw [hprio]; exact hle⟩
  · rw [hthread t Thread.donations fun _ _ _ => rfl]
    exact b.sorted t
  · rw [hthread w Thread.pendingLock fun _ _ _ => rfl]
    exact b.pending l' w ((hwait l' w).mp hw)

theorem Donated.entering (d : Donated k) (hp : (k.threads k.cur).pendingLock = some l) : Entering k l where
  free := d.free
  record t r hr := by
    obtain ⟨hl, w, hw, hle⟩ := d.record t r hr
    exact ⟨hl, w, .inl hw, hle⟩
  sorted := d.sorted
  pending l' w hw := by
    rcases hw with hw | ⟨rfl, rfl⟩
    · exact d.pending l' w hw
    · exact hp
  holderLt := d.holderLt

/-- Counting the current thread adds one waiter, for the holder of `l`. -/
theorem waitsForIn_iff (hl : k.holder l = some h) :
    waitsForIn k l w t ↔ waitsFor k w t ∨ w = k.cur ∧ t = h := by
  constructor
  · rintro ⟨l', hl', hw | ⟨rfl, rfl⟩⟩
    · exact .inl ⟨l', hl', hw⟩
    · exact .inr ⟨rfl, Option.some.inj (hl'.symm.trans hl)⟩
  · rintro (⟨l', hl', hw⟩ | ⟨rfl, rfl⟩)
    · exact ⟨l', hl', .inl hw⟩
    · exact ⟨l, hl, .inr ⟨rfl, rfl⟩⟩

/-- A woken thread that finds the lock taken blocks again, below its holder. -/
theorem blocking_again (d : Donated k) (hp : (k.threads k.cur).pendingLock = some l)
    (hl : k.holder l = some h) (hle : k.prio k.cur ≤ k.prio h) : Blocking k l := by
  refine ⟨d.entering hp, fun t => (d.exact t).grow (fun w hw => ?_) fun w hw => ?_⟩
  · exact (waitsForIn_iff hl).mpr (.inl hw)
  · rcases (waitsForIn_iff hl).mp hw with hw | ⟨rfl, rfl⟩
    · exact (exact_iff.mp (d.exact t)).2.1 w hw
    · exact hle

/-! ## The donation walk -/

theorem onLock_donate {l₂ w l' : Nat} : OnLock (donate k l₂ h) l w l' ↔ OnLock k l w l' := by
  have q : Quiet k (donate k l₂ h) := quiet_donate
  simp only [OnLock, q.cur, (q.waiters (.lock l')).mem_iff]

theorem waitsForIn_donate {l₂ : Nat} : waitsForIn (donate k l₂ h) l w t ↔ waitsForIn k l w t := by
  simp only [waitsForIn, donate_holder, onLock_donate]

theorem Entering.donate {l₂ : Nat} (e : Entering k l) (hh : k.holder l₂ = some h)
    (hle : ¬ k.prio k.cur < k.prio h) (hu : k.prio u = k.prio k.cur) (hedge : OnLock k l u l₂) :
    Entering (donate k l₂ h) l := by
  have hmono (w) : k.prio w ≤ (Threads.donate k l₂ h).prio w := by
    rw [donate_prio_of_le hle]
    split
    · rename_i he
      rw [he]
      exact not_lt.mp hle
    · exact le_refl _
  have hold {r t} (hr : r ∈ (k.threads t).donations) : k.holder r.lock = some t ∧
      ∃ w, OnLock (Threads.donate k l₂ h) l w r.lock ∧ r.priority ≤ (Threads.donate k l₂ h).prio w := by
    obtain ⟨hl, w, hw, hrw⟩ := e.record t r hr
    exact ⟨hl, w, onLock_donate.mpr hw, le_trans hrw (hmono w)⟩
  refine ⟨fun l' => ?_, fun t r hr => ?_, fun t => ?_, fun l' w hw => ?_, fun l' t ht => ?_⟩
  · rw [donate_holder, donate_value]
    exact e.free l'
  · rw [donate_holder]
    rw [donate_donations] at hr
    split at hr
    · rename_i ht
      subst ht
      rcases mem_insertBy.mp hr with rfl | hr
      · -- the new record: the last thread on the way is on this lock
        exact ⟨hh, u, onLock_donate.mpr hedge, hu ▸ hmono u⟩
      · exact hold hr
    · exact hold hr
  · rw [donate_donations]
    split
    · exact (e.sorted h).insertBy _
    · exact e.sorted t
  · rw [donate_pendingLock]
    exact e.pending l' w (onLock_donate.mp hw)
  · rw [donate_holder] at ht
    rw [quiet_donate.next]
    exact e.holderLt l' t ht

/-- A thread waits for the holder of its pending lock. -/
theorem Entering.waits_one (e : Entering k l) (hw : waitsForIn k l u t) :
    ∃ l₂, (k.threads u).pendingLock = some l₂ ∧ k.holder l₂ = some t := by
  obtain ⟨l₂, hl, hw⟩ := hw
  exact ⟨l₂, e.pending l₂ u hw, hl⟩

/-- Where the walk ends, nobody is due any more. -/
theorem blocking_of_over (e : Entering k l)
    (ho : Owing k.base k.prio (waitsForIn k l) (k.prio k.cur) u) (hu : k.prio u = k.prio k.cur)
    (hover : Over k (k.threads u).pendingLock) : Blocking k l := by
  refine ⟨e, fun t => ?_⟩
  by_cases hex : ∃ x, waitsForIn k l u x
  · obtain ⟨x, hx⟩ := hex
    obtain ⟨l₂, hp, hh⟩ := e.waits_one hx
    refine ho.of_above hu (fun y hy => ?_) (hover l₂ hp x hh) t
    obtain ⟨l₃, hp', hh'⟩ := e.waits_one hy
    obtain rfl := Option.some.inj (hp.symm.trans hp')
    exact Option.some.inj (hh'.symm.trans hh)
  · exact ho.of_no_wait (fun x hx => hex ⟨x, hx⟩) t

/-- **The walk.** It goes on from the waiting thread `u`, at the donor's
priority, with everyone exact but the holder `u` waits for; at its end everyone
is. -/
theorem walk_blocking {fuel : Nat} (e : Entering k l)
    (ho : Owing k.base k.prio (waitsForIn k l) (k.prio k.cur) u) (hu : k.prio u = k.prio k.cur)
    (hedge : ∀ l₂ h₂, (k.threads u).pendingLock = some l₂ → k.holder l₂ = some h₂ →
      k.prio h₂ ≤ k.prio k.cur → OnLock k l u l₂)
    (hg : ∀ h ∈ donees fuel k (k.prio k.cur) (k.threads u).pendingLock, ∀ l₂ h₂,
      (k.threads h).pendingLock = some l₂ → k.holder l₂ = some h₂ → k.prio h₂ ≤ k.prio k.cur →
      OnLock k l h l₂)
    (hw : walk fuel k (k.threads u).pendingLock = some k') : Blocking k' l := by
  induction fuel generalizing k u with
  | zero =>
    obtain ⟨rfl, hover⟩ | ⟨n, _, _, he, _⟩ := walk_cases hw
    · exact blocking_of_over e ho hu hover
    · cases he
  | succ fuel ih =>
    obtain ⟨rfl, hover⟩ | ⟨n, l₂, h, he, hp, hh, hle, hw⟩ := walk_cases hw
    · exact blocking_of_over e ho hu hover
    · cases he
      have hon : OnLock k l u l₂ := hedge l₂ h hp hh (not_lt.mp hle)
      have hcur := donate_prio_cur (l := l₂) hle
      have habove (t) : (donate k l₂ h).prio t ≤ k.prio k.cur → k.prio t ≤ k.prio k.cur := by
        rw [donate_prio_of_le hle]
        split
        · rename_i ht
          rw [ht]
          exact fun _ => not_lt.mp hle
        · exact id
      have hdonees : ∀ x, x = h ∨ x ∈ donees fuel k (k.prio k.cur) (k.threads h).pendingLock →
          x ∈ donees (fuel + 1) k (k.prio k.cur) (k.threads u).pendingLock := by
        intro x hx
        simpa only [hp, donees, hh, if_neg hle, List.mem_cons] using hx
      refine ih (u := h) (e.donate hh hle hu hon) ?_ ?_ ?_ ?_ ?_
      · -- `h` is paid for `u`; the holder `h` waits for is due next
        have hone : ∀ x, waitsForIn k l u x → x = h := fun x hx => by
          obtain ⟨l₃, hp', hh'⟩ := e.waits_one hx
          obtain rfl := Option.some.inj (hp.symm.trans hp')
          exact Option.some.inj (hh'.symm.trans hh)
        have hnew : (donate k l₂ h).prio h = k.prio k.cur := by rw [donate_prio_of_le hle, if_pos rfl]
        have hr := ho.raise hu ⟨l₂, hh, hon⟩ hone (not_lt.mp hle) hnew fun x hx => by
          rw [donate_prio_of_le hle, if_neg hx]
        rw [hcur]
        have hw : waitsForIn (donate k l₂ h) l = waitsForIn k l := by
          funext w t
          exact propext waitsForIn_donate
        have hb : (donate k l₂ h).base = k.base := funext fun t => donate_originalPriority
        rw [hw, hb]
        exact hr
      · rw [hcur, donate_prio_of_le hle, if_pos rfl]
      · intro l₃ h₃ hp₃ hh₃ hle₃
        rw [donate_pendingLock] at hp₃
        rw [donate_holder] at hh₃
        rw [hcur] at hle₃
        exact onLock_donate.mpr (hg h (hdonees h (.inl rfl)) l₃ h₃ hp₃ hh₃ (habove h₃ hle₃))
      · intro x hx l₃ h₃ hp₃ hh₃ hle₃
        rw [hcur, donate_pendingLock, donees_donate hle] at hx
        rw [donate_pendingLock] at hp₃
        rw [donate_holder] at hh₃
        rw [hcur] at hle₃
        exact onLock_donate.mpr (hg x (hdonees x (.inr hx)) l₃ h₃ hp₃ hh₃ (habove h₃ hle₃))
      · rw [donate_pendingLock]
        exact hw

theorem walk_holder {fuel : Nat} {pending : Option Nat} (hw : walk fuel k pending = some k') :
    k'.holder = k.holder := by
  induction fuel generalizing k pending with
  | zero =>
    obtain ⟨rfl, -⟩ | ⟨n, _, _, he, _⟩ := walk_cases hw
    · rfl
    · cases he
  | succ fuel ih =>
    obtain ⟨rfl, -⟩ | ⟨n, l, h, he, -, -, -, hw⟩ := walk_cases hw
    · rfl
    · cases he
      rw [ih hw, donate_holder]

theorem donated_lockAcquire (hs : Sane k) (d : Donated k) (ht : TakenByHighest k l) (hg : ThroughWaiters k l)
    (ho : lockAcquire k l = some o) : Donated o.kernel := by
  simp only [lockAcquire] at ho
  split at ho
  · cases ho
  · split at ho
    · rename_i hn
      have hv : (k.semas (.lock l)).value ≠ 0 := by
        rcases d.free l with h | h
        · simp [h.2]
        · exact absurd hn h.1
      cases ho
      rw [semaDown_eq, if_neg hv]
      exact donated_take hs d hv ht
    · rename_i h hh
      rw [Option.map_eq_some_iff] at ho
      obtain ⟨k₂, hw, rfl⟩ := ho
      have hpend : ((acquiring k l).threads k.cur).pendingLock = some l := by
        rw [acquiring, modify_threads, if_pos rfl]
      have d₁ : Donated (acquiring k l) :=
        d.same (same_modify rfl rfl rfl fun l' hc => absurd hc (hs.cur_not_waiting _))
      have hp : (acquiring k l).prio = k.prio := acquiring_prio
      have b : Blocking k₂ l := by
        refine walk_blocking (k := acquiring k l) (u := k.cur) (d₁.entering hpend) ?_ rfl ?_ ?_
          ((congrArg (walk (k.next + 1) (acquiring k l)) hpend).trans hw)
        · exact Owing.start d₁.exact fun w x => waitsForIn_iff hh
        · intro l₂ h₂ hl₂ _ _
          obtain rfl := Option.some.inj (hpend.symm.trans hl₂)
          exact .inr ⟨rfl, rfl⟩
        · intro x hx l₂ h₂ hl₂ hh₂ hle
          rw [hpend, hp] at hx
          rw [hp] at hle
          by_cases hxc : x = k.cur
          · subst hxc
            obtain rfl := Option.some.inj (hpend.symm.trans hl₂)
            exact .inr ⟨rfl, rfl⟩
          · rw [acquiring, modify_threads, if_neg hxc] at hl₂
            exact .inl (hg x hx l₂ hl₂ h₂ hh₂ hle)
      have hv : (k₂.semas (.lock l)).value = 0 := by
        rcases b.free l with hf | hf
        · have hk : k₂.holder l = k.holder l := congrFun (walk_holder hw) l
          rw [hk, hh] at hf
          cases hf.1
        · exact hf.2
      rw [semaDown_eq, if_pos hv]
      exact b.block

/-! ## The runs -/

/-- No part of the list goes on waiting for a lock. -/
def NoLockDown (ms : List Micro) : Prop := ∀ l, Micro.down (.lock l) ∉ ms

/-- A thread goes on waiting for a lock only at once, and for its pending one. -/
def Thread.Resumes (th : Thread) : Prop :=
  NoLockDown th.todo ∨ ∃ l ms, th.todo = .down (.lock l) :: ms ∧ th.pendingLock = some l ∧ NoLockDown ms

/-- Every thread goes on waiting for a lock only as it left off. -/
def AllResume (k : Kernel) : Prop := ∀ t, (k.threads t).Resumes

/-- The threads go on with the same parts and the same pending locks. -/
def Kept (k k' : Kernel) : Prop := ∀ t, (k'.threads t).todo = (k.threads t).todo ∧
  (k'.threads t).pendingLock = (k.threads t).pendingLock

theorem Kept.refl (k : Kernel) : Kept k k := fun _ => ⟨rfl, rfl⟩

theorem Kept.trans {k₁ : Kernel} (h : Kept k k') (h' : Kept k' k₁) : Kept k k₁ :=
  fun t => ⟨(h' t).1.trans (h t).1, (h' t).2.trans (h t).2⟩

theorem kept_modify {f : Thread → Thread} (ht : (f (k.threads t)).todo = (k.threads t).todo)
    (hp : (f (k.threads t)).pendingLock = (k.threads t).pendingLock) : Kept k (k.modify t f) := by
  intro u
  rw [modify_threads]
  split <;> simp_all

theorem kept_setStatus {st : Status} : Kept k (k.setStatus t st) := kept_modify rfl rfl

theorem kept_setPriority {p : Int} : Kept k (threadSetPriority k p) := kept_modify rfl rfl

theorem kept_threadUnblock (hk : threadUnblock k t = some k') : Kept k k' := by
  obtain ⟨-, rfl⟩ := threadUnblock_eq_some.mp hk
  exact kept_setStatus (k := k)

theorem kept_threadYield : Kept k (threadYield k) := by
  simp only [threadYield]
  split
  · exact kept_setStatus (k := k)
  · exact kept_setStatus

theorem kept_schedule : Kept k (schedule k) := by
  simp only [schedule]
  split
  · exact kept_setStatus (k := k)
  · exact kept_setStatus (k := k)

theorem kept_compare : Kept k (compareCurNextPriority k).kernel := by
  simp only [compareCurNextPriority]
  split
  · exact Kept.refl k
  · split
    · exact kept_threadYield (k := k.setReady _)
    · exact Kept.refl k

theorem kept_semaUp (hk : semaUp k s = some k') : Kept k k' := by
  obtain ⟨-, rfl⟩ | ⟨w, ws, -, hk⟩ := semaUp_cases hk
  · exact Kept.refl k
  · exact kept_threadUnblock (k := k.setSema s _) hk

theorem kept_lockRelease (hk : lockRelease k l = some k') : Kept k k' := by
  simp only [lockRelease, Option.ite_none_right_eq_some] at hk
  have h₁ : Kept k (removeDonationForLock k l) := kept_modify rfl rfl
  have h₂ : Kept (removeDonationForLock k l) (recalcPriority (removeDonationForLock k l)) := by
    refine kept_modify ?_ ?_ <;> split <;> rfl
  have h₃ : Kept k ((recalcPriority (removeDonationForLock k l)).setHolder l none) := h₁.trans h₂
  exact h₃.trans (kept_semaUp hk.2)

theorem kept_walk {fuel : Nat} {pending : Option Nat} (hw : walk fuel k pending = some k') : Kept k k' := by
  induction fuel generalizing k pending with
  | zero =>
    obtain ⟨rfl, -⟩ | ⟨n, _, _, he, _⟩ := walk_cases hw
    · exact Kept.refl _
    · cases he
  | succ fuel ih =>
    obtain ⟨rfl, -⟩ | ⟨n, l, h, he, -, -, -, hw⟩ := walk_cases hw
    · exact Kept.refl _
    · cases he
      have hd : Kept k (donate k l h) := fun t => ⟨quiet_donate.todo t, donate_pendingLock⟩
      exact hd.trans (ih hw)

theorem AllResume.kept (h : AllResume k) (q : Kept k k') : AllResume k' := by
  intro t
  unfold Thread.Resumes
  rw [(q t).1, (q t).2]
  exact h t

/-- The current thread takes the semaphore, or comes back to the `while` of
`sema_down`, which it may for a lock that it has pending. -/
theorem resume_semaDown (h : AllResume k) (hc : NoLockDown (k.threads k.cur).todo)
    (hp : ∀ l, s = .lock l → (k.semas s).value = 0 → (k.threads k.cur).pendingLock = some l) :
    AllResume (semaDown k s).kernel := by
  rw [semaDown_eq]
  split
  · rename_i hv
    intro t
    show ((blockOn k s).threads t).Resumes
    rw [blockOn_threads]
    split
    · cases s with
      | sema n =>
        left
        intro l
        simpa using hc l
      | lock l => exact .inr ⟨l, _, rfl, hp l rfl hv, hc⟩
    · exact h t
  · cases s with
    | sema n => exact h
    | lock l =>
      intro t
      show ((take k (.lock l)).threads t).Resumes
      rw [take_threads]
      split
      · exact .inl hc
      · exact h t

theorem resume_lockAcquire (d : Donated k) (h : AllResume k) (hc : NoLockDown (k.threads k.cur).todo)
    (ho : lockAcquire k l = some o) : AllResume o.kernel := by
  simp only [lockAcquire] at ho
  split at ho
  · cases ho
  · split at ho
    · rename_i hn
      cases ho
      refine resume_semaDown h hc fun l' he hv => ?_
      cases he
      rcases d.free l with hf | hf
      · rw [hf.2] at hv
        cases hv
      · exact absurd hn hf.1
    · rw [Option.map_eq_some_iff] at ho
      obtain ⟨k₂, hw, rfl⟩ := ho
      have hthread (t) : (acquiring k l).threads t =
          if t = k.cur then { k.threads k.cur with pendingLock := some l } else k.threads t :=
        modify_threads
      have h₁ : AllResume (acquiring k l) := fun t => by
        rw [hthread]
        split
        · exact .inl hc
        · exact h t
      have q : Kept (acquiring k l) k₂ := kept_walk hw
      have hcur : k₂.cur = k.cur := (quiet_walk hw).cur
      refine resume_semaDown (h₁.kept q) ?_ fun l' he _ => ?_
      · rw [hcur, (q _).1, hthread, if_pos rfl]
        exact hc
      · cases he
        rw [hcur, (q _).2, hthread, if_pos rfl]

theorem resume_threadCreate {p : Int} (h : AllResume k) (ho : threadCreate k p = some o) :
    AllResume o.kernel := by
  simp only [threadCreate, Option.map_eq_some_iff] at ho
  obtain ⟨k₂, hk, ho⟩ := ho
  have h₁ : AllResume (k.alloc p) := fun t => by
    show ((k.modify k.next fun _ => initThread p).threads t).Resumes
    rw [modify_threads]
    split
    · exact .inl fun l => by simp [initThread]
    · exact h t
  have h₂ := h₁.kept (kept_threadUnblock hk)
  split at ho <;> subst ho
  · exact h₂.kept kept_threadYield
  · exact h₂

theorem body_noLockDown (c : Call) : NoLockDown c.body := by
  intro l
  cases c <;> simp [Call.body, releaseBody]

/-- The invariant of the runs. -/
structure Inv (k : Kernel) : Prop where
  sane : Sane k
  donated : Donated k
  resume : AllResume k

/-- What the current thread has left after its next part. -/
theorem Inv.tail {m : Micro} {ms : List Micro} (i : Inv k) (ht : (k.threads k.cur).todo = m :: ms) :
    NoLockDown ms := by
  rcases i.resume k.cur with h | ⟨l, ms', h, -, hn⟩
  · intro l hl
    exact h l (ht ▸ List.mem_cons_of_mem _ hl)
  · rw [ht] at h
    cases h
    exact hn

theorem same_setTodo {ms : List Micro} : SameLocks k (k.setTodo k.cur ms) :=
  same_modify rfl rfl rfl fun _ _ => rfl

theorem inv_setTodo {ms : List Micro} (i : Inv k) (hn : NoLockDown ms) : Inv (k.setTodo k.cur ms) := by
  refine ⟨i.sane.setTodo ms, i.donated.same same_setTodo, fun t => ?_⟩
  rw [setTodo_threads]
  split
  · exact .inl hn
  · exact i.resume t

theorem setTodo_pendingLock {ms : List Micro} :
    ((k.setTodo k.cur ms).threads t).pendingLock = (k.threads t).pendingLock := by
  rw [setTodo_threads]
  split <;> simp_all

/-- The condition on a lock handed over looks at nothing a `todo` holds. -/
theorem TakenByHighest.setTodo {ms : List Micro} (h : TakenByHighest k l) :
    TakenByHighest (k.setTodo k.cur ms) l := by
  unfold TakenByHighest
  rw [setTodo_prio]
  exact h

theorem ThroughWaiters.setTodo {ms : List Micro} (h : ThroughWaiters k l) :
    ThroughWaiters (k.setTodo k.cur ms) l := by
  intro x hx l' hl'
  rw [raised_setTodo] at hx
  rw [setTodo_pendingLock] at hl'
  rw [setTodo_prio]
  exact h x hx l' hl'

theorem CoveredBy.setTodo {ms : List Micro} {but : Option Nat} {p : Int} {ds : List Donation}
    (h : CoveredBy k but p ds w) : CoveredBy (k.setTodo k.cur ms) but p ds w := by
  intro l hl
  rw [setTodo_pendingLock] at hl
  rw [setTodo_prio]
  exact h l hl

theorem setTodo_donations {ms : List Micro} :
    ((k.setTodo k.cur ms).threads t).donations = (k.threads t).donations := by
  rw [setTodo_threads]
  split <;> simp_all

theorem setTodo_base {ms : List Micro} : (k.setTodo k.cur ms).base t = k.base t := by
  rw [Kernel.base, setTodo_threads]
  split <;> simp_all [Kernel.base]

theorem donated_exec {m : Micro} {ms : List Micro} (i : Inv k) (ht : (k.threads k.cur).todo = m :: ms)
    (hg : Recorded k .part) (ho : m.exec (k.setTodo k.cur ms) = some o) :
    Donated o.kernel ∧ AllResume o.kernel := by
  have hn := i.tail ht
  obtain ⟨hs, d, hr⟩ := inv_setTodo i hn
  have hc : NoLockDown ((k.setTodo k.cur ms).threads (k.setTodo k.cur ms).cur).todo := by
    show NoLockDown ((k.setTodo k.cur ms).threads k.cur).todo
    rw [setTodo_threads, if_pos rfl]
    exact hn
  cases m with
  | acquire l =>
    simp only [Recorded, ht] at hg
    exact ⟨donated_lockAcquire hs d hg.1.setTodo hg.2.setTodo ho, resume_lockAcquire d hr hc ho⟩
  | down s =>
    cases ho
    cases s with
    | sema n => exact ⟨d.same same_semaDown, resume_semaDown hr hc fun l he => by cases he⟩
    | lock l =>
      simp only [Recorded, ht] at hg
      have hp : ((k.setTodo k.cur ms).threads k.cur).pendingLock = some l := by
        rw [setTodo_pendingLock]
        rcases i.resume k.cur with h | ⟨l', ms', h, hp, -⟩
        · exact absurd (ht ▸ List.mem_cons_self) (h l)
        · rw [ht] at h
          cases h
          exact hp
      refine ⟨?_, resume_semaDown hr hc fun l' he _ => by cases he; exact hp⟩
      rw [semaDown_eq]
      split
      · rename_i hv
        have hne : k.holder l ≠ none := by
          rcases d.free l with hf | hf
          · rw [hf.2] at hv
            cases hv
          · exact hf.1
        obtain ⟨h, hh⟩ := Option.ne_none_iff_exists'.mp hne
        refine (blocking_again d hp hh ?_).block
        rw [setTodo_prio]
        exact hg.2 h hh
      · rename_i hv
        exact donated_take hs d hv hg.1.setTodo
  | release l =>
    simp only [Micro.exec, Option.map_eq_some_iff] at ho
    obtain ⟨k₂, hk, rfl⟩ := ho
    simp only [Recorded, ht] at hg
    refine ⟨donated_lockRelease hs d (fun w hw => ?_) hk, hr.kept (kept_lockRelease hk)⟩
    rw [setTodo_base, setTodo_donations]
    exact (hg w hw).setTodo
  | up n =>
    simp only [Micro.exec, Option.map_eq_some_iff] at ho
    obtain ⟨k₂, hk, rfl⟩ := ho
    exact ⟨d.same (same_semaUp hk), hr.kept (kept_semaUp hk)⟩
  | compare =>
    cases ho
    exact ⟨d.same same_compare, hr.kept kept_compare⟩
  | yield =>
    cases ho
    exact ⟨d.same same_threadYield, hr.kept kept_threadYield⟩
  | block =>
    cases ho
    exact ⟨d.same same_setStatus, hr.kept kept_setStatus⟩
  | unblock t =>
    simp only [Micro.exec, Option.map_eq_some_iff] at ho
    obtain ⟨k₂, hk, rfl⟩ := ho
    exact ⟨d.same (same_threadUnblock hk), hr.kept (kept_threadUnblock hk)⟩
  | setPriority p =>
    cases ho
    simp only [Recorded, ht] at hg
    refine ⟨donated_setPriority hs d fun w hw => ?_, hr.kept kept_setPriority⟩
    rw [setTodo_donations]
    exact (hg w hw).setTodo
  | init p =>
    simp only [Micro.exec, Option.ite_none_right_eq_some, Option.some.injEq] at ho
    obtain ⟨-, rfl⟩ := ho
    exact ⟨d, hr⟩
  | create p => exact ⟨donated_threadCreate hs d ho, resume_threadCreate hr ho⟩

theorem step_inv {e : Event} (i : Inv k) (hg : Recorded k e) (hk : step k e = some k') : Inv k' := by
  have hsane := step_sane i.sane hk
  cases e with
  | call c =>
    simp only [step, Option.ite_none_right_eq_some, Option.some.injEq] at hk
    exact hk.2 ▸ inv_setTodo i (body_noLockDown c)
  | part =>
    simp only [step, Option.map_eq_some_iff] at hk
    obtain ⟨o, ho, rfl⟩ := hk
    obtain ⟨m, ms, ht, -, he⟩ := partOut_eq_some.mp ho
    obtain ⟨d, hr⟩ := donated_exec i ht hg he
    refine ⟨hsane, d.finish, ?_⟩
    cases o with
    | done k => exact hr
    | sched k => exact hr.kept kept_schedule

theorem boot_inv (value : Nat → Nat) : Inv (boot value) where
  sane := boot_sane value
  donated :=
    { exact := fun t => exact_iff.mpr ⟨by by_cases h : t = 0 <;> simp [boot, Kernel.base, Kernel.prio, h],
        fun w ⟨l, hl, _⟩ => by simp [boot] at hl,
        .inl (by by_cases h : t = 0 <;> simp [boot, Kernel.base, Kernel.prio, h])⟩
      free := fun l => .inl ⟨rfl, rfl⟩
      record := fun t r hr => by by_cases h : t = 0 <;> simp [boot, h] at hr
      sorted := fun t => by by_cases h : t = 0 <;> simp [boot, h, Desc]
      pending := fun l w hw => by simp [boot, Kernel.waiters] at hw
      holderLt := fun l t ht => by simp [boot] at ht }
  resume t := .inl fun l => by by_cases h : t = 0 <;> simp [boot, h]

/-- In every run whose steps leave no waiter out of sight, every thread is at the
greatest of its own priority and those of the threads blocked on its locks. -/
theorem donation_exact {value : Nat → Nat} {es : List Event} (hr : run (boot value) es = some k)
    (hg : Run.Always step Recorded (boot value) es) (t : Nat) :
    IsGreatest (insert (k.threads t).originalPriority
      ((fun w => (k.threads w).priority) '' {w | waitsFor k w t})) (k.threads t).priority :=
  (Run.run_invariant (fun _ _ _ i hg hk => step_inv i hg hk) (boot_inv value) hr hg).donated.exact t

/-- The initial thread holds lock 1, a thread at 50 holds lock 2 and waits for
lock 1, and one at 60 waits for lock 2. -/
def nested : List Event :=
  callAll (.lockAcquire 1) ++ callAll (.create 50) ++ callAll (.lockAcquire 2) ++ callAll (.lockAcquire 1) ++
    callAll (.create 60) ++ callAll (.lockAcquire 2)

theorem donation_exact_nested : ∃ k, run (boot fun _ => 0) nested = some k ∧ k.prio 0 = 60 ∧
    IsGreatest (insert (k.threads 0).originalPriority
      ((fun w => (k.threads w).priority) '' {w | waitsFor k w 0})) (k.threads 0).priority := by
  have h : (run (boot fun _ => 0) nested).map (fun k => k.prio 0) = some 60 := by decide +kernel
  rw [Option.map_eq_some_iff] at h
  obtain ⟨k, hr, hp⟩ := h
  exact ⟨k, hr, hp, donation_exact hr (by decide +kernel) 0⟩

/-- The initial thread, holding lock 1 and asleep, is woken after a thread at 20
has blocked on the lock, and lowers itself to 10. -/
def lowered : List Event :=
  callAll (.lockAcquire 1) ++ callAll (.create 20) ++ callAll .block ++ callAll (.lockAcquire 1) ++
    callAll (.unblock 0) ++ callAll .yield ++ callAll (.setPriority 10)

/-- Without the condition: the thread at 20 is in no record, and the holder of
the lock it waits for is at 10. -/
theorem donation_not_exact : ¬ ∀ (value : Nat → Nat) (es : List Event) (k : Kernel) (t : Nat),
    run (boot value) es = some k → IsGreatest (insert (k.threads t).originalPriority
      ((fun w => (k.threads w).priority) '' {w | waitsFor k w t})) (k.threads t).priority := by
  intro hall
  have h : (run (boot fun _ => 0) lowered).map (fun k => (k.holder 1, k.waiters (.lock 1), k.prio 2, k.prio 0)) =
      some (some 0, [2], 20, 10) := by decide +kernel
  simp only [Option.map_eq_some_iff, Prod.mk.injEq] at h
  obtain ⟨k, hr, hh, hw, h2, h0⟩ := h
  have hle : k.prio 2 ≤ k.prio 0 := (hall _ _ k 0 hr).2 (.inr ⟨2, ⟨1, hh, by simp [hw]⟩, rfl⟩)
  omega

end PintosKaist.Threads
