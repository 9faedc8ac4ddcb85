/-
The life-cycle invariant: one thread runs, the ready list is the ready threads
other than the idle one, a thread's `elem` is in one list at most, and
`thread_unblock` is only ever called for a blocked thread.

`Frame` says what a part does to the threads other than the running one: it
leaves each alone, or moves it from blocked to the ready list. Everything else
here is read off that.
-/
import PintosKaist.Threads.Life
import PintosKaist.Threads.Lists

namespace PintosKaist.Threads

open OrdList

variable {k k' k₁ : Kernel} {t u : Nat} {s : Sema} {o : Out} {W : Nat → Prop}

/-! ## What a part does to the other threads -/

/-- `t` is as it was. -/
structure SameThread (k k' : Kernel) (t : Nat) : Prop where
  status : (k'.threads t).status = (k.threads t).status
  todo : (k'.threads t).todo = (k.threads t).todo
  ready : t ∈ k'.readyList ↔ t ∈ k.readyList

/-- `t` went from blocked to the ready list. -/
structure Woken (k k' : Kernel) (t : Nat) : Prop where
  was : (k.threads t).status = .blocked
  status : (k'.threads t).status = .ready
  todo : (k'.threads t).todo = (k.threads t).todo
  ready : t ∈ k'.readyList

/-- From `k` to `k'` the threads other than the running one are left alone,
but for some in `W` that are woken; new threads are ready. -/
structure Frame (W : Nat → Prop) (k k' : Kernel) : Prop where
  cur : k'.cur = k.cur
  idleThread : k'.idleThread = k.idleThread
  next : k.next ≤ k'.next
  old : ∀ t < k.next, t ≠ k.cur → SameThread k k' t ∨ W t ∧ Woken k k' t
  fresh : ∀ t, k.next ≤ t → t < k'.next → (k'.threads t).status = .ready ∧ t ∈ k'.readyList

theorem SameThread.trans (h : SameThread k k' t) (h' : SameThread k' k₁ t) : SameThread k k₁ t :=
  ⟨h'.status.trans h.status, h'.todo.trans h.todo, h'.ready.trans h.ready⟩

theorem Frame.of_same (hc : k'.cur = k.cur) (hi : k'.idleThread = k.idleThread) (hn : k'.next = k.next)
    (h : ∀ t < k.next, t ≠ k.cur → SameThread k k' t) : Frame W k k' :=
  ⟨hc, hi, hn.ge, fun t ht hne => .inl (h t ht hne), fun t h₁ h₂ => absurd h₂ (by omega)⟩

theorem Frame.trans (hlt : k.cur < k.next) (h : Frame W k k') (h' : Frame W k' k₁) : Frame W k k₁ where
  cur := h'.cur.trans h.cur
  idleThread := h'.idleThread.trans h.idleThread
  next := h.next.trans h'.next
  old t ht hne := by
    have h₂ := h'.old t (ht.trans_le h.next) (by rwa [h.cur])
    rcases h.old t ht hne with a | ⟨hw, a⟩
    · rcases h₂ with b | ⟨hw, b⟩
      · exact .inl (a.trans b)
      · exact .inr ⟨hw, a.status ▸ b.was, b.status, b.todo.trans a.todo, b.ready⟩
    · rcases h₂ with b | ⟨-, b⟩
      · exact .inr ⟨hw, a.was, b.status.trans a.status, b.todo.trans a.todo, b.ready.mpr a.ready⟩
      · exact absurd (a.status.symm.trans b.was) (by simp)
  fresh t h₁ h₂ := by
    by_cases hk : t < k'.next
    · obtain ⟨hs, hr⟩ := h.fresh t h₁ hk
      rcases h'.old t hk (by rw [h.cur]; omega) with b | ⟨-, b⟩
      · exact ⟨b.status.trans hs, b.ready.mpr hr⟩
      · exact absurd (hs.symm.trans b.was) (by simp)
    · exact h'.fresh t (Nat.le_of_not_lt hk) h₂

theorem Frame.refl (k : Kernel) : Frame W k k :=
  .of_same rfl rfl rfl fun _ _ _ => ⟨rfl, rfl, Iff.rfl⟩

theorem Quiet.frame (q : Quiet k k') : Frame W k k' :=
  .of_same q.cur q.idleThread q.next fun t _ _ => ⟨q.status t, q.todo t, by rw [q.readyList]⟩

/-- A change to the running thread alone. -/
theorem frame_modify {f : Thread → Thread} : Frame W k (k.modify k.cur f) :=
  .of_same rfl rfl rfl fun t _ hne => by
    refine ⟨?_, ?_, Iff.rfl⟩ <;> rw [modify_threads, if_neg hne]

theorem frame_setStatus {st : Status} : Frame W k (k.setStatus k.cur st) := by
  unfold Kernel.setStatus
  exact frame_modify

/-- The ready list in another order. -/
theorem frame_setReady {r : List Nat} (h : r.Perm k.readyList) : Frame W k (k.setReady r) :=
  .of_same rfl rfl rfl fun _ _ _ => ⟨rfl, rfl, h.mem_iff⟩

theorem frame_threadYield : Frame W k (threadYield k) := by
  simp only [threadYield]
  split
  · refine .of_same rfl rfl rfl fun t _ hne => ⟨?_, ?_, ?_⟩
    · rw [setReady_threads, setStatus_threads, if_neg hne]
    · rw [setReady_threads, setStatus_threads, if_neg hne]
    · exact mem_insertBy.trans (or_iff_right hne)
  · exact frame_setStatus

theorem frame_threadBlock : Frame W k (threadBlock k) := by
  unfold threadBlock
  exact frame_setStatus

theorem frame_blockOn : Frame W k (blockOn k s) :=
  .of_same rfl rfl rfl fun t _ hne => by
    refine ⟨?_, ?_, Iff.rfl⟩ <;> rw [blockOn_threads, if_neg hne]

theorem frame_compare (hlt : k.cur < k.next) : Frame W k (compareCurNextPriority k).kernel := by
  simp only [compareCurNextPriority]
  split
  · exact .refl k
  · rename_i t rest hs
    have hf : Frame W k (k.setReady (t :: rest)) := frame_setReady (hs ▸ perm_sortBy)
    split
    · exact hf.trans hlt frame_threadYield
    · exact hf

theorem frame_threadUnblock (hW : W t) (hk : threadUnblock k t = some k') : Frame W k k' := by
  obtain ⟨hb, rfl⟩ := threadUnblock_eq_some.mp hk
  refine ⟨rfl, rfl, le_rfl, fun u _ _ => ?_, fun u h₁ h₂ => absurd h₂ (Nat.not_lt.mpr h₁)⟩
  by_cases he : u = t
  · subst he
    refine .inr ⟨hW, hb, ?_, ?_, mem_insertBy.mpr (.inl rfl)⟩ <;> rw [setReady_threads, setStatus_threads, if_pos rfl]
  · refine .inl ⟨?_, ?_, mem_insertBy.trans (or_iff_right he)⟩ <;>
      rw [setReady_threads, setStatus_threads, if_neg he]

/-- `sema_up` wakes a waiter, if any. -/
theorem frame_semaUp (hlt : k.cur < k.next) (hW : ∀ w ∈ k.waiters s, W w) (hk : semaUp k s = some k') :
    Frame W k k' := by
  obtain ⟨-, rfl⟩ | ⟨w, ws, hs, hk⟩ := semaUp_cases hk
  · exact Quiet.frame (quiet_setSema (.refl _))
  · have hp : (w :: ws).Perm (k.waiters s) := hs ▸ perm_sortBy
    have hf : Frame W k (k.setSema s ⟨(k.semas s).value + 1, ws⟩) :=
      .of_same rfl rfl rfl fun _ _ _ => ⟨rfl, rfl, Iff.rfl⟩
    exact hf.trans hlt (frame_threadUnblock (hW w (hp.mem_iff.mp (by simp))) hk)

theorem frame_semaDown : Frame W k (semaDown k s).kernel := by
  rw [semaDown_eq]
  split
  · exact frame_blockOn
  · exact quiet_take.frame

theorem frame_lockAcquire {l : Nat} (hlt : k.cur < k.next) (ho : lockAcquire k l = some o) :
    Frame W k o.kernel := by
  simp only [lockAcquire] at ho
  split at ho
  · cases ho
  · split at ho
    · cases ho
      exact frame_semaDown
    · rw [Option.map_eq_some_iff] at ho
      obtain ⟨k₂, hw, rfl⟩ := ho
      have hq : Quiet k k₂ := (quiet_modify rfl rfl).trans (quiet_walk hw)
      exact hq.frame.trans hlt frame_semaDown

theorem frame_lockRelease {l : Nat} (hlt : k.cur < k.next) (hW : ∀ s, ∀ w ∈ k.waiters s, W w)
    (hk : lockRelease k l = some k') : Frame W k k' := by
  simp only [lockRelease, Option.ite_none_right_eq_some] at hk
  have hq : Quiet k ((recalcPriority (removeDonationForLock k l)).setHolder l none) := quiet_release
  refine hq.frame.trans hlt (frame_semaUp (by rw [hq.cur, hq.next]; exact hlt) (fun w hw => ?_) hk.2)
  exact hW _ w ((hq.waiters _).mem_iff.mp hw)

theorem frame_created {p : Int} (hk : threadUnblock (k.alloc p) k.next = some k') :
    Frame W k k' := by
  obtain ⟨-, rfl⟩ := threadUnblock_eq_some.mp hk
  refine ⟨rfl, rfl, Nat.le_succ _, fun t ht _ => ?_, fun t h₁ h₂ => ?_⟩
  · have hne : t ≠ k.next := Nat.ne_of_lt ht
    have ha : (k.alloc p).threads t = k.threads t := by
      show (k.modify k.next fun _ => initThread p).threads t = _
      rw [modify_threads, if_neg hne]
    refine .inl ⟨?_, ?_, mem_insertBy.trans (or_iff_right hne)⟩ <;>
      rw [setReady_threads, setStatus_threads, if_neg hne, ha]
  · obtain rfl : t = k.next := Nat.le_antisymm (Nat.le_of_lt_succ h₂) h₁
    refine ⟨?_, mem_insertBy.mpr (.inl rfl)⟩
    rw [setReady_threads, setStatus_threads, if_pos rfl]

theorem frame_threadCreate {p : Int} (hlt : k.cur < k.next) (ho : threadCreate k p = some o) :
    Frame W k o.kernel := by
  simp only [threadCreate, Option.map_eq_some_iff] at ho
  obtain ⟨k₂, hk, ho⟩ := ho
  have hf : Frame W k k₂ := frame_created hk
  split at ho <;> subst ho
  · exact hf.trans hlt frame_threadYield
  · exact hf

/-- Who a part can wake: the threads on semaphores, and the one it is for. -/
def Micro.wakes (k : Kernel) (m : Micro) (t : Nat) : Prop :=
  (∃ s, t ∈ k.waiters s) ∨ m = .unblock t

theorem frame_exec {m : Micro} {ms : List Micro} (hlt : k.cur < k.next)
    (ho : m.exec (k.setTodo k.cur ms) = some o) : Frame (m.wakes k) k o.kernel := by
  have hf : Frame (m.wakes k) k (k.setTodo k.cur ms) := frame_modify
  have hW : ∀ s, ∀ w ∈ (k.setTodo k.cur ms).waiters s, m.wakes k w := fun s w hw => .inl ⟨s, hw⟩
  refine hf.trans hlt ?_
  cases m with
  | acquire l => exact frame_lockAcquire hlt ho
  | down s =>
    cases ho
    exact frame_semaDown
  | release l =>
    simp only [Micro.exec, Option.map_eq_some_iff] at ho
    obtain ⟨k₂, hk, rfl⟩ := ho
    exact frame_lockRelease hlt hW hk
  | up n =>
    simp only [Micro.exec, Option.map_eq_some_iff] at ho
    obtain ⟨k₂, hk, rfl⟩ := ho
    exact frame_semaUp hlt (hW _) hk
  | compare =>
    cases ho
    exact frame_compare hlt
  | yield =>
    cases ho
    exact frame_threadYield
  | block =>
    cases ho
    exact frame_threadBlock
  | unblock t =>
    simp only [Micro.exec, Option.map_eq_some_iff] at ho
    obtain ⟨k₂, hk, rfl⟩ := ho
    exact frame_threadUnblock (.inr rfl) hk
  | setPriority p =>
    cases ho
    exact quiet_setPriority.frame
  | init p =>
    simp only [Micro.exec, Option.ite_none_right_eq_some, Option.some.injEq] at ho
    exact ho.2 ▸ .refl _
  | create p => exact frame_threadCreate hlt ho

/-! ## One thread runs, and the ready list is complete -/

/-- The lists agree with the statuses in both directions. -/
structure Placed (k : Kernel) : Prop extends Sane k where
  only : ∀ t < k.next, (k.threads t).status = .running → t = k.cur
  queued : ∀ t < k.next, (k.threads t).status = .ready → t ≠ k.idleThread → t ∈ k.readyList

/-- The running thread has been taken off the CPU: it is in the ready list,
unless it is blocked, dying or the idle thread. -/
def Left (k : Kernel) : Prop :=
  (k.threads k.cur).status ≠ .running ∧
    ((k.threads k.cur).status = .ready → k.cur ≠ k.idleThread → k.cur ∈ k.readyList)

/-- How a part leaves the running thread. -/
def Out.Leaves : Out → Prop
  | .done _ => True
  | .sched k => Left k

theorem left_threadYield : Left (threadYield k) := by
  simp only [threadYield]
  split
  · refine ⟨?_, fun _ _ => mem_insertBy.mpr (.inl rfl)⟩
    show ((k.setStatus k.cur .ready).threads k.cur).status ≠ .running
    rw [setStatus_threads, if_pos rfl]
    simp
  · rename_i hi
    refine ⟨?_, fun _ hne => (hi hne).elim⟩
    show ((k.setStatus k.cur .ready).threads k.cur).status ≠ .running
    rw [setStatus_threads, if_pos rfl]
    simp

/-- A status that is neither running nor ready. -/
theorem left_setStatus {st : Status} (h₁ : st ≠ .running) (h₂ : st ≠ .ready) : Left (k.setStatus k.cur st) := by
  have hs : ((k.setStatus k.cur st).threads k.cur).status = st := by rw [setStatus_threads, if_pos rfl]
  exact ⟨fun h => h₁ (hs.symm.trans h), fun h => absurd (hs.symm.trans h) h₂⟩

theorem leaves_semaDown : (semaDown k s).Leaves := by
  rw [semaDown_eq]
  split
  · have hs : ((blockOn k s).threads k.cur).status = .blocked := by rw [blockOn_threads, if_pos rfl]
    exact ⟨fun h => absurd (hs.symm.trans h) (by simp), fun h => absurd (hs.symm.trans h) (by simp)⟩
  · trivial

theorem leaves_exec {m : Micro} (ho : m.exec k = some o) : o.Leaves := by
  cases m with
  | acquire l =>
    simp only [Micro.exec, lockAcquire] at ho
    split at ho
    · cases ho
    · split at ho
      · cases ho
        exact leaves_semaDown
      · rw [Option.map_eq_some_iff] at ho
        obtain ⟨k₂, -, rfl⟩ := ho
        exact leaves_semaDown
  | down s =>
    cases ho
    exact leaves_semaDown
  | compare =>
    cases ho
    simp only [compareCurNextPriority]
    split
    · trivial
    · split
      · exact left_threadYield
      · trivial
  | yield =>
    cases ho
    exact left_threadYield
  | block =>
    cases ho
    exact left_setStatus (by simp) (by simp)
  | create p =>
    simp only [Micro.exec, threadCreate, Option.map_eq_some_iff] at ho
    obtain ⟨k₂, -, ho⟩ := ho
    split at ho <;> subst ho
    · exact left_threadYield
    · trivial
  | release l | up l | unblock l =>
    simp only [Micro.exec, Option.map_eq_some_iff] at ho
    obtain ⟨k₂, -, rfl⟩ := ho
    trivial
  | setPriority p =>
    cases ho
    trivial
  | init p =>
    simp only [Micro.exec, Option.ite_none_right_eq_some, Option.some.injEq] at ho
    obtain ⟨-, rfl⟩ := ho
    trivial

/-- The thread `schedule` picks. -/
def nextThreadToRun (k : Kernel) : Nat :=
  match k.readyList with
  | [] => k.idleThread
  | t :: _ => t

theorem schedule_eq : schedule k = (k.setReady k.readyList.tail).switchTo (nextThreadToRun k) := by
  obtain ⟨threads, ready, cur, idle, semas, holder, next⟩ := k
  cases ready <;> rfl

theorem schedule_cur : (schedule k).cur = nextThreadToRun k := by
  rw [schedule_eq]
  rfl

theorem schedule_threads : (schedule k).threads t =
    if t = nextThreadToRun k then { k.threads t with status := .running } else k.threads t := by
  rw [schedule_eq]
  show ((k.setReady k.readyList.tail).setStatus (nextThreadToRun k) .running).threads t = _
  rw [setStatus_threads, setReady_threads]
  split <;> simp_all

theorem schedule_idle : (schedule k).idleThread = k.idleThread := by
  rw [schedule_eq]
  rfl

theorem schedule_next : (schedule k).next = k.next := by
  rw [schedule_eq]
  rfl

/-! Scheduling changes nobody's priority. -/

theorem threadUnblock_prio (hk : threadUnblock k t = some k') : k'.prio = k.prio := by
  obtain ⟨-, rfl⟩ := threadUnblock_eq_some.mp hk
  exact setStatus_prio

theorem threadYield_prio : (threadYield k).prio = k.prio := by
  simp only [threadYield]
  split <;> exact setStatus_prio

theorem finish_prio : o.finish.prio = o.kernel.prio := by
  cases o with
  | done k => rfl
  | sched k =>
    funext t
    show (schedule k).prio t = k.prio t
    simp only [Kernel.prio, schedule_threads]
    split <;> rfl

/-- Whoever was in the ready list and is not the one picked is in it still. -/
theorem mem_schedule_ready (h : t ∈ k.readyList) (hne : t ≠ nextThreadToRun k) : t ∈ (schedule k).readyList := by
  simp only [schedule, nextThreadToRun] at hne ⊢
  split
  · rename_i hr
    simp [hr] at h
  · rename_i u rest hr
    rw [hr] at h hne
    exact (List.mem_cons.mp h).resolve_left hne

theorem placed_schedule (h : Lists k) (hr : ∀ t < k.next, (k.threads t).status ≠ .running)
    (hq : ∀ t < k.next, (k.threads t).status = .ready → t ≠ k.idleThread → t ∈ k.readyList) :
    Placed (schedule k) where
  toSane := lists_schedule h
  only t ht hs := by
    rw [schedule_cur]
    by_contra hne
    rw [schedule_threads, if_neg hne] at hs
    exact hr t (schedule_next (k := k) ▸ ht) hs
  queued t ht hs hi := by
    by_cases he : t = nextThreadToRun k
    · rw [schedule_threads, if_pos he] at hs
      cases hs
    · rw [schedule_threads, if_neg he] at hs
      rw [schedule_idle] at hi
      exact mem_schedule_ready (hq t (schedule_next (k := k) ▸ ht) hs hi) he

/-- What a part leaves is in place again, once it is finished. -/
theorem Placed.finish (h : Placed k) (ho : o.Ok) (hf : Frame W k o.kernel) (hl : o.Leaves) : Placed o.finish := by
  -- no thread but the current one can be running, and the others stay queued
  have others : ∀ t < o.kernel.next, t ≠ k.cur → (o.kernel.threads t).status ≠ .running ∧
      ((o.kernel.threads t).status = .ready → t ≠ o.kernel.idleThread → t ∈ o.kernel.readyList) := by
    intro t ht hne
    by_cases hk : t < k.next
    · rcases hf.old t hk hne with a | ⟨-, a⟩
      · rw [a.status, hf.idleThread]
        exact ⟨fun hs => hne (h.only t hk hs), fun hs hi => a.ready.mpr (h.queued t hk hs hi)⟩
      · exact ⟨by rw [a.status]; simp, fun _ _ => a.ready⟩
    · obtain ⟨hs, hr⟩ := hf.fresh t (Nat.le_of_not_lt hk) ht
      exact ⟨by rw [hs]; simp, fun _ _ => hr⟩
  cases o with
  | done k' =>
    have ho : Sane k' := ho
    refine ⟨ho, fun t ht hs => ?_, fun t ht hs hi => ?_⟩
    · by_contra hne
      exact (others t ht (by rwa [← hf.cur])).1 hs
    · have hne : t ≠ k'.cur := fun he => absurd (ho.running.symm.trans (he ▸ hs)) (by simp)
      exact (others t ht (by rwa [← hf.cur])).2 hs hi
  | sched k' =>
    have hl : Left k' := hl
    refine placed_schedule ho (fun t ht => ?_) fun t ht => ?_
    · by_cases hc : t = k'.cur
      · exact hc ▸ hl.1
      · exact (others t ht (by rwa [← hf.cur])).1
    · by_cases hc : t = k'.cur
      · exact hc ▸ hl.2
      · exact (others t ht (by rwa [← hf.cur])).2

/-! ## Threads that stay where they are -/

/-- `t` is off the CPU and in no call. -/
structure Rests (st : Status) (k : Kernel) (t : Nat) : Prop where
  lt : t < k.next
  ne_idle : t ≠ k.idleThread
  status : (k.threads t).status = st
  todo : (k.threads t).todo = []

theorem Rests.not_waiting {st : Status} (h : Rests st k t) (hl : Lists k) (s : Sema) : t ∉ k.waiters s := by
  intro hw
  have := (hl.waiter s t hw).2.2.2
  simp [h.todo] at this

theorem Rests.ne_cur {st : Status} (h : Rests st k t) (hs : Sane k) (hst : st ≠ .running) : t ≠ k.cur := by
  rintro rfl
  exact hst (h.status.symm.trans hs.running)

theorem Rests.frame {st : Status} (h : Rests st k t) (hf : Frame W k k') (hne : t ≠ k.cur) (hW : ¬W t) :
    Rests st k' t := by
  rcases hf.old t h.lt hne with a | ⟨hw, -⟩
  · exact ⟨h.lt.trans_le hf.next, by rw [hf.idleThread]; exact h.ne_idle, a.status.trans h.status,
      a.todo.trans h.todo⟩
  · exact absurd hw hW

theorem Rests.schedule {st : Status} (h : Rests st k t) (hl : Lists k) (hst : st ≠ .ready) :
    Rests st (schedule k) t := by
  have hne : t ≠ nextThreadToRun k := by
    simp only [nextThreadToRun]
    split
    · exact h.ne_idle
    · rename_i u rest hr
      rintro rfl
      exact hst (h.status.symm.trans (hl.ready t (by simp [hr])).1)
  refine ⟨by rw [schedule_next]; exact h.lt, by rw [schedule_idle]; exact h.ne_idle, ?_, ?_⟩
  · rw [schedule_threads, if_neg hne]
    exact h.status
  · rw [schedule_threads, if_neg hne]
    exact h.todo

theorem Rests.finish {st : Status} (h : Rests st o.kernel t) (ho : o.Ok) (hst : st ≠ .ready) :
    Rests st o.finish t := by
  cases o with
  | done k => exact h
  | sched k => exact h.schedule ho hst

/-- The threads `block_thread_list`, `destruction_req` and the holders of a
parked thread's pointer name. -/
structure Queues (k : Kernel) (parked : List Nat) (asleep : List BlockThread) (dead : List Nat) : Prop where
  parkedRest : ∀ t ∈ parked, Rests .blocked k t
  asleepRest : ∀ e ∈ asleep, Rests .blocked k e.blockThreads
  blockedNodup : (parked ++ asleep.map BlockThread.blockThreads).Nodup
  deadRest : ∀ t ∈ dead, Rests .dying k t
  deadNodup : dead.Nodup

variable {parked parked' : List Nat} {asleep asleep' : List BlockThread} {dead : List Nat}

theorem Queues.mono (h : Queues k parked asleep dead) (hp : parked'.Sublist parked) (ha : asleep'.Sublist asleep) :
    Queues k parked' asleep' dead where
  parkedRest t ht := h.parkedRest t (hp.mem ht)
  asleepRest e he := h.asleepRest e (ha.mem he)
  blockedNodup := h.blockedNodup.sublist (hp.append (ha.map _))
  deadRest := h.deadRest
  deadNodup := h.deadNodup

/-- A part by the running thread, which wakes threads on semaphores only. -/
theorem Queues.finish (h : Queues k parked asleep dead) (hs : Sane k) (hf : Frame W k o.kernel) (ho : o.Ok)
    (hW : ∀ t, W t → ∃ s, t ∈ k.waiters s) : Queues o.finish parked asleep dead := by
  have rest {st : Status} {t : Nat} (h₁ : st ≠ .ready) (h₂ : st ≠ .running) (hr : Rests st k t) :
      Rests st o.finish t := by
    refine (hr.frame hf (hr.ne_cur hs h₂) fun hw => ?_).finish ho h₁
    obtain ⟨s, hws⟩ := hW t hw
    exact hr.not_waiting hs.toLists s hws
  exact ⟨fun t ht => rest (by simp) (by simp) (h.parkedRest t ht),
    fun e he => rest (by simp) (by simp) (h.asleepRest e he), h.blockedNodup,
    fun t ht => rest (by simp) (by simp) (h.deadRest t ht), h.deadNodup⟩

/-- `thread_unblock` of a thread that is not named any more. -/
theorem Queues.unblock (h : Queues k parked asleep dead) (hs : Sane k) (hp : t ∉ parked)
    (ha : ∀ e ∈ asleep, e.blockThreads ≠ t) (hk : threadUnblock k t = some k') : Queues k' parked asleep dead := by
  have hf : Frame (· = t) k k' := frame_threadUnblock rfl hk
  have hb := (threadUnblock_eq_some.mp hk).1
  have rest {st : Status} {u : Nat} (h₂ : st ≠ .running) (hne : u ≠ t) (hr : Rests st k u) : Rests st k' u :=
    hr.frame hf (hr.ne_cur hs h₂) hne
  refine ⟨fun u hu => rest (by simp) (fun he => hp (he ▸ hu)) (h.parkedRest u hu),
    fun e he => rest (by simp) (ha e he) (h.asleepRest e he), h.blockedNodup, fun u hu => ?_, h.deadNodup⟩
  have hd := h.deadRest u hu
  refine rest (by simp) (fun he => ?_) hd
  exact absurd (hd.status.symm.trans (he ▸ hb)) (by simp)

/-! ## The invariant -/

/-- The life-cycle invariant. -/
structure Life.Ok (s : Life) : Prop where
  placed : Placed s.kern
  queues : Queues s.kern s.parked s.blockThreadList s.destructionReq

theorem placed_threadUnblock (h : Placed k) (hw : ∀ s, t ∉ k.waiters s) (hi : t ≠ k.idleThread) (hlt : t < k.next)
    (hk : threadUnblock k t = some k') : Placed k' :=
  h.finish (o := .done k') (sane_threadUnblock h.toSane hw hi hlt hk)
    (frame_threadUnblock (W := fun _ => True) trivial hk) trivial

/-- The running thread, in no call, is taken off the CPU for good or until
somebody unblocks it. -/
theorem placed_off {st : Status} (h : Placed k) (h₁ : st ≠ .running) (h₂ : st ≠ .ready) :
    Placed (schedule (k.setStatus k.cur st)) := by
  have hf : Frame (fun _ => False) k (k.setStatus k.cur st) := frame_setStatus
  exact h.finish (o := .sched (k.setStatus k.cur st)) h.setStatus hf (left_setStatus h₁ h₂)

theorem queues_off (st : Status) (h : Queues k parked asleep dead) (hs : Sane k) :
    Queues (schedule (k.setStatus k.cur st)) parked asleep dead := by
  have hf : Frame (fun _ => False) k (k.setStatus k.cur st) := frame_setStatus
  exact h.finish (o := .sched (k.setStatus k.cur st)) hs hf hs.setStatus fun _ hw => hw.elim

theorem rests_off {st : Status} (hs : Sane k) (hi : k.cur ≠ k.idleThread) (ht : (k.threads k.cur).todo = [])
    (hst : st ≠ .ready) : Rests st (schedule (k.setStatus k.cur st)) k.cur := by
  have hr : Rests st (k.setStatus k.cur st) k.cur := by
    refine ⟨hs.curLt, hi, ?_, ?_⟩ <;> rw [setStatus_threads, if_pos rfl]
    exact ht
  exact hr.schedule hs.setStatus hst

variable {s s' : Life} {e : LifeEvent}

/-- The running thread is not named. -/
theorem Life.Ok.cur_not_parked (h : s.Ok) : s.kern.cur ∉ s.parked :=
  fun hc => (h.queues.parkedRest _ hc).ne_cur h.placed.toSane (by simp) rfl

theorem Life.Ok.cur_not_asleep (h : s.Ok) : s.kern.cur ∉ s.blockThreadList.map BlockThread.blockThreads := by
  intro hc
  obtain ⟨e, he, hce⟩ := List.mem_map.mp hc
  exact (h.queues.asleepRest e he).ne_cur h.placed.toSane (by simp) hce

theorem Life.Ok.reap (h : s.Ok) : s.reap.Ok :=
  ⟨h.placed, h.queues.parkedRest, h.queues.asleepRest, h.queues.blockedNodup, by simp [Life.reap], by simp [Life.reap]⟩

theorem Life.Ok.finish (h : s.Ok) (ho : o.Ok) (hf : Frame W s.kern o.kernel) (hl : o.Leaves)
    (hW : ∀ t, W t → ∃ sm, t ∈ s.kern.waiters sm) : (s.finish o).Ok := by
  have he := h.placed.finish ho hf hl
  cases o with
  | done k => exact ⟨he, h.queues.finish h.placed.toSane hf ho hW⟩
  | sched k =>
    simp only [Life.finish]
    split
    · exact ⟨he, h.queues.finish h.placed.toSane hf ho hW⟩
    · exact ⟨he, h.reap.queues.finish h.placed.toSane hf ho hW⟩

theorem Life.Ok.record {m : Micro} (h : s.Ok) : (s.record m).Ok := by
  cases m <;> exact ⟨h.placed, h.queues⟩

theorem Life.Ok.part (h : s.Ok) (hs : s.part = some s') : s'.Ok := by
  simp only [Life.part] at hs
  split at hs
  · cases hs
  · rename_i m ms ht
    simp only [Option.ite_none_left_eq_some, Option.map_eq_some_iff] at hs
    obtain ⟨hd, o, ho, rfl⟩ := hs
    obtain ⟨m', ms', ht', hm, he⟩ := partOut_eq_some.mp ho
    obtain ⟨rfl, rfl⟩ := List.cons_eq_cons.mp (ht.symm.trans ht')
    have hrec : (s.record m).kern = s.kern := by cases m <;> rfl
    have hsane := h.placed.toSane
    refine h.record.finish (ok_exec hsane hm he) (hrec ▸ frame_exec hsane.curLt he) (leaves_exec he) ?_
    rw [hrec]
    rintro t (hw | rfl)
    · exact hw
    · simp [Micro.direct] at hd

theorem Life.Ok.block (h : s.Ok) (ht : (s.kern.threads s.kern.cur).todo = []) : s.block.Ok := by
  have hs := h.placed.toSane
  have hq := queues_off .blocked h.queues hs
  refine ⟨placed_off h.placed (by simp) (by simp), ?_⟩
  simp only [Life.block]
  split
  · exact hq
  · rename_i hi
    refine ⟨fun t hc => ?_, hq.asleepRest, ?_, hq.deadRest, hq.deadNodup⟩
    · rcases List.mem_cons.mp hc with rfl | hc
      · exact rests_off hs hi ht (by simp)
      · exact hq.parkedRest t hc
    · refine List.nodup_cons.mpr ⟨fun hc => ?_, hq.blockedNodup⟩
      exact (List.mem_append.mp hc).elim h.cur_not_parked h.cur_not_asleep

theorem Life.Ok.timerSleep {w : Int} (h : s.Ok) (ht : (s.kern.threads s.kern.cur).todo = [])
    (hi : s.kern.cur ≠ s.kern.idleThread) : (timerSleep s w).Ok := by
  have hs := h.placed.toSane
  have hq := queues_off .blocked h.queues hs
  refine ⟨placed_off h.placed (by simp) (by simp), hq.parkedRest, fun e he => ?_, ?_, hq.deadRest, hq.deadNodup⟩
  · rcases mem_insertBy.mp he with rfl | he
    · exact rests_off hs hi ht (by simp)
    · exact hq.asleepRest e he
  · have hp : (insertBy (fun e => -e.wakeupTick) ⟨s.kern.cur, w⟩ s.blockThreadList).Perm
        (⟨s.kern.cur, w⟩ :: s.blockThreadList) := perm_insertBy
    have hm := (hp.map BlockThread.blockThreads).append_left s.parked
    refine (hm.trans List.perm_middle).nodup_iff.mpr ?_
    refine List.nodup_cons.mpr ⟨fun hc => ?_, hq.blockedNodup⟩
    exact (List.mem_append.mp hc).elim h.cur_not_parked h.cur_not_asleep

theorem Life.Ok.threadExit (h : s.Ok) (ht : (s.kern.threads s.kern.cur).todo = [])
    (hi : s.kern.cur ≠ s.kern.idleThread) : (threadExit s).Ok := by
  have hs := h.placed.toSane
  have hq := queues_off .dying h.reap.queues hs
  refine ⟨placed_off h.placed (by simp) (by simp), hq.parkedRest, hq.asleepRest, hq.blockedNodup, ?_, ?_⟩
  · simp only [Threads.threadExit]
    split
    · intro t hc
      rcases mem_insertBy.mp hc with rfl | hc
      · exact rests_off hs hi ht (by simp)
      · exact hq.deadRest t hc
    · exact hq.deadRest
  · simp only [Threads.threadExit]
    split
    · exact nodup_insertBy hq.deadNodup (by simp [Life.reap])
    · exact hq.deadNodup

/-- One turn of the `for` of `wake_up`: a sleeper is unblocked and taken off
the list. -/
theorem wakeUp_turn {b : BlockThread} (h : Placed k) (hq : Queues k parked (b :: asleep) dead)
    (hu : threadUnblock k b.blockThreads = some k') : Placed k' ∧ Queues k' parked asleep dead := by
  have hr := hq.asleepRest b (by simp)
  have hd := List.nodup_append.mp hq.blockedNodup
  refine ⟨placed_threadUnblock h (hr.not_waiting h.toLists) hr.ne_idle hr.lt hu, ?_⟩
  refine (hq.mono (.refl _) (List.sublist_cons_self b asleep)).unblock h.toSane (fun hc => ?_) (fun e he hc => ?_) hu
  · exact hd.2.2 _ hc b.blockThreads (by simp) rfl
  · exact (List.nodup_cons.mp hd.2.1).1 (List.mem_map.mpr ⟨e, he, hc⟩)

/-- The `for` of `wake_up`. -/
theorem wakeUp_ok {now : Int} (h : Placed k) (hq : Queues k parked asleep dead)
    (hk : wakeUp now k asleep = some (k', asleep')) : Placed k' ∧ Queues k' parked asleep' dead := by
  induction asleep generalizing k with
  | nil =>
    obtain ⟨rfl, rfl⟩ := Prod.mk.inj (Option.some.inj hk)
    exact ⟨h, hq⟩
  | cons e es ih =>
    simp only [wakeUp] at hk
    split at hk
    · obtain ⟨k₁, hu, hk⟩ := Option.bind_eq_some_iff.mp hk
      obtain ⟨h', hq'⟩ := wakeUp_turn h hq hu
      exact ih h' hq' hk
    · obtain ⟨rfl, rfl⟩ := Prod.mk.inj (Option.some.inj hk)
      exact ⟨h, hq⟩

theorem Life.Ok.timerInterrupt (h : s.Ok) (hs : timerInterrupt s = some s') : s'.Ok := by
  simp only [Threads.timerInterrupt] at hs
  split at hs
  · obtain ⟨⟨k, es⟩, hw, rfl⟩ := Option.map_eq_some_iff.mp hs
    obtain ⟨he, hq⟩ := wakeUp_ok h.placed h.queues hw
    exact ⟨he, hq⟩
  · obtain rfl := Option.some.inj hs
    exact ⟨h.placed, h.queues⟩

theorem Life.Ok.unblock (h : s.Ok) (ht : t ∈ s.parked) (hk : threadUnblock s.kern t = some k') :
    Life.Ok { s with kern := k', parked := s.parked.erase t } := by
  have hr := h.queues.parkedRest t ht
  have hd := List.nodup_append.mp h.queues.blockedNodup
  refine ⟨placed_threadUnblock h.placed (hr.not_waiting h.placed.toLists) hr.ne_idle hr.lt hk, ?_⟩
  refine (h.queues.mono List.erase_sublist (.refl _)).unblock h.placed.toSane (fun hc => ?_) (fun e he hc => ?_) hk
  · exact ((List.Nodup.mem_erase_iff hd.1).mp hc).1 rfl
  · exact hd.2.2 t ht e.blockThreads (List.mem_map.mpr ⟨e, he, rfl⟩) hc.symm

theorem sane_sortReady (h : Sane k) : Sane k.sortReady :=
  ⟨h.toLists.setReady (fun _ hu => mem_sortBy.mp hu) (perm_sortBy.nodup_iff.mpr h.readyNodup), h.running⟩

theorem frame_sortReady : Frame W k k.sortReady := frame_setReady perm_sortBy

theorem quiet_setPriorities {f : Nat → Int} : Quiet k (k.setPriorities f) :=
  ⟨fun _ => rfl, fun _ => rfl, fun _ => .refl _, rfl, rfl, rfl, rfl⟩

theorem quiet_semaTryDown {sm : Sema} : Quiet k (semaTryDown k sm) := by
  simp only [semaTryDown]
  split
  · exact quiet_setSema (.refl _)
  · exact .refl k

/-- A change that moves no thread. -/
theorem Life.Ok.done (h : s.Ok) (hs : Sane k) (hf : Frame (fun _ => False) s.kern k) : Life.Ok { s with kern := k } :=
  h.finish (o := .done k) hs hf trivial fun _ hw => hw.elim

theorem step_ok (h : s.Ok) (hs : s.step e = some s') : s'.Ok := by
  have hsane := h.placed.toSane
  cases e with
  | call c =>
    simp only [Life.step, Option.ite_none_right_eq_some, Option.some.injEq] at hs
    exact hs.2 ▸ h.done (hsane.setTodo _) frame_modify
  | create p pg =>
    simp only [Life.step, Option.ite_none_right_eq_some, Option.some.injEq] at hs
    obtain ⟨-, rfl⟩ := hs
    have h' := h.done (hsane.setTodo (Call.create p).body) frame_modify
    exact ⟨h'.placed, h'.queues⟩
  | part => exact h.part hs
  | block =>
    simp only [Life.step, Option.ite_none_right_eq_some, Option.some.injEq] at hs
    exact hs.2 ▸ h.block (of_decide_eq_true hs.1)
  | unblock t =>
    simp only [Life.step, Option.ite_none_right_eq_some, Option.map_eq_some_iff] at hs
    obtain ⟨ht, k', hk, rfl⟩ := hs
    exact h.unblock ht hk
  | exit =>
    simp only [Life.step, Option.ite_none_right_eq_some, Option.some.injEq, Bool.and_eq_true] at hs
    exact hs.2 ▸ h.threadExit (of_decide_eq_true hs.1.1) (of_decide_eq_true hs.1.2)
  | sleep w =>
    simp only [Life.step, Option.ite_none_right_eq_some, Option.some.injEq, Bool.and_eq_true] at hs
    exact hs.2 ▸ h.timerSleep (of_decide_eq_true hs.1.1) (of_decide_eq_true hs.1.2)
  | tick => exact h.timerInterrupt hs
  | preempt =>
    obtain rfl := Option.some.inj hs
    have hf : Frame (fun _ => False) s.kern (threadYield s.kern) := frame_threadYield
    exact h.finish (o := .sched _) (lists_threadYield hsane) hf left_threadYield fun _ hw => hw.elim
  | handlerUp n =>
    simp only [Life.step, Option.map_eq_some_iff] at hs
    obtain ⟨k, hk, rfl⟩ := hs
    have hf : Frame (fun t => ∃ sm, t ∈ s.kern.waiters sm) s.kern k :=
      frame_semaUp hsane.curLt (fun w hw => ⟨_, hw⟩) hk
    exact h.finish (o := .done k.sortReady) (sane_sortReady (sane_semaUp hsane hk))
      (hf.trans hsane.curLt frame_sortReady) trivial fun _ hw => hw
  | tryDown n =>
    obtain rfl := Option.some.inj hs
    exact h.done (hsane.quiet quiet_semaTryDown) quiet_semaTryDown.frame
  | priorities f =>
    obtain rfl := Option.some.inj hs
    exact h.done (sane_sortReady (hsane.quiet quiet_setPriorities))
      (quiet_setPriorities.frame.trans hsane.curLt frame_sortReady)

theorem boot_ok (value : Nat → Nat) : (Life.boot value).Ok where
  placed := by
    refine ⟨boot_sane value, fun t ht hs => ?_, fun t ht hs hi => ?_⟩
    · have hk : ((boot value).threads t).status = .running := hs
      by_contra hne
      have hne : t ≠ 0 := hne
      simp [boot, hne] at hk
    · have hk : ((boot value).threads t).status = .ready := hs
      have ht : t < 2 := ht
      have hi : t ≠ 1 := hi
      obtain rfl : t = 0 := by omega
      simp [boot] at hk
  queues := by constructor <;> simp [Life.boot]

theorem Life.run_ok {value : Nat → Nat} {es : List LifeEvent} (hr : Run.run Life.step (Life.boot value) es = some s) :
    s.Ok :=
  Run.run_invariant (G := fun _ _ => True) (fun _ _ _ h _ hs => step_ok h hs) (boot_ok value) hr
    (Run.always_of_mem _ fun _ _ _ => trivial)

/-! ## `thread_unblock` never fails -/

theorem threadUnblock_isSome (h : (k.threads t).status = .blocked) : (threadUnblock k t).isSome := by
  simp [threadUnblock, h]

theorem semaUp_isSome {sm : Sema} (h : Lists k) : (semaUp k sm).isSome := by
  simp only [semaUp]
  split
  · rfl
  · rename_i w ws hs
    have hw : w ∈ k.waiters sm := perm_sortBy.mem_iff.mp (hs ▸ List.mem_cons_self)
    exact threadUnblock_isSome (h.waiter sm w hw).1

theorem lockRelease_isSome {l : Nat} (h : Lists k) (hl : k.holder l = some k.cur) : (lockRelease k l).isSome := by
  rw [lockRelease, if_pos hl]
  exact semaUp_isSome (h.quiet quiet_release)

theorem threadCreate_isSome {p : Int} : (threadCreate k p).isSome := by
  rw [threadCreate, Option.isSome_map]
  refine threadUnblock_isSome ?_
  show ((k.modify k.next fun _ => initThread p).threads k.next).status = .blocked
  rw [modify_threads, if_pos rfl]
  rfl

/-- A sleeper is still blocked when its turn comes: the turns before it unblock
others. -/
theorem wakeUp_isSome {now : Int} (h : Placed k) (hq : Queues k parked asleep dead) : (wakeUp now k asleep).isSome := by
  induction asleep generalizing k with
  | nil => rfl
  | cons e es ih =>
    simp only [wakeUp]
    split
    · have hr := hq.asleepRest e (by simp)
      obtain ⟨k₁, hu⟩ := Option.isSome_iff_exists.mp (threadUnblock_isSome hr.status)
      rw [hu, Option.bind_some]
      obtain ⟨h', hq'⟩ := wakeUp_turn h hq hu
      exact ih h' hq'
    · rfl

/-! ## The life cycle -/

/-- The lists `thread.elem` is used for. -/
inductive ElemList where
  | ready
  | waiters (sm : Sema)
  | destruction
  deriving DecidableEq

def Life.elems (s : Life) : ElemList → List Nat
  | .ready => s.kern.readyList
  | .waiters sm => s.kern.waiters sm
  | .destruction => s.destructionReq

/-- The part calls `thread_unblock`, and no other `ASSERT` stops it before. -/
def Micro.unblocks (s : Life) : Micro → Prop
  | .up _ | .create _ => True
  | .release l => s.kern.holder l = some s.kern.cur
  | _ => False

structure LifeCycle (s : Life) : Prop where
  running : ∃! t, t < s.kern.next ∧ (s.kern.threads t).status = .running
  /-- The ready list is the ready threads other than the idle one, each once. -/
  ready : ∀ t, t ∈ s.kern.readyList ↔ t < s.kern.next ∧ (s.kern.threads t).status = .ready ∧ t ≠ s.kern.idleThread
  readyNodup : s.kern.readyList.Nodup
  blocked : ∀ t < s.kern.next, (s.kern.threads t).status = .blocked → t ∉ s.kern.readyList ∧
    ∀ sm sm', t ∈ s.kern.waiters sm → t ∈ s.kern.waiters sm' → sm = sm'
  destruction : ∀ t ∈ s.destructionReq, (s.kern.threads t).status = .dying
  /-- `elem` is in one list at most, and there once. -/
  elem : ∀ t a b, t ∈ s.elems a → t ∈ s.elems b → a = b
  elemNodup : ∀ a, (s.elems a).Nodup
  /-- `thread_unblock` meets its `ASSERT`: in the parts of the calls, in a
  handler's `sema_up`, in `wake_up`, and for every parked thread. -/
  parts : ∀ m ms, Micro.unblocks s m → (m.exec (s.kern.setTodo s.kern.cur ms)).isSome
  handlers : ∀ n, (semaUp s.kern (.sema n)).isSome
  sleepers : ∀ now, (wakeUp now s.kern s.blockThreadList).isSome
  parked : ∀ t ∈ s.parked, (threadUnblock s.kern t).isSome

/-- The status of a thread in a list says which list it is in. -/
theorem Life.Ok.elem_unique (h : s.Ok) (a b : ElemList) (ha : t ∈ s.elems a) (hb : t ∈ s.elems b) : a = b := by
  have ready (hc : t ∈ s.kern.readyList) : (s.kern.threads t).status = .ready := (h.placed.ready t hc).1
  have waits {sm} (hc : t ∈ s.kern.waiters sm) : (s.kern.threads t).status = .blocked := (h.placed.waiter sm t hc).1
  have dying (hc : t ∈ s.destructionReq) : (s.kern.threads t).status = .dying := (h.queues.deadRest t hc).status
  cases a with
  | ready =>
    cases b with
    | ready => rfl
    | waiters sm => exact absurd ((ready ha).symm.trans (waits hb)) (by simp)
    | destruction => exact absurd ((ready ha).symm.trans (dying hb)) (by simp)
  | waiters sm =>
    cases b with
    | ready => exact absurd ((ready hb).symm.trans (waits ha)) (by simp)
    | waiters sm' =>
      have h₁ := (h.placed.waiter sm t ha).2.2.2
      have h₂ := (h.placed.waiter sm' t hb).2.2.2
      simpa using h₁.symm.trans h₂
    | destruction => exact absurd ((waits ha).symm.trans (dying hb)) (by simp)
  | destruction =>
    cases b with
    | ready => exact absurd ((ready hb).symm.trans (dying ha)) (by simp)
    | waiters sm => exact absurd ((waits hb).symm.trans (dying ha)) (by simp)
    | destruction => rfl

theorem Life.Ok.parts (h : s.Ok) {m : Micro} (ms : List Micro) (hm : Micro.unblocks s m) :
    (m.exec (s.kern.setTodo s.kern.cur ms)).isSome := by
  have hs := h.placed.toSane.setTodo ms
  cases m with
  | up n =>
    rw [Micro.exec, Option.isSome_map]
    exact semaUp_isSome hs.toLists
  | create p => exact threadCreate_isSome
  | release l =>
    rw [Micro.exec, Option.isSome_map]
    exact lockRelease_isSome hs.toLists hm
  | _ => exact hm.elim

theorem Life.Ok.lifeCycle (h : s.Ok) : LifeCycle s where
  running := ⟨s.kern.cur, ⟨h.placed.curLt, h.placed.running⟩, fun t ht => h.placed.only t ht.1 ht.2⟩
  ready t := by
    refine ⟨fun hr => ?_, fun ⟨ht, hs, hi⟩ => h.placed.queued t ht hs hi⟩
    obtain ⟨hs, hi, ht⟩ := h.placed.ready t hr
    exact ⟨ht, hs, hi⟩
  readyNodup := h.placed.readyNodup
  blocked t _ hb := by
    refine ⟨h.placed.toLists.blocked_not_ready hb, fun sm sm' h₁ h₂ => ?_⟩
    simpa using h.elem_unique (.waiters sm) (.waiters sm') h₁ h₂
  destruction t ht := (h.queues.deadRest t ht).status
  elem _ a b := h.elem_unique a b
  elemNodup a := by
    cases a with
    | ready => exact h.placed.readyNodup
    | waiters sm => exact h.placed.waitersNodup sm
    | destruction => exact h.queues.deadNodup
  parts _ ms := h.parts ms
  handlers _ := semaUp_isSome h.placed.toLists
  sleepers _ := wakeUp_isSome h.placed h.queues
  parked t ht := threadUnblock_isSome (h.queues.parkedRest t ht).status

/-- In every state a run leads to from `thread_start`, the life-cycle
invariant holds. -/
theorem lifeCycle_of_run (value : Nat → Nat) (es : List LifeEvent)
    (hr : Run.run Life.step (Life.boot value) es = some s) : LifeCycle s :=
  (Life.run_ok hr).lifeCycle

end PintosKaist.Threads
