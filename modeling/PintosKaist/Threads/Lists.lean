/-
The ready list and the waiter lists: in every reachable state a thread is
running, in the ready list, or on at most one semaphore, according to its
status.

Most of what a part does is quiet: it changes priorities, donation records,
holders and semaphore values, and reorders waiters. `Quiet` says so once; what
is left are the moves between lists (`thread_unblock`, `thread_yield`,
`thread_block`, a blocked `sema_down`, `thread_create`, `schedule`).
-/
import PintosKaist.Threads.Kernel

namespace PintosKaist.Threads

open OrdList

variable {k k' k₁ k₂ : Kernel} {t u w : Nat} {s : Sema} {f : Thread → Thread} {o : Out}

@[simp] theorem modify_threads :
    (k.modify t f).threads u = if u = t then f (k.threads t) else k.threads u := by
  simp only [Kernel.modify, Function.update_apply]

theorem modify_prio (h : (f (k.threads t)).priority = (k.threads t).priority) : (k.modify t f).prio = k.prio := by
  funext u
  simp only [Kernel.prio, modify_threads]
  split <;> simp_all

theorem setStatus_prio {st : Status} : (k.setStatus t st).prio = k.prio := modify_prio rfl

theorem setTodo_prio {ms : List Micro} : (k.setTodo t ms).prio = k.prio := modify_prio rfl

@[simp] theorem setStatus_threads {st : Status} :
    (k.setStatus t st).threads u = if u = t then { k.threads t with status := st } else k.threads u :=
  modify_threads

@[simp] theorem setTodo_threads {ms : List Micro} :
    (k.setTodo t ms).threads u = if u = t then { k.threads t with todo := ms } else k.threads u :=
  modify_threads

@[simp] theorem setSema_semas {v : Semaphore} {s' : Sema} :
    (k.setSema s v).semas s' = if s' = s then v else k.semas s' := by
  simp only [Kernel.setSema, Function.update_apply]

@[simp] theorem setHolder_holder {l l' : Nat} {h : Option Nat} :
    (k.setHolder l h).holder l' = if l' = l then h else k.holder l' := by
  simp only [Kernel.setHolder, Function.update_apply]

@[simp] theorem setReady_threads {r : List Nat} : (k.setReady r).threads = k.threads := rfl

/-! ## Quiet changes -/

/-- `k'` is `k` but for priorities, records, pending locks, holders, values
and the order of waiters. -/
structure Quiet (k k' : Kernel) : Prop where
  status : ∀ t, (k'.threads t).status = (k.threads t).status
  todo : ∀ t, (k'.threads t).todo = (k.threads t).todo
  waiters : ∀ s, (k'.waiters s).Perm (k.waiters s)
  readyList : k'.readyList = k.readyList
  cur : k'.cur = k.cur
  idleThread : k'.idleThread = k.idleThread
  next : k'.next = k.next

theorem Quiet.refl (k : Kernel) : Quiet k k :=
  ⟨fun _ => rfl, fun _ => rfl, fun _ => .refl _, rfl, rfl, rfl, rfl⟩

theorem Quiet.trans (h : Quiet k k') (h' : Quiet k' k₁) : Quiet k k₁ where
  status t := (h'.status t).trans (h.status t)
  todo t := (h'.todo t).trans (h.todo t)
  waiters s := (h'.waiters s).trans (h.waiters s)
  readyList := h'.readyList.trans h.readyList
  cur := h'.cur.trans h.cur
  idleThread := h'.idleThread.trans h.idleThread
  next := h'.next.trans h.next

theorem quiet_modify (hs : (f (k.threads t)).status = (k.threads t).status)
    (ht : (f (k.threads t)).todo = (k.threads t).todo) : Quiet k (k.modify t f) where
  status u := by
    rw [modify_threads]
    split <;> simp_all
  todo u := by
    rw [modify_threads]
    split <;> simp_all
  waiters _ := .refl _
  readyList := rfl
  cur := rfl
  idleThread := rfl
  next := rfl

theorem quiet_setSema {v : Semaphore} (h : v.waiters.Perm (k.waiters s)) : Quiet k (k.setSema s v) where
  status _ := rfl
  todo _ := rfl
  waiters s' := by
    simp only [Kernel.waiters, setSema_semas]
    split
    · rename_i he
      exact he ▸ h
    · exact .refl _
  readyList := rfl
  cur := rfl
  idleThread := rfl
  next := rfl

theorem quiet_setHolder {l : Nat} {h : Option Nat} : Quiet k (k.setHolder l h) :=
  ⟨fun _ => rfl, fun _ => rfl, fun _ => .refl _, rfl, rfl, rfl, rfl⟩

theorem quiet_donate {pending h : Nat} : Quiet k (donate k pending h) := by
  simp only [donate]
  split
  · exact quiet_modify rfl rfl
  · exact (quiet_modify rfl rfl).trans (quiet_setSema perm_sortBy)

theorem quiet_walk {fuel : Nat} {pending : Option Nat} (h : walk fuel k pending = some k') : Quiet k k' := by
  induction fuel generalizing k pending with
  | zero =>
    cases pending with
    | none =>
      simp only [walk, Option.some.injEq] at h
      exact h ▸ Quiet.refl k
    | some l => simp [walk] at h
  | succ fuel ih =>
    cases pending with
    | none =>
      simp only [walk, Option.some.injEq] at h
      exact h ▸ Quiet.refl k
    | some l =>
      simp only [walk] at h
      split at h
      · exact Option.some.inj h ▸ Quiet.refl k
      · split at h
        · exact Option.some.inj h ▸ Quiet.refl k
        · exact quiet_donate.trans (ih h)

theorem quiet_setPriority {p : Int} : Quiet k (threadSetPriority k p) := quiet_modify rfl rfl

theorem quiet_recalc : Quiet k (recalcPriority k) := by
  refine quiet_modify ?_ ?_ <;> split <;> rfl

/-- What `lock_release` does before `sema_up`. -/
theorem quiet_release {l : Nat} :
    Quiet k ((recalcPriority (removeDonationForLock k l)).setHolder l none) :=
  ((quiet_modify rfl rfl).trans quiet_recalc).trans quiet_setHolder

/-! ## The invariant -/

/-- The lists agree with the statuses, the running thread aside. -/
structure Lists (k : Kernel) : Prop where
  ready : ∀ t ∈ k.readyList, (k.threads t).status = .ready ∧ t ≠ k.idleThread ∧ t < k.next
  readyNodup : k.readyList.Nodup
  waiter : ∀ s, ∀ w ∈ k.waiters s, (k.threads w).status = .blocked ∧ w ≠ k.idleThread ∧ w < k.next ∧
    (k.threads w).todo.head? = some (.down s)
  waitersNodup : ∀ s, (k.waiters s).Nodup
  curLt : k.cur < k.next
  idleLt : k.idleThread < k.next

/-- The lists agree with the statuses, and the current thread runs. -/
structure Sane (k : Kernel) : Prop extends Lists k where
  running : (k.threads k.cur).status = .running

theorem Sane.cur_not_ready (h : Sane k) : k.cur ∉ k.readyList := by
  intro hc
  have := (h.ready _ hc).1
  rw [h.running] at this
  cases this

theorem Sane.cur_not_waiting (h : Sane k) (s : Sema) : k.cur ∉ k.waiters s := by
  intro hc
  have := (h.waiter s _ hc).1
  rw [h.running] at this
  cases this

theorem Lists.ready_not_waiting (h : Lists k) (ht : t ∈ k.readyList) (s : Sema) : t ∉ k.waiters s := by
  intro hc
  have := (h.waiter s _ hc).1
  rw [(h.ready t ht).1] at this
  cases this

theorem Lists.blocked_not_ready (h : Lists k) (ht : (k.threads t).status = .blocked) :
    t ∉ k.readyList := by
  intro hc
  have := (h.ready t hc).1
  rw [ht] at this
  cases this

theorem Lists.quiet (h : Lists k) (q : Quiet k k') : Lists k' where
  ready t ht := by
    rw [q.status, q.idleThread, q.next]
    exact h.ready t (q.readyList ▸ ht)
  readyNodup := by
    rw [q.readyList]
    exact h.readyNodup
  waiter s w hw := by
    rw [q.status, q.idleThread, q.next, q.todo]
    exact h.waiter s w ((q.waiters s).mem_iff.mp hw)
  waitersNodup s := (q.waiters s).nodup_iff.mpr (h.waitersNodup s)
  curLt := by
    rw [q.cur, q.next]
    exact h.curLt
  idleLt := by
    rw [q.idleThread, q.next]
    exact h.idleLt

theorem Sane.quiet (h : Sane k) (q : Quiet k k') : Sane k' :=
  ⟨h.toLists.quiet q, by rw [q.cur, q.status]; exact h.running⟩

/-- A change to a thread that is in no list. -/
theorem Lists.modify (h : Lists k) (hr : t ∉ k.readyList) (hw : ∀ s, t ∉ k.waiters s) :
    Lists (k.modify t f) where
  ready u hu := by
    have hne : u ≠ t := fun he => hr (he ▸ hu)
    rw [modify_threads, if_neg hne]
    exact h.ready u hu
  readyNodup := h.readyNodup
  waiter s w hws := by
    have hne : w ≠ t := fun he => hw s (he ▸ hws)
    rw [modify_threads, if_neg hne]
    exact h.waiter s w hws
  waitersNodup := h.waitersNodup
  curLt := h.curLt
  idleLt := h.idleLt

theorem Sane.setTodo (h : Sane k) (ms : List Micro) : Sane (k.setTodo k.cur ms) :=
  ⟨h.toLists.modify h.cur_not_ready h.cur_not_waiting, by
    show ((k.setTodo k.cur ms).threads k.cur).status = .running
    rw [setTodo_threads, if_pos rfl]
    exact h.running⟩

/-! ## The moves between lists -/

theorem Sane.setStatus {st : Status} (h : Sane k) : Lists (k.setStatus k.cur st) :=
  h.toLists.modify h.cur_not_ready h.cur_not_waiting

/-- A thread in no list, ready, goes into the ready list. -/
theorem Lists.enqueue {p : Nat → Int} (h : Lists k) (hw : ∀ s, t ∉ k.waiters s) (hr : t ∉ k.readyList)
    (hi : t ≠ k.idleThread) (hlt : t < k.next) :
    Lists ((k.setStatus t .ready).setReady (insertBy p t k.readyList)) where
  ready u hu := by
    rw [setReady_threads, setStatus_threads]
    rcases mem_insertBy.mp hu with rfl | hu
    · rw [if_pos rfl]
      exact ⟨rfl, hi, hlt⟩
    · have hne : u ≠ t := fun he => hr (he ▸ hu)
      rw [if_neg hne]
      exact h.ready u hu
  readyNodup := nodup_insertBy h.readyNodup hr
  waiter s w hws := by
    have hne : w ≠ t := fun he => hw s (he ▸ hws)
    rw [setReady_threads, setStatus_threads, if_neg hne]
    exact h.waiter s w hws
  waitersNodup := h.waitersNodup
  curLt := h.curLt
  idleLt := h.idleLt

theorem lists_threadYield (h : Sane k) : Lists (threadYield k) := by
  simp only [threadYield]
  split
  · rename_i hi
    exact h.toLists.enqueue h.cur_not_waiting h.cur_not_ready hi h.curLt
  · exact h.setStatus

theorem threadUnblock_eq_some : threadUnblock k t = some k' ↔ (k.threads t).status = .blocked ∧
    (k.setStatus t .ready).setReady (insertBy k.prio t k.readyList) = k' := by
  simp only [threadUnblock, Option.ite_none_right_eq_some, Option.some.injEq]

/-- `thread_unblock` of a thread that is on no semaphore. -/
theorem sane_threadUnblock (h : Sane k) (hw : ∀ s, t ∉ k.waiters s) (hi : t ≠ k.idleThread)
    (hlt : t < k.next) (hk : threadUnblock k t = some k') : Sane k' := by
  obtain ⟨hb, rfl⟩ := threadUnblock_eq_some.mp hk
  have hne : k.cur ≠ t := by
    rintro rfl
    rw [h.running] at hb
    cases hb
  refine ⟨h.toLists.enqueue hw (h.toLists.blocked_not_ready hb) hi hlt, ?_⟩
  show ((k.setStatus t .ready).threads k.cur).status = .running
  rw [setStatus_threads, if_neg hne]
  exact h.running

/-- A thread in no list is switched to. -/
theorem Lists.switchTo (h : Lists k) (hr : t ∉ k.readyList) (hw : ∀ s, t ∉ k.waiters s) (hlt : t < k.next) :
    Sane (k.switchTo t) := by
  have hl := h.modify (f := fun th => { th with status := .running }) hr hw
  refine ⟨⟨hl.ready, hl.readyNodup, hl.waiter, hl.waitersNodup, hlt, h.idleLt⟩, ?_⟩
  show ((k.setStatus t .running).threads t).status = .running
  rw [setStatus_threads, if_pos rfl]

/-- The ready list, with elements dropped or put in another order. -/
theorem Lists.setReady {r : List Nat} (h : Lists k) (hr : ∀ t ∈ r, t ∈ k.readyList) (hn : r.Nodup) :
    Lists (k.setReady r) :=
  ⟨fun t ht => h.ready t (hr t ht), hn, h.waiter, h.waitersNodup, h.curLt, h.idleLt⟩

theorem lists_schedule (h : Lists k) : Sane (schedule k) := by
  simp only [schedule]
  split
  · rename_i hr
    exact h.switchTo (by simp [hr]) (fun s hc => (h.waiter s _ hc).2.1 rfl) h.idleLt
  · rename_i t rest hr
    obtain ⟨hnot, hnd⟩ := List.nodup_cons.mp (hr ▸ h.readyNodup)
    have ht : t ∈ k.readyList := by simp [hr]
    have hl := h.setReady (r := rest) (fun u hu => by simp [hr, hu]) hnd
    exact hl.switchTo hnot (h.ready_not_waiting ht) (h.ready t ht).2.2

/-- How a part must leave the lists. -/
def Out.Ok : Out → Prop
  | .done k => Sane k
  | .sched k => Lists k

theorem Out.Ok.finish (h : o.Ok) : Sane o.finish := by
  cases o with
  | done k => exact h
  | sched k => exact lists_schedule h

theorem ok_compare (h : Sane k) : (compareCurNextPriority k).Ok := by
  simp only [compareCurNextPriority]
  split
  · exact h
  · rename_i t rest hs
    have hp : (t :: rest).Perm k.readyList := hs ▸ perm_sortBy
    have h' : Sane (k.setReady (t :: rest)) :=
      ⟨h.toLists.setReady (fun u hu => hp.mem_iff.mp hu) (hp.nodup_iff.mpr h.readyNodup), h.running⟩
    split
    · exact lists_threadYield h'
    · exact h'

/-- The state a blocked `sema_down` calls `schedule ()` in. -/
def blockOn (k : Kernel) (s : Sema) : Kernel :=
  threadBlock ((k.setSema s { k.semas s with waiters := insertBy k.prio k.cur (k.waiters s) }).setTodo k.cur
    (.down s :: (k.threads k.cur).todo))

theorem blockOn_threads : (blockOn k s).threads t =
    if t = k.cur then { k.threads k.cur with status := .blocked, todo := .down s :: (k.threads k.cur).todo }
    else k.threads t := by
  simp only [blockOn, threadBlock, Kernel.setStatus, Kernel.setTodo, Kernel.modify, Kernel.setSema,
    Function.update_apply, if_true]
  split <;> rfl

theorem blockOn_waiters {s' : Sema} : (blockOn k s).waiters s' =
    if s' = s then insertBy k.prio k.cur (k.waiters s) else k.waiters s' := by
  show ((k.setSema s _).semas s').waiters = _
  rw [setSema_semas]
  split <;> rfl

theorem lists_blockOn (h : Sane k) (hi : k.cur ≠ k.idleThread) : Lists (blockOn k s) where
  ready t ht := by
    have hne : t ≠ k.cur := fun he => h.cur_not_ready (he ▸ ht)
    rw [blockOn_threads, if_neg hne]
    exact h.ready t ht
  readyNodup := h.readyNodup
  waiter s' w hw := by
    rw [blockOn_waiters] at hw
    by_cases hne : w = k.cur
    · -- the current thread, which was on no semaphore before
      subst hne
      have hs : s' = s := by
        by_contra hns
        rw [if_neg hns] at hw
        exact h.cur_not_waiting s' hw
      subst hs
      rw [blockOn_threads, if_pos rfl]
      exact ⟨rfl, hi, h.curLt, rfl⟩
    · rw [blockOn_threads, if_neg hne]
      split at hw
      · rename_i he
        exact h.waiter s' w (he ▸ (mem_insertBy.mp hw).resolve_left hne)
      · exact h.waiter s' w hw
  waitersNodup s' := by
    rw [blockOn_waiters]
    split
    · exact nodup_insertBy (h.waitersNodup s) (h.cur_not_waiting s)
    · exact h.waitersNodup s'
  curLt := h.curLt
  idleLt := h.idleLt

/-- The state after a `sema_down` that found the semaphore up. -/
def take (k : Kernel) (s : Sema) : Kernel :=
  let k₁ := k.setSema s { k.semas s with value := (k.semas s).value - 1 }
  match s with
  | .sema _ => k₁
  | .lock l => (k₁.modify k.cur fun th => { th with pendingLock := none }).setHolder l (some k.cur)

theorem semaDown_eq : semaDown k s = if (k.semas s).value = 0 then .sched (blockOn k s) else .done (take k s) := by
  simp only [semaDown]
  split
  · rfl
  · cases s <;> rfl

theorem quiet_take : Quiet k (take k s) := by
  have hq : Quiet k (k.setSema s { k.semas s with value := (k.semas s).value - 1 }) := quiet_setSema (.refl _)
  cases s with
  | sema n => exact hq
  | lock l => exact (hq.trans (quiet_modify rfl rfl)).trans quiet_setHolder

theorem ok_semaDown (h : Sane k) (hi : k.cur ≠ k.idleThread) : (semaDown k s).Ok := by
  rw [semaDown_eq]
  split
  · exact lists_blockOn h hi
  · exact h.quiet quiet_take

/-- What `sema_up` does: the value goes up, and the waiter with the greatest
priority, if there is one, is unblocked. -/
theorem semaUp_cases (hk : semaUp k s = some k') :
    (k.waiters s = [] ∧ k.setSema s { k.semas s with value := (k.semas s).value + 1 } = k') ∨
    ∃ w ws, sortBy k.prio (k.waiters s) = w :: ws ∧
      threadUnblock (k.setSema s ⟨(k.semas s).value + 1, ws⟩) w = some k' := by
  simp only [semaUp] at hk
  split at hk
  · rename_i hs
    have hp : ((k.semas s).waiters).Perm (sortBy k.prio (k.semas s).waiters) := perm_sortBy.symm
    rw [hs] at hp
    exact .inl ⟨hp.eq_nil, Option.some.inj hk⟩
  · rename_i w ws hs
    exact .inr ⟨w, ws, hs, hk⟩

/-- The waiters of a semaphore, less the one that is taken out: the others are
as they were, and it is nowhere any more. -/
theorem Lists.mem_waiters_rest {ws : List Nat} {v : Nat} (h : Lists k) (hp : (w :: ws).Perm (k.waiters s))
    {s' : Sema} (hu : u ∈ (k.setSema s ⟨v, ws⟩).waiters s') : u ∈ k.waiters s' ∧ u ≠ w := by
  obtain ⟨hnot, -⟩ := List.nodup_cons.mp (hp.nodup_iff.mpr (h.waitersNodup s))
  simp only [Kernel.waiters, setSema_semas] at hu
  split at hu
  · rename_i he
    subst he
    exact ⟨hp.mem_iff.mp (List.mem_cons_of_mem _ hu), fun he => hnot (he ▸ hu)⟩
  · -- a thread waits on one semaphore, by the part it has to go on with
    rename_i hne
    refine ⟨hu, fun he => hne ?_⟩
    have hw := (h.waiter s w (hp.mem_iff.mp (by simp))).2.2.2
    have hw' := (h.waiter s' u hu).2.2.2
    rw [he, hw] at hw'
    simpa using hw'.symm

theorem sane_semaUp (h : Sane k) (hk : semaUp k s = some k') : Sane k' := by
  obtain ⟨-, rfl⟩ | ⟨w, ws, hs, hk⟩ := semaUp_cases hk
  · exact h.quiet (quiet_setSema (.refl _))
  · have hp : (w :: ws).Perm (k.waiters s) := hs ▸ perm_sortBy
    have hw := h.waiter s w (hp.mem_iff.mp (by simp))
    have hsub {s' u} (hu : u ∈ (k.setSema s ⟨(k.semas s).value + 1, ws⟩).waiters s') : u ∈ k.waiters s' ∧ u ≠ w :=
      h.toLists.mem_waiters_rest hp hu
    have h' : Sane (k.setSema s ⟨(k.semas s).value + 1, ws⟩) := by
      refine ⟨⟨h.ready, h.readyNodup, fun s' u hu => h.waiter s' u (hsub hu).1, fun s' => ?_, h.curLt,
        h.idleLt⟩, h.running⟩
      simp only [Kernel.waiters, setSema_semas]
      split
      · exact (List.nodup_cons.mp (hp.nodup_iff.mpr (h.waitersNodup s))).2
      · exact h.waitersNodup s'
    exact sane_threadUnblock h' (fun s' hc => (hsub hc).2 rfl) hw.2.1 hw.2.2.1 hk

theorem ok_lockAcquire {l : Nat} (h : Sane k) (hi : k.cur ≠ k.idleThread)
    (ho : lockAcquire k l = some o) : o.Ok := by
  simp only [lockAcquire] at ho
  split at ho
  · cases ho
  · split at ho
    · cases ho
      exact ok_semaDown h hi
    · rw [Option.map_eq_some_iff] at ho
      obtain ⟨k₂, hw, rfl⟩ := ho
      have hq : Quiet k k₂ := (quiet_modify rfl rfl).trans (quiet_walk hw)
      exact ok_semaDown (h.quiet hq) (by rw [hq.cur, hq.idleThread]; exact hi)

theorem sane_lockRelease {l : Nat} (h : Sane k) (hk : lockRelease k l = some k') : Sane k' := by
  simp only [lockRelease, Option.ite_none_right_eq_some] at hk
  exact sane_semaUp (h.quiet quiet_release) hk.2

theorem sane_alloc {p : Int} (h : Sane k) : Sane (k.alloc p) := by
  have hl := h.toLists.modify (t := k.next) (f := fun _ => initThread p)
    (fun hc => absurd (h.ready _ hc).2.2 (by omega)) fun s hc => absurd (h.waiter s _ hc).2.2.1 (by omega)
  have hcur : k.cur ≠ k.next := Nat.ne_of_lt h.curLt
  refine ⟨⟨fun t ht => ?_, hl.readyNodup, fun s w hw => ?_, hl.waitersNodup, ?_, ?_⟩, ?_⟩
  · obtain ⟨h₁, h₂, h₃⟩ := hl.ready t ht
    exact ⟨h₁, h₂, Nat.lt_succ_of_lt h₃⟩
  · obtain ⟨h₁, h₂, h₃, h₄⟩ := hl.waiter s w hw
    exact ⟨h₁, h₂, Nat.lt_succ_of_lt h₃, h₄⟩
  · exact Nat.lt_succ_of_lt h.curLt
  · exact Nat.lt_succ_of_lt h.idleLt
  · show ((k.modify k.next fun _ => initThread p).threads k.cur).status = .running
    rw [modify_threads, if_neg hcur]
    exact h.running

theorem sane_created {p : Int} (h : Sane k) (hk : threadUnblock (k.alloc p) k.next = some k') : Sane k' := by
  refine sane_threadUnblock (sane_alloc h) (fun s hc => ?_) ?_ (Nat.lt_succ_self _) hk
  · exact absurd (h.waiter s _ hc).2.2.1 (by omega)
  · exact (Nat.ne_of_lt h.idleLt).symm

theorem ok_threadCreate {p : Int} (h : Sane k) (ho : threadCreate k p = some o) : o.Ok := by
  simp only [threadCreate, Option.map_eq_some_iff] at ho
  obtain ⟨k₂, hk, ho⟩ := ho
  have h' := sane_created h hk
  split at ho <;> subst ho
  · exact lists_threadYield h'
  · exact h'

theorem ok_exec {m : Micro} {ms : List Micro} (h : Sane k) (hm : m.allowed k = true)
    (ho : m.exec (k.setTodo k.cur ms) = some o) : o.Ok := by
  have h' := h.setTodo ms
  cases m with
  | acquire l =>
    have hi : k.cur ≠ k.idleThread := by simpa [Micro.allowed] using hm
    exact ok_lockAcquire h' hi ho
  | down s =>
    cases ho
    have hi : k.cur ≠ k.idleThread := by simpa [Micro.allowed] using hm
    exact ok_semaDown h' hi
  | release l =>
    simp only [Micro.exec, Option.map_eq_some_iff] at ho
    obtain ⟨k₂, hk, rfl⟩ := ho
    exact sane_lockRelease h' hk
  | up n =>
    simp only [Micro.exec, Option.map_eq_some_iff] at ho
    obtain ⟨k₂, hk, rfl⟩ := ho
    exact sane_semaUp h' hk
  | compare =>
    cases ho
    exact ok_compare h'
  | yield =>
    cases ho
    exact lists_threadYield h'
  | block =>
    cases ho
    exact h'.setStatus
  | unblock t =>
    simp only [Micro.exec, Option.map_eq_some_iff] at ho
    obtain ⟨k₂, hk, rfl⟩ := ho
    simp only [Micro.allowed, ne_eq, decide_not, Bool.and_eq_true, Bool.not_eq_true', decide_eq_false_iff_not,
      decide_eq_true_eq] at hm
    refine sane_threadUnblock h' (fun s hc => ?_) hm.1.1 hm.1.2 hk
    obtain ⟨ms', hd⟩ := List.head?_eq_some_iff.mp (h.waiter s t hc).2.2.2
    simp [Thread.onSema, hd] at hm
  | setPriority p =>
    cases ho
    exact h'.quiet quiet_setPriority
  | init p =>
    simp only [Micro.exec, Option.ite_none_right_eq_some, Option.some.injEq] at ho
    exact ho.2 ▸ h'
  | create p => exact ok_threadCreate h' ho

/-- What a part that runs is: the head of the current thread's `todo`. -/
theorem partOut_eq_some : partOut k = some o ↔ ∃ m ms, (k.threads k.cur).todo = m :: ms ∧
    m.allowed k = true ∧ m.exec (k.setTodo k.cur ms) = some o := by
  simp only [partOut]
  split
  · simp_all
  · simp_all [Option.ite_none_right_eq_some]

theorem step_sane {e : Event} (h : Sane k) (hs : step k e = some k') : Sane k' := by
  cases e with
  | call c =>
    simp only [step, Option.ite_none_right_eq_some, Option.some.injEq] at hs
    exact hs.2 ▸ h.setTodo c.body
  | part =>
    simp only [step, Option.map_eq_some_iff] at hs
    obtain ⟨o, ho, rfl⟩ := hs
    obtain ⟨m, ms, -, hm, he⟩ := partOut_eq_some.mp ho
    exact (ok_exec h hm he).finish

theorem boot_sane (value : Nat → Nat) : Sane (boot value) where
  ready t ht := by simp [boot] at ht
  readyNodup := List.nodup_nil
  waiter s w hw := by cases s <;> simp [boot, Kernel.waiters] at hw
  waitersNodup s := by cases s <;> simp [boot, Kernel.waiters]
  curLt := by simp [boot]
  idleLt := by simp [boot]
  running := rfl

end PintosKaist.Threads
