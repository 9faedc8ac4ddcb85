/-
The multi-level feedback queue scheduler (`thread_mlfqs` true): the priorities
`update_priority` computes, over the locks and semaphores of `Threads.Kernel`.

`thread_set_priority` does nothing here, but `lock_acquire` donates and
`lock_release` sets the priority back to `original_priority`, as without the
scheduler; and the locks inside `malloc` and `palloc_get_page` do so behind the
back of `lock_acquire` and `thread_create`. So a priority is the formula's as
long as these happen to leave it alone.
-/
import PintosKaist.Lib.CInt
import PintosKaist.Threads.LifeRuns
import PintosKaist.Threads.ReadyOrder

namespace PintosKaist.Threads

open CInt OrdList

/-! ## `fixed-point.c` -/

/-- `F`. -/
def fpOne : Int := 2 ^ 14

def intToFp (n : Int) : Int := wrap (n * fpOne)

def fpToIntRound (x : Int) : Int :=
  if 0 ≤ x then (wrap (x + fpOne.tdiv 2)).tdiv fpOne else (wrap (x - fpOne.tdiv 2)).tdiv fpOne

def addFp (x y : Int) : Int := wrap (x + y)
def addFpInt (x n : Int) : Int := wrap (x + wrap (n * fpOne))
def mulFp (x y : Int) : Int := wrap ((x * y).tdiv fpOne)
def mulFpInt (x n : Int) : Int := wrap (x * n)
def divFp (x y : Int) : Int := wrap ((x * fpOne).tdiv y)
def divFpInt (x n : Int) : Int := x.tdiv n

/-! ## The scheduler -/

/-- `TIMER_FREQ`. -/
def timerFreq : Nat := 100

/-- The lock of the `malloc` descriptor that donations come from. -/
def mallocLock : Nat := 1

/-- The lock of `kernel_pool`. -/
def poolLock : Nat := 2

/-- What is left of a call, part by part. -/
inductive Job where
  /-- `lock_acquire` up to its `while`. -/
  | acquire (l : Nat)
  /-- A turn of the `while` up to `create_donation`. -/
  | walk (pending : Nat)
  /-- `malloc` behind its `lock_acquire`. -/
  | takeBlock
  /-- The rest of the turn: `create_donation` puts `saved` back in `pending_lock`. -/
  | donate (pending holder : Nat) (saved : Option Nat)
  | down (sm : Sema)
  /-- `lock_release` and `sema_up` up to `compare_cur_next_priority`. -/
  | release (l : Nat)
  | up (n : Nat)
  | compare
  | yield
  /-- `thread_create` from `init_thread` up to `allocate_tid`. -/
  | init (p : Int)
  /-- `thread_create` after `allocate_tid`. -/
  | created (t : Nat)
  deriving DecidableEq

structure Mlfqs where
  kern : Kernel
  nice : Nat → Int
  recentCpu : Nat → Int
  loadAvg : Int
  ticks : Nat
  allList : List Nat
  /-- What is left of the thread's call, behind the `sema_down` it may wait in. -/
  later : Nat → List Job
  /-- `recent_cpu` and `nice` at the thread's last recalculation. -/
  lastCalc : Nat → Option (Int × Int)
  /-- The threads whose page `do_schedule` has freed. It is filled with 0xcc, and
  stays on `all_list`. -/
  freed : List Nat

/-- What `update_priority` computes. -/
def newPriority (recentCpu nice : Int) : Int :=
  let p := wrap (wrap (priMax - fpToIntRound (divFpInt recentCpu 4)) - wrap (nice * 2))
  let p₁ := if p > priMax then priMax else p
  if p₁ < priMin then priMin else p₁

/-- `update_priority`. -/
def updatePriority (s : Mlfqs) (k : Kernel) (t : Nat) : Kernel :=
  if t = k.idleThread then k
  else k.modify t fun th => { th with priority := newPriority (s.recentCpu t) (s.nice t) }

/-- `update_recent_cpu`. -/
def updateRecentCpu (s : Mlfqs) : Mlfqs :=
  { s with recentCpu := Function.update s.recentCpu s.kern.cur (addFpInt (s.recentCpu s.kern.cur) 1) }

/-- `update_load_avg`. -/
def updateLoadAvg (s : Mlfqs) : Mlfqs :=
  let readyThreads : Int := s.kern.readyList.length + if s.kern.cur ≠ s.kern.idleThread then 1 else 0
  let term₁ := divFpInt (mulFpInt s.loadAvg 59) 60
  let term₂ := mulFpInt (divFpInt (intToFp 1) 60) readyThreads
  { s with loadAvg := addFp term₁ term₂ }

/-- The threads that the loops over `all_list` pass over. A freed page does not
say `THREAD_DYING`. -/
def Mlfqs.skips (s : Mlfqs) (t : Nat) : Prop :=
  (s.kern.threads t).status = .dying ∧ t ∉ s.freed ∨ t = s.kern.idleThread

instance {s : Mlfqs} {t : Nat} : Decidable (s.skips t) := inferInstanceAs (Decidable (_ ∨ _))

/-- `update_recent_cpu_all`. -/
def updateRecentCpuAll (s : Mlfqs) : Mlfqs :=
  let coeff := divFp (mulFpInt s.loadAvg 2) (addFpInt (mulFpInt s.loadAvg 2) 1)
  { s with recentCpu := s.allList.foldl (fun recent t =>
      if s.skips t then recent
      else Function.update recent t (addFp (mulFp coeff (recent t)) (intToFp (s.nice t)))) s.recentCpu }

/-- `update_all_priority`, in a handler: `compare_cur_next_priority` sorts, and
its yield is `preempt`. -/
def updateAllPriority (s : Mlfqs) : Mlfqs :=
  let k := s.allList.foldl (fun k t => if s.skips t then k else updatePriority s k t) s.kern
  { s with kern := k.sortReady }

/-- A recalculation of the threads in `p`, put on record. -/
def Mlfqs.record (s : Mlfqs) (p : Nat → Prop) [DecidablePred p] : Mlfqs :=
  { s with lastCalc := fun t => if p t then some (s.recentCpu t, s.nice t) else s.lastCalc t }

/-- A tick before its recalculation of the priorities. -/
def tickNumbers (s : Mlfqs) : Mlfqs :=
  let s₁ := updateRecentCpu { s with ticks := s.ticks + 1 }
  if s₁.ticks % timerFreq = 0 then updateRecentCpuAll (updateLoadAvg s₁) else s₁

/-- `timer_interrupt` and `mlfqs_on_tick`. Every fourth tick is a recalculation
of every thread but the idle one and those that are dying. -/
def mlfqsOnTick (s : Mlfqs) : Mlfqs :=
  let s₁ := tickNumbers s
  if s₁.ticks % 4 = 0 then
    let s₂ := (updateAllPriority s₁).record fun t => t < s.kern.next ∧ ¬ s.skips t
    { s₂ with kern := s₂.kern.sortReady }
  else s₁

/-- `init_thread` and `update_priority` in `thread_create`. -/
def Mlfqs.create (s : Mlfqs) (p : Int) : Mlfqs :=
  let t := s.kern.next
  let cur := s.kern.cur
  let s₁ := { s with
    nice := Function.update s.nice t (s.nice cur)
    recentCpu := Function.update s.recentCpu t (s.recentCpu cur)
    allList := s.allList ++ [t] }
  { s₁ with kern := updatePriority s₁ (s.kern.alloc p) t }.record (· = t)

/-- `thread_create` after `allocate_tid`. -/
def threadCreated (k : Kernel) (t : Nat) : Option Out :=
  (threadUnblock k t).map fun k₁ => if k₁.prio k₁.cur < k₁.prio t then .sched (threadYield k₁) else .done k₁

/-- `thread_set_nice`, up to `compare_cur_next_priority`. -/
def threadSetNice (s : Mlfqs) (nice : Int) : Mlfqs :=
  let cur := s.kern.cur
  let s₁ := { s with nice := Function.update s.nice cur nice }
  { s₁ with kern := updatePriority s₁ s.kern cur }.record (· = cur)

/-! ## The calls -/

/-- `lock_release`, whose `sema_up` compares priorities once already. -/
def releaseJobs (l : Nat) : List Job := [.release l, .compare, .compare]

/-- `palloc_get_page`. -/
def pallocGetPage : List Job := .acquire poolLock :: releaseJobs poolLock

/-- `thread_set_priority` returns at once; `thread_block` and `thread_unblock`
are for the locks and semaphores alone. -/
def Call.jobs : Call → Option (List Job)
  | .create p => some (pallocGetPage ++ [.init p])
  | .yield => some [.yield]
  | .semaDown n => some [.down (.sema n)]
  | .semaUp n => some [.up n, .compare]
  | .lockAcquire l => some [.acquire l]
  | .lockRelease l => some (releaseJobs l)
  | .setPriority _ => some []
  | .block | .unblock _ => none

/-- The current thread does `js` first. -/
def Mlfqs.push (s : Mlfqs) (js : List Job) : Mlfqs :=
  { s with later := Function.update s.later s.kern.cur (js ++ s.later s.kern.cur) }

/-- One part, run by the current thread. `empty` says whether `malloc` finds its
free list empty; a page is always found. -/
def Job.exec (empty : Bool) (s : Mlfqs) : Job → Option Mlfqs
  | .acquire l =>
    if s.kern.holder l = some s.kern.cur then none
    else
      match s.kern.holder l with
      | none => some (s.push [.down (.lock l)])
      | some _ =>
        let k := s.kern.modify s.kern.cur fun th => { th with pendingLock := some l }
        some ({ s with kern := k }.push [.walk l, .down (.lock l)])
  | .walk pending =>
    match s.kern.holder pending with
    | none => some s
    | some h =>
      if s.kern.prio s.kern.cur < s.kern.prio h then some s
      else
        let saved := (s.kern.threads s.kern.cur).pendingLock
        some (s.push [.acquire mallocLock, .takeBlock, .donate pending h saved])
  | .takeBlock => some (s.push ((if empty then pallocGetPage else []) ++ releaseJobs mallocLock))
  | .donate pending h saved =>
    let k := Threads.donate (s.kern.modify s.kern.cur fun th => { th with pendingLock := saved }) pending h
    some ({ s with kern := k }.push ((k.threads h).pendingLock.toList.map .walk))
  | .down sm => some { s with kern := (semaDown s.kern sm).finish }
  | .release l => (lockRelease s.kern l).map fun k => { s with kern := k }
  | .up n => (semaUp s.kern (.sema n)).map fun k => { s with kern := k }
  | .compare => some { s with kern := (compareCurNextPriority s.kern).finish }
  | .yield => some { s with kern := schedule (threadYield s.kern) }
  | .init p =>
    if priMin ≤ p ∧ p ≤ priMax then
      some ((s.create p).push (.acquire tidLock :: releaseJobs tidLock ++ [.created s.kern.next]))
    else none
  | .created t => (threadCreated s.kern t).map fun o => { s with kern := o.finish }

inductive MlfqsEvent where
  | tick
  /-- A handler returns through `thread_yield`. -/
  | preempt
  | call (c : Call)
  | setNice (nice : Int)
  /-- The next part of the current thread's call. -/
  | part (empty : Bool)
  deriving DecidableEq

/-- The running thread is in no call, and is not the idle one. -/
def Mlfqs.free (s : Mlfqs) : Bool :=
  (s.kern.threads s.kern.cur).todo = [] && s.later s.kern.cur = [] && s.kern.cur ≠ s.kern.idleThread

def Mlfqs.step (s : Mlfqs) : MlfqsEvent → Option Mlfqs
  | .tick => some (mlfqsOnTick s)
  | .preempt => some { s with kern := schedule (threadYield s.kern) }
  | .call c => if s.free then c.jobs.map s.push else none
  | .setNice nice => if s.free && (int32 nice).isSome then some ((threadSetNice s nice).push [.compare]) else none
  | .part empty =>
    match (s.kern.threads s.kern.cur).todo, s.later s.kern.cur with
    | .down sm :: ms, _ => some { s with kern := (semaDown (s.kern.setTodo s.kern.cur ms) sm).finish }
    | [], j :: js => j.exec empty { s with later := Function.update s.later s.kern.cur js }
    | _, _ => none

/-- After `thread_start`. The idle thread was created before `idle_thread` was
set, and has the priority `thread_create` gave it. -/
def Mlfqs.boot (value : Nat → Nat) : Mlfqs where
  kern := (Threads.boot value).modify 1 fun th => { th with priority := newPriority 0 0 }
  nice _ := 0
  recentCpu _ := 0
  loadAvg := 0
  ticks := 0
  allList := [0, 1]
  later _ := []
  lastCalc _ := none
  freed := []

/-! ## The formula -/

/-- `PRI_MAX - recent_cpu / 4 - 2 * nice`, between `PRI_MIN` and `PRI_MAX`. -/
def formula (recentCpu nice : Int) : Int :=
  max priMin (min priMax (priMax - fpToIntRound (divFpInt recentCpu 4) - 2 * nice))

/-- Every thread but the idle one has the priority that the formula gave at its
last recalculation. Only the initial thread can have had none yet. -/
def Mlfqs.Follows (s : Mlfqs) : Prop :=
  ∀ t < s.kern.next, t ≠ s.kern.idleThread →
    (s.lastCalc t = none → t = 0) ∧ ∀ r n, s.lastCalc t = some (r, n) → s.kern.prio t = formula r n

/-- The thread is at its original priority, and no donation for another lock
than `l` is above it. -/
def Thread.Settled (th : Thread) (l : Nat) : Prop :=
  th.originalPriority = th.priority ∧ ∀ d ∈ th.donations, d.lock ≠ l → d.priority ≤ th.priority

instance {th : Thread} {l : Nat} : Decidable (th.Settled l) := inferInstanceAs (Decidable (_ ∧ _))

/-- What the formula has between `PRI_MIN` and `PRI_MAX` is an `int`. -/
def Exact (recentCpu nice : Int) : Prop :=
  (int32 (priMax - fpToIntRound (divFpInt recentCpu 4) - 2 * nice)).isSome

instance {r n : Int} : Decidable (Exact r n) := inferInstanceAs (Decidable (_ = true))

/-- The part donates to no thread below the donor and releases no lock but of a
thread that is at its own priority, and what it computes is exact. -/
def Job.Regular (s : Mlfqs) : Job → Prop
  | .donate _ h _ => s.kern.prio s.kern.cur ≤ s.kern.prio h
  | .release l => (s.kern.threads s.kern.cur).Settled l
  | .init _ => Exact (s.recentCpu s.kern.cur) (s.nice s.kern.cur)
  | _ => True

instance {s : Mlfqs} {j : Job} : Decidable (j.Regular s) := by
  unfold Job.Regular
  split <;> infer_instance

def Regular (s : Mlfqs) : MlfqsEvent → Prop
  | .tick => (s.ticks + 1) % 4 = 0 → ∀ t < s.kern.next, ¬ s.skips t → Exact ((tickNumbers s).recentCpu t) (s.nice t)
  | .setNice nice => Exact (s.recentCpu s.kern.cur) nice
  | .part _ => (s.kern.threads s.kern.cur).todo = [] → ∀ j ∈ (s.later s.kern.cur).head?, j.Regular s
  | _ => True

instance {s : Mlfqs} {e : MlfqsEvent} : Decidable (Regular s e) := by
  unfold Regular
  split <;> infer_instance

variable {k k' : Kernel} {s s' : Mlfqs} {t l : Nat} {o : Out} {e : MlfqsEvent} {r n : Int}

theorem newPriority_eq (h : Exact r n) : newPriority r n = formula r n := by
  have hwrap : wrap (wrap (priMax - fpToIntRound (divFpInt r 4)) - wrap (n * 2)) =
      priMax - fpToIntRound (divFpInt r 4) - 2 * n := by
    rw [wrap_sub_wrap, Int.mul_comm n]
    exact wrap_of_int32 h
  simp only [newPriority, hwrap]
  simp only [formula, priMin, priMax]
  split_ifs <;> omega

/-! ## What the synchronization does to priorities -/

theorem recalc_prio {t : Thread} (hth : k.threads k.cur = t) :
    (recalcPriority (removeDonationForLock k l)).prio k.cur =
      match sortBy Donation.priority (t.donations.filter fun d => d.lock ≠ l) with
      | [] => t.originalPriority
      | d :: _ => if t.originalPriority < d.priority then d.priority else t.originalPriority := by
  have hself {f : Thread → Thread} : (k.modify k.cur f).threads k.cur = f (k.threads k.cur) := by
    rw [modify_threads, if_pos rfl]
  have hk : (removeDonationForLock k l).threads k.cur =
      { t with donations := t.donations.filter fun d => d.lock ≠ l } := by
    rw [removeDonationForLock, hself, hth]
  have hcur : (removeDonationForLock k l).cur = k.cur := rfl
  simp only [recalcPriority, Kernel.prio, modify_threads, hcur, if_true, hk]
  cases sortBy Donation.priority (t.donations.filter fun d => d.lock ≠ l) <;> rfl

/-- `recalc_priority` after `remove_donation_for_lock` leaves a settled priority
alone. -/
theorem recalc_prio_settled (h : (k.threads k.cur).Settled l) :
    (recalcPriority (removeDonationForLock k l)).prio k.cur = k.prio k.cur := by
  obtain ⟨he, hmax⟩ := h
  rw [recalc_prio rfl]
  cases hs : sortBy Donation.priority ((k.threads k.cur).donations.filter fun d => d.lock ≠ l) with
  | nil => exact he
  | cons d ds =>
    have hd : d ∈ sortBy Donation.priority ((k.threads k.cur).donations.filter fun d => d.lock ≠ l) :=
      hs ▸ List.mem_cons_self
    rw [mem_sortBy, List.mem_filter, decide_eq_true_eq] at hd
    have hle := hmax d hd.1 hd.2
    exact (if_neg (by omega)).trans he

/-- From `k` to `k'` nobody's priority changes, and no thread is made or dies. -/
structure PrioKept (k k' : Kernel) : Prop where
  prio : k'.prio = k.prio
  next : k'.next = k.next
  idleThread : k'.idleThread = k.idleThread
  alive : (∀ t, (k.threads t).status ≠ .dying) → ∀ t, (k'.threads t).status ≠ .dying

theorem PrioKept.refl (k : Kernel) : PrioKept k k := ⟨rfl, rfl, rfl, fun h => h⟩

theorem PrioKept.trans {k₁ : Kernel} (h : PrioKept k k') (h' : PrioKept k' k₁) : PrioKept k k₁ :=
  ⟨h'.prio.trans h.prio, h'.next.trans h.next, h'.idleThread.trans h.idleThread, fun ha => h'.alive (h.alive ha)⟩

theorem Quiet.prioKept (q : Quiet k k') (hp : k'.prio = k.prio) : PrioKept k k' :=
  ⟨hp, q.next, q.idleThread, fun ha t => by rw [q.status]; exact ha t⟩

theorem prioKept_setStatus {st : Status} (hst : st ≠ .dying) : PrioKept k (k.setStatus t st) := by
  refine ⟨setStatus_prio, rfl, rfl, fun ha u => ?_⟩
  rw [setStatus_threads]
  split
  · exact hst
  · exact ha u

theorem prioKept_setReady {r : List Nat} : PrioKept k (k.setReady r) := ⟨rfl, rfl, rfl, fun ha => ha⟩

theorem prioKept_setTodo {ms : List Micro} : PrioKept k (k.setTodo t ms) := by
  refine ⟨setTodo_prio, rfl, rfl, fun ha u => ?_⟩
  rw [setTodo_threads]
  split
  · exact ha t
  · exact ha u

theorem prioKept_threadUnblock (hk : threadUnblock k t = some k') : PrioKept k k' := by
  obtain ⟨-, rfl⟩ := threadUnblock_eq_some.mp hk
  exact (prioKept_setStatus (by simp)).trans prioKept_setReady

theorem prioKept_threadYield : PrioKept k (threadYield k) := by
  simp only [threadYield]
  split
  · exact (prioKept_setStatus (by simp)).trans prioKept_setReady
  · exact prioKept_setStatus (by simp)

theorem prioKept_schedule : PrioKept k (schedule k) := by
  refine ⟨finish_prio (o := .sched k), schedule_next, schedule_idle, fun ha t => ?_⟩
  rw [schedule_threads]
  split
  · simp
  · exact ha t

theorem prioKept_finish : PrioKept o.kernel o.finish := by
  cases o with
  | done k => exact .refl k
  | sched k => exact prioKept_schedule

theorem prioKept_semaDown {sm : Sema} : PrioKept k (semaDown k sm).kernel := by
  rw [semaDown_eq]
  split
  · refine ⟨funext fun t => ?_, rfl, rfl, fun ha t => ?_⟩
    · show ((blockOn k sm).threads t).priority = (k.threads t).priority
      rw [blockOn_threads]
      split
      · rename_i ht
        rw [ht]
      · rfl
    · show ((blockOn k sm).threads t).status ≠ _
      rw [blockOn_threads]
      split
      · simp
      · exact ha t
  · refine quiet_take.prioKept ?_
    cases sm with
    | sema n => rfl
    | lock l =>
      have hmod {k₁ : Kernel} : (k₁.modify k₁.cur fun th => { th with pendingLock := none }).prio = k₁.prio :=
        modify_prio rfl
      exact hmod

theorem prioKept_semaUp {sm : Sema} (hk : semaUp k sm = some k') : PrioKept k k' := by
  obtain ⟨-, rfl⟩ | ⟨w, ws, -, hk⟩ := semaUp_cases hk
  · exact ⟨rfl, rfl, rfl, fun ha => ha⟩
  · have hset : PrioKept k (k.setSema sm ⟨(k.semas sm).value + 1, ws⟩) := ⟨rfl, rfl, rfl, fun ha => ha⟩
    exact hset.trans (prioKept_threadUnblock hk)

theorem prioKept_compare : PrioKept k (compareCurNextPriority k).kernel := by
  simp only [compareCurNextPriority]
  split
  · exact .refl k
  · split
    · exact prioKept_setReady.trans prioKept_threadYield
    · exact prioKept_setReady

theorem prioKept_pending {p : Option Nat} :
    PrioKept k (k.modify k.cur fun th => { th with pendingLock := p }) :=
  (quiet_modify rfl rfl).prioKept (modify_prio rfl)

/-- A donation to a thread that is not below the donor. -/
theorem prioKept_donate {h : Nat} (hd : k.prio k.cur ≤ k.prio h) : PrioKept k (donate k l h) := by
  refine quiet_donate.prioKept (funext fun t => ?_)
  rw [donate_prio]
  split
  · rename_i ht
    rw [if_neg (not_lt.mpr hd), ht]
  · rfl

/-- A `lock_release` by a thread at its own priority. -/
theorem prioKept_lockRelease (hd : (k.threads k.cur).Settled l) (hk : lockRelease k l = some k') : PrioKept k k' := by
  simp only [lockRelease, Option.ite_none_right_eq_some] at hk
  refine (quiet_release.prioKept (funext fun t => ?_)).trans (prioKept_semaUp hk.2)
  by_cases ht : t = k.cur
  · rw [ht]
    exact recalc_prio_settled hd
  · have hcur : (removeDonationForLock k l).cur = k.cur := rfl
    have hsame : (recalcPriority (removeDonationForLock k l)).threads t = k.threads t := by
      rw [recalcPriority, modify_threads, hcur, if_neg ht, removeDonationForLock, modify_threads, if_neg ht]
    exact congrArg Thread.priority hsame

/-! ## The recalculations -/

theorem updatePriority_prio {u : Nat} (ht : t ≠ k.idleThread) : (updatePriority s k t).prio u =
    if u = t then newPriority (s.recentCpu t) (s.nice t) else k.prio u := by
  rw [updatePriority, if_neg ht, Kernel.prio, modify_threads]
  split <;> rfl

theorem quiet_updatePriority : Quiet k (updatePriority s k t) := by
  rw [updatePriority]
  split
  · exact .refl k
  · exact quiet_modify rfl rfl

/-- The loop over `all_list`. -/
theorem updateAll_prio (ts : List Nat) (u : Nat) (hi : k.idleThread = s.kern.idleThread) :
    let k' := ts.foldl (fun k t => if s.skips t then k else updatePriority s k t) k
    Quiet k k' ∧ k'.prio u = if u ∈ ts ∧ ¬ s.skips u then newPriority (s.recentCpu u) (s.nice u) else k.prio u := by
  induction ts generalizing k with
  | nil => exact ⟨.refl k, by simp⟩
  | cons t ts ih =>
    rw [List.foldl_cons]
    by_cases hskip : s.skips t
    · rw [if_pos hskip]
      obtain ⟨hq, hp⟩ := ih hi
      refine ⟨hq, hp.trans ?_⟩
      have hne : ¬ s.skips u → u ≠ t := fun hu he => hu (he ▸ hskip)
      by_cases hu : s.skips u
      · simp [hu]
      · simp [hu, hne hu]
    · rw [if_neg hskip]
      have hq₁ : Quiet k (updatePriority s k t) := quiet_updatePriority
      obtain ⟨hq, hp⟩ := ih (hq₁.idleThread.trans hi)
      refine ⟨hq₁.trans hq, hp.trans ?_⟩
      rw [updatePriority_prio fun he => hskip (.inr (he.trans hi))]
      by_cases hut : u = t
      · subst hut
        simp [hskip]
      · simp [hut]

/-! ## The runs -/

structure Mlfqs.Ok (s : Mlfqs) : Prop where
  follows : s.Follows
  alive : ∀ t, (s.kern.threads t).status ≠ .dying
  /-- Every thread is on `all_list`. -/
  listed : ∀ t < s.kern.next, t ∈ s.allList

/-- A step that leaves the priorities and the records alone. -/
theorem Mlfqs.Ok.kept (h : s.Ok) (hk : PrioKept s.kern s'.kern) (hc : s'.lastCalc = s.lastCalc)
    (hl : s'.allList = s.allList) : s'.Ok where
  follows t ht hi := by
    rw [hk.next] at ht
    rw [hk.idleThread] at hi
    rw [hc, hk.prio]
    exact h.follows t ht hi
  alive := hk.alive h.alive
  listed t ht := by
    rw [hk.next] at ht
    exact hl ▸ h.listed t ht

/-- A recalculation of the threads in `p`. -/
theorem Mlfqs.Ok.recalc {p : Nat → Prop} [DecidablePred p] (h : s.Ok) (hi : s'.kern.idleThread = s.kern.idleThread)
    (hnew : ∀ t < s'.kern.next, s.kern.next ≤ t → p t)
    (hprio : ∀ t < s'.kern.next, t ≠ s.kern.idleThread →
      s'.kern.prio t = if p t then newPriority (s'.recentCpu t) (s'.nice t) else s.kern.prio t)
    (hc : ∀ t, s'.lastCalc t = if p t then some (s'.recentCpu t, s'.nice t) else s.lastCalc t)
    (hx : ∀ t, p t → Exact (s'.recentCpu t) (s'.nice t)) (ha : ∀ t, (s'.kern.threads t).status ≠ .dying)
    (hl : ∀ t < s'.kern.next, t ∈ s'.allList) : s'.Ok := by
  refine ⟨fun t ht hti => ?_, ha, hl⟩
  rw [hi] at hti
  rw [hc, hprio t ht hti]
  by_cases hp : p t
  · rw [if_pos hp, if_pos hp]
    refine ⟨by simp, fun r n he => ?_⟩
    obtain ⟨rfl, rfl⟩ := Prod.mk.inj (Option.some.inj he)
    exact newPriority_eq (hx t hp)
  · rw [if_neg hp, if_neg hp]
    exact h.follows t (Nat.lt_of_not_le fun hle => hp (hnew t ht hle)) hti

theorem tickNumbers_kern : (tickNumbers s).kern = s.kern := by
  simp only [tickNumbers]
  split <;> rfl

theorem tickNumbers_nice : (tickNumbers s).nice = s.nice := by
  simp only [tickNumbers]
  split <;> rfl

theorem tickNumbers_allList : (tickNumbers s).allList = s.allList := by
  simp only [tickNumbers]
  split <;> rfl

theorem tickNumbers_ticks : (tickNumbers s).ticks = s.ticks + 1 := by
  simp only [tickNumbers]
  split <;> rfl

theorem tickNumbers_freed : (tickNumbers s).freed = s.freed := by
  simp only [tickNumbers]
  split <;> rfl

theorem tickNumbers_skips : (tickNumbers s).skips t ↔ s.skips t := by
  rw [Mlfqs.skips, Mlfqs.skips, tickNumbers_kern, tickNumbers_freed]

theorem tickNumbers_lastCalc : (tickNumbers s).lastCalc = s.lastCalc := by
  simp only [tickNumbers]
  split <;> rfl

theorem Mlfqs.Ok.tick (h : s.Ok) (hx : Regular s .tick) : (mlfqsOnTick s).Ok := by
  simp only [mlfqsOnTick]
  split
  · rename_i hfour
    rw [tickNumbers_ticks] at hfour
    have hall (u : Nat) := updateAll_prio (s := tickNumbers s) (k := s.kern) s.allList u
      (congrArg Kernel.idleThread tickNumbers_kern).symm
    have hq := (hall 0).1
    have hkern : (updateAllPriority (tickNumbers s)).kern = Kernel.sortReady (s.allList.foldl
        (fun k t => if (tickNumbers s).skips t then k else updatePriority (tickNumbers s) k t) s.kern) := by
      rw [updateAllPriority, tickNumbers_kern, tickNumbers_allList]
    refine h.recalc (p := fun t => t < s.kern.next ∧ ¬ s.skips t) ?_ (fun t ht hle => ?_)
      (fun t ht hti => ?_) (fun t => ?_) (fun t ht => ?_) (fun t => ?_) fun t ht => ?_
    · show (updateAllPriority (tickNumbers s)).kern.idleThread = _
      rw [hkern]
      exact hq.idleThread
    · have ht : t < (updateAllPriority (tickNumbers s)).kern.next := ht
      rw [hkern] at ht
      have ht : t < s.kern.next := hq.next ▸ ht
      omega
    · have ht : t < (updateAllPriority (tickNumbers s)).kern.next := ht
      rw [hkern] at ht
      have ht : t < s.kern.next := hq.next ▸ ht
      show (updateAllPriority (tickNumbers s)).kern.prio t = _
      rw [hkern]
      refine (hall t).2.trans ?_
      simp only [tickNumbers_skips, ht, h.listed t ht, true_and]
      rfl
    · show (if _ then _ else (tickNumbers s).lastCalc t) = _
      rw [tickNumbers_lastCalc]
      rfl
    · show Exact ((tickNumbers s).recentCpu t) ((tickNumbers s).nice t)
      rw [tickNumbers_nice]
      exact hx hfour t ht.1 ht.2
    · show ((updateAllPriority (tickNumbers s)).kern.threads t).status ≠ _
      rw [hkern]
      exact (hq.status t).trans_ne (h.alive t)
    · have ht : t < (updateAllPriority (tickNumbers s)).kern.next := ht
      rw [hkern] at ht
      show t ∈ (tickNumbers s).allList
      rw [tickNumbers_allList]
      exact h.listed t (hq.next ▸ ht)
  · exact h.kept (tickNumbers_kern ▸ .refl _) tickNumbers_lastCalc tickNumbers_allList

theorem Mlfqs.Ok.create {p : Int} (h : s.Ok) (hx : Exact (s.recentCpu s.kern.cur) (s.nice s.kern.cur)) :
    (s.create p).Ok := by
  have halloc {u : Nat} (hu : u ≠ s.kern.next) : (s.kern.alloc p).threads u = s.kern.threads u := by
    show (s.kern.modify s.kern.next fun _ => initThread p).threads u = _
    rw [modify_threads, if_neg hu]
  have hq {s₁ : Mlfqs} : Quiet (s.kern.alloc p) (updatePriority s₁ (s.kern.alloc p) s.kern.next) := quiet_updatePriority
  have hnext : (s.create p).kern.next = s.kern.next + 1 := hq.next
  refine h.recalc (p := (· = s.kern.next)) hq.idleThread (fun t ht hle => ?_) (fun t ht hti => ?_) (fun t => rfl)
    (fun t ht => ?_) (fun t => ?_) fun t ht => ?_
  · have ht : t < s.kern.next + 1 := hnext ▸ ht
    show t = s.kern.next
    omega
  · show (updatePriority _ _ _).prio t = _
    by_cases he : t = s.kern.next
    · subst he
      rw [updatePriority_prio (k := s.kern.alloc p) hti, if_pos rfl, if_pos rfl]
      rfl
    · have hold : (s.kern.alloc p).prio t = s.kern.prio t := congrArg Thread.priority (halloc he)
      rw [if_neg he, updatePriority]
      split
      · exact hold
      · rw [Kernel.prio, modify_threads, if_neg he]
        exact hold
  · subst ht
    have hrecent : (s.create p).recentCpu s.kern.next = s.recentCpu s.kern.cur := Function.update_self ..
    have hnice : (s.create p).nice s.kern.next = s.nice s.kern.cur := Function.update_self ..
    rw [hrecent, hnice]
    exact hx
  · show ((updatePriority _ _ _).threads t).status ≠ _
    rw [hq.status]
    by_cases hu : t = s.kern.next
    · subst hu
      show ((s.kern.modify s.kern.next fun _ => initThread p).threads s.kern.next).status ≠ _
      rw [modify_threads, if_pos rfl]
      simp [initThread]
    · rw [halloc hu]
      exact h.alive t
  · have ht : t < s.kern.next + 1 := hnext ▸ ht
    show t ∈ s.allList ++ [s.kern.next]
    by_cases he : t = s.kern.next
    · simp [he]
    · exact List.mem_append_left _ (h.listed t (by omega))

theorem Mlfqs.Ok.setNice (h : s.Ok) (hx : Exact (s.recentCpu s.kern.cur) n) : (threadSetNice s n).Ok := by
  have hq {s₁ : Mlfqs} : Quiet s.kern (updatePriority s₁ s.kern s.kern.cur) := quiet_updatePriority
  refine h.recalc (p := (· = s.kern.cur)) hq.idleThread (fun t ht hle => ?_) (fun t ht hti => ?_) (fun t => rfl)
    (fun t ht => ?_) (fun t => ?_) fun t ht => ?_
  · have ht : t < s.kern.next := hq.next ▸ ht
    omega
  · show (updatePriority _ _ _).prio t = _
    by_cases he : t = s.kern.cur
    · subst he
      rw [updatePriority_prio hti, if_pos rfl, if_pos rfl]
      rfl
    · rw [if_neg he, updatePriority]
      split
      · rfl
      · rw [Kernel.prio, modify_threads, if_neg he]
        rfl
  · subst ht
    have hnice : (threadSetNice s n).nice s.kern.cur = n := Function.update_self ..
    rw [hnice]
    exact hx
  · show ((updatePriority _ _ _).threads t).status ≠ _
    rw [hq.status]
    exact h.alive t
  · have ht : t < s.kern.next := hq.next ▸ ht
    exact h.listed t ht

theorem Mlfqs.Ok.push {js : List Job} (h : s.Ok) : (s.push js).Ok := h.kept (.refl _) rfl rfl

/-- A part of a call. -/
theorem Mlfqs.Ok.exec {j : Job} {empty : Bool} (h : s.Ok) (hd : j.Regular s) (hs : j.exec empty s = some s') :
    s'.Ok := by
  cases j with
  | acquire l =>
    simp only [Job.exec] at hs
    split at hs
    · cases hs
    · split at hs
      · exact Option.some.inj hs ▸ h.push
      · have hk : Mlfqs.Ok { s with kern := s.kern.modify s.kern.cur fun th => { th with pendingLock := some l } } :=
          h.kept prioKept_pending rfl rfl
        exact Option.some.inj hs ▸ hk.push
  | walk pending =>
    simp only [Job.exec] at hs
    split at hs
    · exact Option.some.inj hs ▸ h
    · split at hs
      · exact Option.some.inj hs ▸ h
      · exact Option.some.inj hs ▸ h.push
  | takeBlock => exact Option.some.inj hs ▸ h.push
  | donate pending holder saved =>
    have hp : PrioKept s.kern (s.kern.modify s.kern.cur fun th => { th with pendingLock := saved }) := prioKept_pending
    have hk : Mlfqs.Ok { s with kern := Threads.donate (s.kern.modify s.kern.cur fun th =>
        { th with pendingLock := saved }) pending holder } :=
      h.kept (hp.trans (prioKept_donate (by rw [hp.prio]; exact hd))) rfl rfl
    exact Option.some.inj hs ▸ hk.push
  | down sm =>
    obtain rfl := Option.some.inj hs
    exact h.kept (prioKept_semaDown.trans prioKept_finish) rfl rfl
  | release l =>
    obtain ⟨k, hk, rfl⟩ := Option.map_eq_some_iff.mp hs
    exact h.kept (prioKept_lockRelease hd hk) rfl rfl
  | up n =>
    obtain ⟨k, hk, rfl⟩ := Option.map_eq_some_iff.mp hs
    exact h.kept (prioKept_semaUp hk) rfl rfl
  | compare =>
    obtain rfl := Option.some.inj hs
    exact h.kept (prioKept_compare.trans prioKept_finish) rfl rfl
  | yield =>
    obtain rfl := Option.some.inj hs
    exact h.kept (prioKept_threadYield.trans prioKept_schedule) rfl rfl
  | init p =>
    simp only [Job.exec, Option.ite_none_right_eq_some, Option.some.injEq] at hs
    obtain ⟨-, rfl⟩ := hs
    have hc : (s.create p).Ok := h.create hd
    exact hc.push
  | created t =>
    simp only [Job.exec, threadCreated, Option.map_map, Option.map_eq_some_iff, Function.comp_apply] at hs
    obtain ⟨k₁, hk, rfl⟩ := hs
    have hput := prioKept_threadUnblock hk
    refine h.kept (PrioKept.trans ?_ prioKept_finish) rfl rfl
    split
    · exact hput.trans prioKept_threadYield
    · exact hput

theorem step_mlfqs (h : s.Ok) (hd : Regular s e) (hs : s.step e = some s') : s'.Ok := by
  cases e with
  | tick => exact Option.some.inj hs ▸ h.tick hd
  | preempt =>
    obtain rfl := Option.some.inj hs
    exact h.kept (prioKept_threadYield.trans prioKept_schedule) rfl rfl
  | call c =>
    simp only [Mlfqs.step, Option.ite_none_right_eq_some] at hs
    obtain ⟨js, -, rfl⟩ := Option.map_eq_some_iff.mp hs.2
    exact h.push
  | setNice n =>
    simp only [Mlfqs.step, Option.ite_none_right_eq_some, Option.some.injEq] at hs
    have hn : (threadSetNice s n).Ok := h.setNice hd
    exact hs.2 ▸ hn.push
  | part empty =>
    simp only [Mlfqs.step] at hs
    split at hs
    · obtain rfl := Option.some.inj hs
      exact h.kept ((prioKept_setTodo.trans prioKept_semaDown).trans prioKept_finish) rfl rfl
    · rename_i j js htodo hlater
      have hpop : Mlfqs.Ok { s with later := Function.update s.later s.kern.cur js } := h.kept (.refl _) rfl rfl
      exact hpop.exec (hd htodo j (by rw [hlater]; rfl)) hs
    · cases hs

theorem Mlfqs.boot_ok (value : Nat → Nat) : (Mlfqs.boot value).Ok where
  follows t ht hi := by
    have ht : t < 2 := ht
    have hi : t ≠ 1 := hi
    exact ⟨fun _ => by omega, nofun⟩
  alive t := by
    simp only [Mlfqs.boot, Threads.boot, modify_threads]
    split
    · simp
    · split <;> simp
  listed t ht := by
    have ht : t < 2 := ht
    simp only [Mlfqs.boot, List.mem_cons, List.not_mem_nil, or_false]
    omega

/-- **Priorities follow the formula**, in every run in which no donation raises
anybody, no `lock_release` has a priority to set back and no recalculation
overflows. -/
theorem priorities_follow {value : Nat → Nat} {es : List MlfqsEvent}
    (hr : Run.run Mlfqs.step (Mlfqs.boot value) es = some s)
    (hd : Run.Always Mlfqs.step Regular (Mlfqs.boot value) es) : s.Follows :=
  (Run.run_invariant (fun _ _ _ h hd hs => step_mlfqs h hd hs) (Mlfqs.boot_ok value) hr hd).follows

/-- A thread created at 63, where the formula puts it, takes and releases a lock
and then makes itself nicer. -/
def atFormula : List MlfqsEvent :=
  .call (.create 63) :: List.replicate 12 (.part false) ++ .call (.lockAcquire 3) ::
    .part false :: .part false :: .tick :: .call (.lockRelease 3) :: List.replicate 3 (.part false) ++
      [.setNice 5, .part false]

theorem priorities_follow_nice : ∃ s, Run.run Mlfqs.step (Mlfqs.boot fun _ => 0) atFormula = some s ∧
    s.lastCalc 2 = some (16384, 5) ∧ s.kern.prio 2 = 53 ∧ s.Follows := by
  obtain ⟨s, hs, hd⟩ := (Option.any_eq_true _ _).mp
    (show (Run.run Mlfqs.step (Mlfqs.boot fun _ => 0) atFormula).any (fun s =>
      decide (s.lastCalc 2 = some (16384, 5) ∧ s.kern.prio 2 = 53)) = true by decide +kernel)
  obtain ⟨hcalc, hprio⟩ := of_decide_eq_true hd
  exact ⟨s, hs, hcalc, hprio, priorities_follow hs (by decide +kernel)⟩

/-- The initial thread runs for four ticks, and takes and releases a lock. -/
def backToOriginal : List MlfqsEvent :=
  List.replicate 4 .tick ++ .call (.lockAcquire 3) :: .part false :: .part false :: .call (.lockRelease 3) :: [.part false]

/-- The lock sets its priority back from 62 to 31. -/
theorem not_priorities_follow : ¬ ∀ (value : Nat → Nat) (es : List MlfqsEvent) (s : Mlfqs),
    Run.run Mlfqs.step (Mlfqs.boot value) es = some s → s.Follows := by
  intro hall
  obtain ⟨s, hs, hd⟩ := (Option.any_eq_true _ _).mp
    (show (Run.run Mlfqs.step (Mlfqs.boot fun _ => 0) backToOriginal).any (fun s =>
      decide (s.kern.next = 2 ∧ s.kern.idleThread = 1 ∧ s.lastCalc 0 = some (65536, 0) ∧ s.kern.prio 0 = 31)) = true
      by decide +kernel)
  obtain ⟨hn, hi, hcalc, hprio⟩ := of_decide_eq_true hd
  have := (hall _ _ s hs 0 (by omega) (by omega)).2 _ _ hcalc
  rw [hprio] at this
  exact absurd this (by decide)

end PintosKaist.Threads
