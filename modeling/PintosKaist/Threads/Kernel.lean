/-
Threads, semaphores, locks and priority donation (`threads/thread.c`,
`threads/synch.c`) with `thread_mlfqs` false.

A call is a list of parts, each of which the source runs without giving up
the CPU; a thread that is switched out keeps the parts it has left in `todo`.
The parts end where the source calls `schedule ()`: a blocked `sema_down`, or
a yield in `compare_cur_next_priority`. A part is `none` where an `ASSERT`
fails or, for the donation walk, where the `while` does not end. Semaphore
values do not overflow.
-/
import Mathlib.Logic.Function.Basic
import PintosKaist.Lib.OrdList
import PintosKaist.Lib.Run

namespace PintosKaist.Threads

open OrdList

/-- `enum thread_status`. -/
inductive Status where
  | running
  | ready
  | blocked
  | dying
  deriving DecidableEq, Repr

/-- A semaphore: one of its own, or the one in `struct lock`. -/
inductive Sema where
  | sema (n : Nat)
  | lock (l : Nat)
  deriving DecidableEq, Repr

/-- The parts of the calls. -/
inductive Micro where
  /-- `lock_acquire` up to the `while` of `sema_down`, included. -/
  | acquire (l : Nat)
  /-- The `while` of `sema_down`, with what `lock_acquire` does after it. -/
  | down (s : Sema)
  /-- `lock_release` up to `compare_cur_next_priority` in `sema_up`. -/
  | release (l : Nat)
  /-- `sema_up` up to `compare_cur_next_priority`. -/
  | up (n : Nat)
  /-- `compare_cur_next_priority`. -/
  | compare
  /-- `thread_yield`. -/
  | yield
  /-- `thread_block`. -/
  | block
  /-- `thread_unblock`. -/
  | unblock (t : Nat)
  /-- `thread_set_priority` up to `compare_cur_next_priority`. -/
  | setPriority (p : Int)
  /-- `thread_create` up to `allocate_tid`. -/
  | init (p : Int)
  /-- `thread_create` after `allocate_tid`. -/
  | create (p : Int)
  deriving DecidableEq, Repr

/-- `donation`. -/
structure Donation where
  priority : Int
  donor : Nat
  lock : Nat
  deriving DecidableEq, Repr

/-- The scheduling part of `struct thread`. -/
structure Thread where
  status : Status
  priority : Int
  originalPriority : Int
  donations : List Donation
  pendingLock : Option Nat
  /-- What is left of the call the thread is in. -/
  todo : List Micro
  deriving DecidableEq, Repr

structure Semaphore where
  value : Nat
  waiters : List Nat
  deriving DecidableEq, Repr

structure Kernel where
  threads : Nat → Thread
  readyList : List Nat
  cur : Nat
  idleThread : Nat
  semas : Sema → Semaphore
  /-- `lock->holder`. -/
  holder : Nat → Option Nat
  /-- Threads from here on have not been created. -/
  next : Nat

/-- `PRI_MIN`, `PRI_DEFAULT`, `PRI_MAX`. -/
def priMin : Int := 0
def priDefault : Int := 31
def priMax : Int := 63

/-- `tid_lock`, as a lock number. -/
def tidLock : Nat := 0

def Kernel.prio (k : Kernel) (t : Nat) : Int := (k.threads t).priority

def Kernel.waiters (k : Kernel) (s : Sema) : List Nat := (k.semas s).waiters

/-- An assignment to fields of thread `t`. -/
def Kernel.modify (k : Kernel) (t : Nat) (f : Thread → Thread) : Kernel :=
  { k with threads := Function.update k.threads t (f (k.threads t)) }

def Kernel.setStatus (k : Kernel) (t : Nat) (st : Status) : Kernel :=
  k.modify t fun th => { th with status := st }

def Kernel.setTodo (k : Kernel) (t : Nat) (ms : List Micro) : Kernel :=
  k.modify t fun th => { th with todo := ms }

def Kernel.setSema (k : Kernel) (s : Sema) (v : Semaphore) : Kernel :=
  { k with semas := Function.update k.semas s v }

def Kernel.setHolder (k : Kernel) (l : Nat) (h : Option Nat) : Kernel :=
  { k with holder := Function.update k.holder l h }

def Kernel.setReady (k : Kernel) (r : List Nat) : Kernel := { k with readyList := r }

/-- `t` is the thread that runs. -/
def Kernel.switchTo (k : Kernel) (t : Nat) : Kernel := { k.setStatus t .running with cur := t }

/-- How a part ends: it returns, or it calls `schedule ()`. -/
inductive Out where
  | done (k : Kernel)
  | sched (k : Kernel)

/-- The state a part ends in. -/
def Out.kernel : Out → Kernel
  | .done k | .sched k => k

/-! ## `thread.c` -/

/-- `next_thread_to_run` and the rest of `schedule`: the front of the ready
list runs, or the idle thread when there is none. -/
def schedule (k : Kernel) : Kernel :=
  match k.readyList with
  | [] => k.switchTo k.idleThread
  | t :: rest => (k.setReady rest).switchTo t

/-- `thread_unblock`. -/
def threadUnblock (k : Kernel) (t : Nat) : Option Kernel :=
  if (k.threads t).status = .blocked then
    some ((k.setStatus t .ready).setReady (insertBy k.prio t k.readyList))
  else none

/-- `thread_block`, up to `schedule ()`. -/
def threadBlock (k : Kernel) : Kernel := k.setStatus k.cur .blocked

/-- `thread_yield`, up to `schedule ()`. -/
def threadYield (k : Kernel) : Kernel :=
  if k.cur ≠ k.idleThread then
    (k.setStatus k.cur .ready).setReady (insertBy k.prio k.cur k.readyList)
  else k.setStatus k.cur .ready

/-- `compare_cur_next_priority`. -/
def compareCurNextPriority (k : Kernel) : Out :=
  match sortBy k.prio k.readyList with
  | [] => .done k
  | t :: rest =>
    let k₁ := k.setReady (t :: rest)
    if k.prio k.cur < k.prio t then .sched (threadYield k₁) else .done k₁

/-- `thread_set_priority`, up to `compare_cur_next_priority`. -/
def threadSetPriority (k : Kernel) (new : Int) : Kernel :=
  k.modify k.cur fun th =>
    { th with
      originalPriority := new
      priority :=
        match th.donations with
        | [] => new
        | d :: _ => if d.priority > new then d.priority else new }

/-- `init_thread`. -/
def initThread (p : Int) : Thread := ⟨.blocked, p, p, [], none, []⟩

/-- A new `struct thread`, set up by `init_thread`. -/
def Kernel.alloc (k : Kernel) (p : Int) : Kernel :=
  { k.modify k.next fun _ => initThread p with next := k.next + 1 }

/-- `thread_create` after `allocate_tid`: the thread is put in the ready list
and, when it is above its creator, run at once. Nobody can see the thread
before that, so it is set up here. -/
def threadCreate (k : Kernel) (p : Int) : Option Out :=
  (threadUnblock (k.alloc p) k.next).map fun k₂ =>
    if k₂.prio k₂.cur < k₂.prio k.next then .sched (threadYield k₂) else .done k₂

/-! ## `synch.c` -/

/-- `sema_down` from its `while` on and, for a lock, the end of
`lock_acquire`. A thread that blocks comes back to the `while`. -/
def semaDown (k : Kernel) (s : Sema) : Out :=
  let sm := k.semas s
  if sm.value = 0 then
    let k₁ := k.setSema s { sm with waiters := insertBy k.prio k.cur sm.waiters }
    .sched (threadBlock (k₁.setTodo k.cur (.down s :: (k.threads k.cur).todo)))
  else
    let k₁ := k.setSema s { sm with value := sm.value - 1 }
    match s with
    | .sema _ => .done k₁
    | .lock l =>
      .done ((k₁.modify k.cur fun th => { th with pendingLock := none }).setHolder l (some k.cur))

/-- `sema_up`, up to `compare_cur_next_priority`. -/
def semaUp (k : Kernel) (s : Sema) : Option Kernel :=
  let sm := k.semas s
  match sortBy k.prio sm.waiters with
  | [] => some (k.setSema s { sm with value := sm.value + 1 })
  | w :: ws => threadUnblock (k.setSema s { value := sm.value + 1, waiters := ws }) w

/-- One turn of the donation `while` of `lock_acquire`, at the lock `pending`
held by `h`: the holder's priority, its new record, its place in the waiters
of the lock it waits for itself. -/
def donate (k : Kernel) (pending h : Nat) : Kernel :=
  let p := k.prio k.cur
  let k₁ := k.modify h fun th =>
    { th with
      priority := if th.priority < p then p else th.priority
      donations := insertBy Donation.priority ⟨p, k.cur, pending⟩ th.donations }
  match (k₁.threads h).pendingLock with
  | none => k₁
  | some l =>
    k₁.setSema (.lock l)
      { k₁.semas (.lock l) with waiters := sortBy k₁.prio (k₁.waiters (.lock l)) }

/-- The donation `while` of `lock_acquire`. `fuel` bounds its turns. -/
def walk : Nat → Kernel → Option Nat → Option Kernel
  | _, k, none => some k
  | 0, _, some _ => none
  | fuel + 1, k, some pending =>
    match k.holder pending with
    | none => some k
    | some h =>
      if k.prio k.cur < k.prio h then some k
      else
        let k₁ := donate k pending h
        walk fuel k₁ (k₁.threads h).pendingLock

/-- `lock_acquire`. No chain of waiting threads is longer than the number of
threads, unless it is a cycle. -/
def lockAcquire (k : Kernel) (l : Nat) : Option Out :=
  if k.holder l = some k.cur then none
  else
    match k.holder l with
    | none => some (semaDown k (.lock l))
    | some _ =>
      let k₁ := k.modify k.cur fun th => { th with pendingLock := some l }
      (walk (k.next + 1) k₁ (some l)).map fun k₂ => semaDown k₂ (.lock l)

/-- `remove_donation_for_lock`. -/
def removeDonationForLock (k : Kernel) (l : Nat) : Kernel :=
  k.modify k.cur fun th => { th with donations := th.donations.filter fun d => d.lock ≠ l }

/-- `recalc_priority`. -/
def recalcPriority (k : Kernel) : Kernel :=
  k.modify k.cur fun th =>
    match sortBy Donation.priority th.donations with
    | [] => { th with priority := th.originalPriority }
    | d :: ds =>
      { th with
        priority := if th.originalPriority < d.priority then d.priority else th.originalPriority
        donations := d :: ds }

/-- `lock_release`, up to `compare_cur_next_priority` in `sema_up`. -/
def lockRelease (k : Kernel) (l : Nat) : Option Kernel :=
  if k.holder l = some k.cur then
    semaUp ((recalcPriority (removeDonationForLock k l)).setHolder l none) (.lock l)
  else none

/-! ## The system -/

/-- One part, run by the current thread. -/
def Micro.exec (k : Kernel) : Micro → Option Out
  | .acquire l => lockAcquire k l
  | .down s => some (semaDown k s)
  | .release l => (lockRelease k l).map .done
  | .up n => (semaUp k (.sema n)).map .done
  | .compare => some (compareCurNextPriority k)
  | .yield => some (.sched (threadYield k))
  | .block => some (.sched (threadBlock k))
  | .unblock t => (threadUnblock k t).map .done
  | .setPriority p => some (.done (threadSetPriority k p))
  | .init p => if priMin ≤ p ∧ p ≤ priMax then some (.done k) else none
  | .create p => threadCreate k p

/-- The calls a thread can make. -/
inductive Call where
  | create (p : Int)
  | yield
  | block
  | unblock (t : Nat)
  | semaDown (n : Nat)
  | semaUp (n : Nat)
  | lockAcquire (l : Nat)
  | lockRelease (l : Nat)
  | setPriority (p : Int)
  deriving DecidableEq, Repr

/-- `lock_release`, whose `sema_up` compares priorities once already. -/
def releaseBody (l : Nat) : List Micro := [.release l, .compare, .compare]

/-- The parts of a call. `thread_create` takes `tid_lock` in `allocate_tid`. -/
def Call.body : Call → List Micro
  | .create p => .init p :: .acquire tidLock :: releaseBody tidLock ++ [.create p]
  | .yield => [.yield]
  | .block => [.block]
  | .unblock t => [.unblock t]
  | .semaDown n => [.down (.sema n)]
  | .semaUp n => [.up n, .compare]
  | .lockAcquire l => [.acquire l]
  | .lockRelease l => releaseBody l
  | .setPriority p => [.setPriority p, .compare]

/-- The thread waits on a semaphore, as opposed to a plain `thread_block`. -/
def Thread.onSema (th : Thread) : Bool :=
  match th.todo with
  | .down _ :: _ => true
  | _ => false

/-- What the callers keep to: `thread_unblock` is for a thread that called
`thread_block`, never for one on a semaphore or for the idle thread; and the
idle thread only blocks and yields, with interrupt handlers waking threads on
top of it. -/
def Micro.allowed (k : Kernel) : Micro → Bool
  | .unblock t => t ≠ k.idleThread && t < k.next && !(k.threads t).onSema
  | .yield | .block | .up _ | .compare => true
  | _ => k.cur ≠ k.idleThread

/-- What happens next: the current thread, in no call, makes one; or it runs
the next part of the call it is in. -/
inductive Event where
  | call (c : Call)
  | part
  deriving DecidableEq, Repr

/-- The next part of the current thread's call, run by it. -/
def partOut (k : Kernel) : Option Out :=
  match (k.threads k.cur).todo with
  | [] => none
  | m :: ms => if m.allowed k then m.exec (k.setTodo k.cur ms) else none

def Out.finish : Out → Kernel
  | .done k => k
  | .sched k => schedule k

def step (k : Kernel) : Event → Option Kernel
  | .call c => if (k.threads k.cur).todo = [] then some (k.setTodo k.cur c.body) else none
  | .part => (partOut k).map Out.finish

/-- The state in which the event calls `schedule ()`, if it does. -/
def atSchedule (k : Kernel) : Event → Option Kernel
  | .call _ => none
  | .part =>
    match partOut k with
    | some (.sched k') => some k'
    | _ => none

/-- After `thread_start`: the initial thread runs, the idle thread has been
switched out of and is in no list. `value` is what the semaphores have been
initialized to. -/
def boot (value : Nat → Nat) : Kernel where
  threads t :=
    if t = 0 then ⟨.running, priDefault, priDefault, [], none, []⟩
    else ⟨.ready, priMin, priMin, [], none, []⟩
  readyList := []
  cur := 0
  idleThread := 1
  semas
    | .sema n => ⟨value n, []⟩
    | .lock _ => ⟨1, []⟩
  holder _ := none
  next := 2

abbrev run (k : Kernel) (es : List Event) : Option Kernel := Run.run step k es

/-- A call and the parts it is made of, run one after the other. -/
def callAll (c : Call) : List Event := .call c :: List.replicate c.body.length .part

end PintosKaist.Threads
