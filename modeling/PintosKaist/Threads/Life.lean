/-
The life of a thread (`thread_create` to `palloc_free_page`) over the lists of
`Threads.Kernel`: threads also exit, sleep until a tick, are woken by
interrupt handlers and are preempted between any two parts of a call.

`destruction_req`, `all_list`, `block_thread_list` and the pages of the
threads are kept here; what the scheduler lists hold is the `Kernel`'s.
-/
import PintosKaist.Threads.Kernel

namespace PintosKaist.Threads

open OrdList

/-- `block_thread`: a thread that sleeps, and the tick that wakes it. -/
structure BlockThread where
  blockThreads : Nat
  wakeupTick : Int
  deriving DecidableEq, Repr

structure Life where
  kern : Kernel
  initialThread : Nat
  /-- Threads that called `thread_block` themselves and that a holder of their
  pointer (`waiter` of an `intq`) has not unblocked yet. -/
  parked : List Nat
  blockThreadList : List BlockThread
  /-- `closet_tick`; `NULL` is 0. -/
  closetTick : Int
  ticks : Int
  destructionReq : List Nat
  /-- The pages of the threads on `all_list`. -/
  allList : List Nat
  /-- The page `struct thread` is in. -/
  page : Nat → Nat
  /-- The page of the thread that a `thread_create` is setting up. -/
  creating : Nat → Option Nat
  /-- The pages `palloc_get_page` has given out. -/
  used : Nat → Bool

/-! ## `thread.c` -/

/-- The `while` of `do_schedule`: the pages of `destruction_req` are freed. -/
def Life.reap (s : Life) : Life :=
  { s with
    destructionReq := []
    used := fun pg => s.used pg && decide (pg ∉ s.destructionReq.map s.page) }

/-- The end of a part. A part that leaves its thread blocked came through
`thread_block`, which calls `schedule ()` and not `do_schedule`. -/
def Life.finish (s : Life) : Out → Life
  | .done k => { s with kern := k }
  | .sched k =>
    if (k.threads k.cur).status = .blocked then { s with kern := schedule k }
    else { s.reap with kern := schedule k }

/-- `thread_exit`: `do_schedule (THREAD_DYING)`, with what `schedule` does
with the thread it switches away from. -/
def threadExit (s : Life) : Life :=
  let s₁ := s.reap
  let k := schedule (s.kern.setStatus s.kern.cur .dying)
  { s₁ with
    kern := k
    destructionReq :=
      if k.cur ≠ s.kern.cur ∧ s.kern.cur ≠ s.initialThread
      then insertBy k.prio s.kern.cur s₁.destructionReq else s₁.destructionReq }

/-- `thread_block`. Nobody unblocks the idle thread. -/
def Life.block (s : Life) : Life :=
  { s with
    parked := if s.kern.cur = s.kern.idleThread then s.parked else s.kern.cur :: s.parked
    kern := schedule (threadBlock s.kern) }

/-! ## `timer.c` -/

/-- `timer_sleep`, once the tick to wake up at is computed. -/
def timerSleep (s : Life) (wakeupTick : Int) : Life :=
  { s with
    closetTick := if s.closetTick = 0 ∨ s.closetTick > wakeupTick then wakeupTick else s.closetTick
    blockThreadList := insertBy (fun e => -e.wakeupTick) ⟨s.kern.cur, wakeupTick⟩ s.blockThreadList
    kern := schedule (threadBlock s.kern) }

/-- The `for` of `wake_up`. -/
def wakeUp (curTick : Int) : Kernel → List BlockThread → Option (Kernel × List BlockThread)
  | k, [] => some (k, [])
  | k, e :: es =>
    if e.wakeupTick ≤ curTick then (threadUnblock k e.blockThreads).bind fun k' => wakeUp curTick k' es
    else some (k, e :: es)

/-- `timer_interrupt`. The yield `thread_tick` can ask for is `preempt`. -/
def timerInterrupt (s : Life) : Option Life :=
  let s₁ := { s with ticks := s.ticks + 1 }
  if s.closetTick ≠ 0 ∧ s.closetTick ≤ s₁.ticks then
    (wakeUp s₁.ticks s.kern s.blockThreadList).map fun (k, es) =>
      { s₁ with
        kern := k
        blockThreadList := es
        closetTick := match es with
          | [] => 0
          | e :: _ => e.wakeupTick }
  else some s₁

/-! ## The system -/

/-- What a part changes beside the `Kernel`. -/
def Life.record (s : Life) : Micro → Life
  | .init _ => { s with allList := s.allList ++ (s.creating s.kern.cur).toList }
  | .create _ => { s with page := Function.update s.page s.kern.next ((s.creating s.kern.cur).getD 0) }
  | _ => s

/-- The parts that are events of their own here. -/
def Micro.direct : Micro → Bool
  | .block | .unblock _ => true
  | _ => false

/-- The next part of the current thread's call. -/
def Life.part (s : Life) : Option Life :=
  match (s.kern.threads s.kern.cur).todo with
  | [] => none
  | m :: _ => if m.direct then none else (partOut s.kern).map (s.record m).finish

/-- The calls that have no event of their own, less those on locks: a thread
that exits holds none. -/
def Call.plain : Call → Bool
  | .yield | .semaDown _ | .semaUp _ | .setPriority _ => true
  | _ => false

/-- What can happen next. Handlers run on top of whatever thread is running;
`thread_unblock` is called for a parked thread. -/
inductive LifeEvent where
  | call (c : Call)
  /-- `thread_create`, which `palloc_get_page` gives the page `pg`. -/
  | create (p : Int) (pg : Nat)
  | part
  | block
  /-- `thread_unblock`, by a thread or in a handler. -/
  | unblock (t : Nat)
  | exit
  | sleep (wakeupTick : Int)
  | tick
  /-- A handler returns through `thread_yield`. -/
  | preempt
  /-- `sema_up` in a handler. -/
  | handlerUp (n : Nat)
  | tryDown (n : Nat)
  /-- `update_all_priority`, with the priorities it has computed. -/
  | priorities (f : Nat → Int)

/-- `list_sort (&ready_list)`, all that `compare_cur_next_priority` does itself
in a handler. -/
def Kernel.sortReady (k : Kernel) : Kernel := k.setReady (sortBy k.prio k.readyList)

def Kernel.setPriorities (k : Kernel) (f : Nat → Int) : Kernel :=
  { k with threads := fun t => { k.threads t with priority := f t } }

/-- `sema_try_down`. -/
def semaTryDown (k : Kernel) (s : Sema) : Kernel :=
  if 0 < (k.semas s).value then k.setSema s { k.semas s with value := (k.semas s).value - 1 } else k

/-- The running thread is in no call. -/
def Life.idleTodo (s : Life) : Bool := (s.kern.threads s.kern.cur).todo = []

def Life.step (s : Life) : LifeEvent → Option Life
  | .call c => if s.idleTodo && c.plain then some { s with kern := s.kern.setTodo s.kern.cur c.body } else none
  | .create p pg =>
    if s.idleTodo && !s.used pg then
      some { s with
        kern := s.kern.setTodo s.kern.cur (Call.create p).body
        creating := Function.update s.creating s.kern.cur (some pg)
        used := Function.update s.used pg true }
    else none
  | .part => s.part
  | .block => if s.idleTodo then some s.block else none
  | .unblock t =>
    if t ∈ s.parked then
      (threadUnblock s.kern t).map fun k => { s with kern := k, parked := s.parked.erase t }
    else none
  | .exit => if s.idleTodo && s.kern.cur ≠ s.kern.idleThread then some (threadExit s) else none
  | .sleep w => if s.idleTodo && s.kern.cur ≠ s.kern.idleThread then some (timerSleep s w) else none
  | .tick => timerInterrupt s
  | .preempt => some (s.finish (.sched (threadYield s.kern)))
  | .handlerUp n => (semaUp s.kern (.sema n)).map fun k => { s with kern := k.sortReady }
  | .tryDown n => some { s with kern := semaTryDown s.kern (.sema n) }
  | .priorities f => some { s with kern := (s.kern.setPriorities f).sortReady }

/-- After `thread_start`. -/
def Life.boot (value : Nat → Nat) : Life where
  kern := Threads.boot value
  initialThread := 0
  parked := []
  blockThreadList := []
  closetTick := 0
  ticks := 0
  destructionReq := []
  allList := [0, 1]
  page := id
  creating _ := none
  used pg := pg ≤ 1

end PintosKaist.Threads
