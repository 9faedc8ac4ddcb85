/-
Interrupt queues (`devices/intq.c`): kernel threads that call `intq_getc` and
`intq_putc` with interrupts off, and interrupt handlers that do.

With interrupts off a thread goes on until it sleeps or lets another thread
run, in `lock_acquire`, in `wait` and in `lock_release`; what it does from one
such place to the next is one step here. A step that would fail an assertion
is `none`.
-/
import PintosKaist.Lib.Ring
import PintosKaist.Lib.Run

namespace PintosKaist.Devices

/-- `INTQ_BUFSIZE` -/
def bufSize : Nat := 64

/-- `struct intq`; of the lock, the thread that holds it. -/
structure Intq where
  lock : Option Nat
  notFull : Option Nat
  notEmpty : Option Nat
  buf : Nat → UInt8
  head : Nat
  tail : Nat

/-- `intq_init`; the buffer keeps the bytes it had, 0 for a static one. -/
def intqInit : Intq := ⟨none, none, none, fun _ => 0, 0, 0⟩

def next (pos : Nat) : Nat := Ring.next bufSize pos

def intqEmpty (q : Intq) : Bool := q.head == q.tail

def intqFull (q : Intq) : Bool := next q.head == q.tail

/-- The two members of a queue that `wait` and `signal` are given. -/
inductive Waiter where
  | notFull
  | notEmpty
deriving DecidableEq

def Waiter.get (q : Intq) : Waiter → Option Nat
  | .notFull => q.notFull
  | .notEmpty => q.notEmpty

def Waiter.set (q : Intq) (t : Option Nat) : Waiter → Intq
  | .notFull => { q with notFull := t }
  | .notEmpty => { q with notEmpty := t }

/-- What `wait` asserts of its member and the queue; `signal` asserts that it
is not so. -/
def Waiter.mustWait (q : Intq) : Waiter → Bool
  | .notFull => intqFull q
  | .notEmpty => intqEmpty q

/-- The call a thread is in, with the byte it adds. -/
inductive Call where
  | getc
  | putc (byte : UInt8)
deriving DecidableEq

/-- The member the call waits on. -/
def Call.waiter : Call → Waiter
  | .getc => .notEmpty
  | .putc _ => .notFull

/-- The condition of the call's `while` loop. -/
def Call.mustWait (q : Intq) (c : Call) : Bool := c.waiter.mustWait q

/-- Where a thread stands: outside, before the `while` test, asleep in
`lock_acquire`, asleep in `wait`, and unblocked but not yet back from `wait`. -/
inductive Pc where
  | out
  | test (c : Call)
  | acquiring (c : Call)
  | blocked (c : Call)
  | woken (c : Call)
deriving DecidableEq

/-- The queue and the threads; `put` and `got` are the bytes of the completed
calls, the first one first. -/
structure Sys where
  q : Intq
  pc : Nat → Pc
  put : List UInt8
  got : List UInt8

def init : Sys := ⟨intqInit, fun _ => .out, [], []⟩

def Sys.goto (s : Sys) (t : Nat) (p : Pc) : Sys := { s with pc := Function.update s.pc t p }

/-- `wait`, called by thread `t` in the loop of its call `c`. -/
def wait (s : Sys) (t : Nat) (c : Call) : Option Sys :=
  if c.waiter.mustWait s.q then some ({ s with q := c.waiter.set s.q (some t) }.goto t (.blocked c)) else none

/-- `thread_unblock`; its assertion is that the thread is blocked. -/
def threadUnblock (s : Sys) (t : Nat) : Option Sys :=
  match s.pc t with
  | .blocked c => some (s.goto t (.woken c))
  | _ => none

def signal (s : Sys) (w : Waiter) : Option Sys :=
  if w.mustWait s.q then none
  else match w.get s.q with
    | none => some s
    | some t => (threadUnblock s t).map fun s => { s with q := w.set s.q none }

/-- What follows the loop in `intq_getc`. -/
def takeByte (s : Sys) : Option Sys :=
  signal { s with q := { s.q with tail := next s.q.tail }, got := s.got ++ [s.q.buf s.q.tail] } .notFull

/-- What follows the loop in `intq_putc`. -/
def storeByte (s : Sys) (byte : UInt8) : Option Sys :=
  signal { s with
    q := { s.q with buf := Function.update s.q.buf s.q.head byte, head := next s.q.head }
    put := s.put ++ [byte] } .notEmpty

def finish (s : Sys) : Call → Option Sys
  | .getc => takeByte s
  | .putc byte => storeByte s byte

/-- `lock_acquire` as far as it goes without sleeping, and `wait` once the
lock is held. -/
def lockAndWait (s : Sys) (t : Nat) (c : Call) : Option Sys :=
  if s.q.lock = none then wait { s with q := { s.q with lock := some t } } t c
  else some (s.goto t (.acquiring c))

/-- `lock_release`, after which the thread comes to the test again. -/
def lockRelease (s : Sys) (t : Nat) (c : Call) : Option Sys :=
  if s.q.lock = some t then some ({ s with q := { s.q with lock := none } }.goto t (.test c)) else none

/-- The scheduler runs thread `t` until it next stops. -/
def resume (s : Sys) (t : Nat) : Option Sys :=
  match s.pc t with
  | .out => some s
  | .test c => if c.mustWait s.q then lockAndWait s t c else (finish s c).map fun s => s.goto t .out
  | .acquiring c => lockAndWait s t c
  | .blocked _ => some s
  | .woken c => lockRelease s t c

/-- A thread calls `intq_getc` or `intq_putc`; the scheduler runs a thread; an
interrupt handler makes a call, if it may. -/
inductive Event where
  | call (t : Nat) (c : Call)
  | resume (t : Nat)
  | interrupt (c : Call)

def step (s : Sys) : Event → Option Sys
  | .call t c => if s.pc t = .out then some (s.goto t (.test c)) else some s
  | .resume t => resume s t
  | .interrupt c => if c.mustWait s.q then some s else finish s c

/-- The bytes in the queue, the oldest first. -/
def Intq.contents (q : Intq) : List UInt8 := Ring.contents bufSize q.buf q.head q.tail

end PintosKaist.Devices
