/-
Condition variables: one `struct condition` and its lock (`threads/synch.c`),
under every interleaving of `cond_wait`, `cond_signal` and `cond_broadcast`.

A call of `cond_wait` has a semaphore of its own, in the `semaphore_elem` on its
stack; the calls are numbered. `cond->waiters` is only touched by the thread that
holds the lock, so what a thread does to it between two points where the others
matter is one step. `list_sort` runs with interrupts on and compares by the
waiters and priorities of the moment, which change under it: the order it leaves
is any.
-/
import Mathlib
import PintosKaist.Threads.ListSort
import PintosKaist.Threads.Synch

namespace PintosKaist.Synch

open OrdList PintosKaist.Threads

/-- Where a thread is in the calls on the condition; `w` is its call of
`cond_wait`, and `b` says whether `cond_signal` was called by `cond_broadcast`. -/
inductive Place where
  | out
  /-- In `cond_wait`, on `cond->waiters`, not yet in `sema_down`. -/
  | joined (w : Nat)
  /-- Blocked in `sema_down`. -/
  | asleep (w : Nat)
  /-- Unblocked, on its way back to the `while` of `sema_down`. -/
  | awake (w : Nat)
  /-- Past `sema_down`, in the `lock_acquire` at the end of `cond_wait`. -/
  | past (w : Nat)
  /-- At the `while` of `cond_broadcast`. -/
  | looping
  /-- In `cond_signal`, which has found waiters, at `list_sort`. -/
  | sorting (b : Bool)
  /-- The same, at `list_pop_front`. -/
  | sorted (b : Bool)
  deriving DecidableEq, Repr

/-- In `cond_signal` or `cond_broadcast`. -/
def Place.signals : Place → Bool
  | .looping | .sorting _ | .sorted _ => true
  | _ => false

def Place.broadcasts : Place → Bool
  | .looping | .sorting true | .sorted true => true
  | _ => false

/-- In `cond_signal`, with a waiter still to be taken off. -/
def Place.takes : Place → Bool
  | .sorting _ | .sorted _ => true
  | _ => false

structure Cond where
  lock : Lock
  /-- `cond->waiters`. -/
  waiters : List Nat
  /-- The semaphore of a call of `cond_wait`, and the thread that made it. -/
  sema : Nat → Semaphore
  owner : Nat → Nat
  /-- Calls from here on have not been made. -/
  next : Nat
  place : Nat → Place
  /-- How many calls of `cond_signal` have found waiters. -/
  hits : Nat
  /-- The calls of `cond_wait` whose semaphore `cond_signal` has upped. -/
  signalled : List Nat
  /-- The calls that are past their `sema_down`, and those that have returned. -/
  passed : List Nat
  returned : List Nat
  /-- The waiters when the thread's last `cond_broadcast` started, and those that
  it has signalled. -/
  start : Nat → List Nat
  freed : Nat → List Nat

def Cond.setPlace (s : Cond) (t : Nat) (p : Place) : Cond := { s with place := Function.update s.place t p }

def Cond.setSema (s : Cond) (w : Nat) (sema : Semaphore) : Cond := { s with sema := Function.update s.sema w sema }

/-- `compare_priority_for_cond`. -/
def comparePriorityForCond (prio : Nat → Int) (a b : Semaphore) : Bool :=
  match a.waiters, b.waiters with
  | [], _ => false
  | _ :: _, [] => true
  | t₁ :: _, t₂ :: _ => prio t₁ > prio t₂

/-- The thread a part of a lock call belongs to; a donation's `list_sort` is
anybody's. -/
def LockEvent.thread : LockEvent → Option Nat
  | .acquire t | .down _ t | .tryAcquire t | .hold t | .release t | .up _ t => some t
  | .sort _ => none

/-- What a thread can do to the lock where it is: in `cond_wait`, what its
`lock_release` and its `lock_acquire` do. -/
def Place.allows : Place → LockEvent → Bool
  | _, .sort _ => true
  | .out, _ => true
  | .joined _, .release _ | .joined _, .up _ _ => true
  | .past _, .acquire _ | .past _, .down _ _ | .past _, .hold _ => true
  | _, _ => false

inductive CondEvent where
  /-- A part of a call on the lock, in `cond_wait` or not. -/
  | lock (e : LockEvent)
  /-- `cond_wait` up to `lock_release`. -/
  | wait (prio : Nat → Int) (t : Nat)
  /-- The `while` of its `sema_down`. -/
  | down (prio : Nat → Int) (t : Nat)
  /-- `cond_signal` up to `list_sort`. -/
  | signal (t : Nat)
  /-- Its `list_sort`. -/
  | sort (t : Nat) (order : List Nat)
  /-- Its `list_pop_front` and `sema_up`. -/
  | up (prio : Nat → Int) (t : Nat)
  /-- `cond_broadcast` up to its `while`. -/
  | broadcast (t : Nat)
  /-- The `while` of `cond_broadcast`, with the start of `cond_signal`. -/
  | test (t : Nat)

/-- The thread is in no call, and holds the lock as the code asserts. -/
def Cond.holds (s : Cond) (t : Nat) : Prop :=
  s.place t = .out ∧ (s.lock.phase t).free ∧ s.lock.holder = some t

instance {s : Cond} {t : Nat} : Decidable (s.holds t) := inferInstanceAs (Decidable (_ ∧ _ ∧ _))

/-- `cond_wait` returns with its `lock_acquire`. -/
def Cond.afterLock (s : Cond) : LockEvent → Cond
  | .hold t =>
    match s.place t with
    | .past w => { s.setPlace t .out with returned := w :: s.returned }
    | _ => s
  | _ => s

/-- One turn of the `while` of `sema_down`. -/
def Cond.afterDown (s : Cond) (prio : Nat → Int) (t w : Nat) : Cond :=
  let (sema, done) := semaDown prio t (s.sema w)
  let s₁ := (s.setSema w sema).setPlace t (if done then .past w else .asleep w)
  { s₁ with passed := if done then w :: s.passed else s.passed }

/-- `sema_up` of the semaphore of call `w`. -/
def Cond.afterUp (s : Cond) (prio : Nat → Int) (w : Nat) : Cond :=
  let (sema, woken) := semaUp prio (s.sema w)
  let s₁ := { s.setSema w sema with signalled := w :: s.signalled }
  match woken with
  | none => s₁
  | some u => s₁.setPlace u (.awake w)

/-- `none` where an `ASSERT` fails, or where the thread is elsewhere. -/
def Cond.step (s : Cond) : CondEvent → Option Cond
  | .lock e =>
    if e.thread.all fun t => (s.place t).allows e then
      (s.lock.step e).map fun l => { s with lock := l }.afterLock e
    else none
  | .wait prio t =>
    if s.holds t then
      let s₁ := s.setSema s.next ⟨0, []⟩
      some { s₁.setPlace t (.joined s.next) with
        waiters := s.waiters.orderedInsert (fun a b => comparePriorityForCond prio (s₁.sema a) (s₁.sema b)) s.next
        owner := Function.update s.owner s.next t
        next := s.next + 1 }
    else none
  | .down prio t =>
    match s.place t with
    | .joined w => if s.lock.phase t = .out then some (s.afterDown prio t w) else none
    | .awake w => some (s.afterDown prio t w)
    | _ => none
  | .signal t =>
    if s.holds t then
      some (if s.waiters = [] then s else { s.setPlace t (.sorting false) with hits := s.hits + 1 })
    else none
  | .sort t order =>
    match s.place t with
    | .sorting b => if order.Perm s.waiters then some { s.setPlace t (.sorted b) with waiters := order } else none
    | _ => none
  | .up prio t =>
    match s.place t, s.waiters with
    | .sorted b, w :: ws =>
      some ({ s.setPlace t (if b then .looping else .out) with
        waiters := ws
        freed := if b then Function.update s.freed t (s.freed t ++ [w]) else s.freed }.afterUp prio w)
    | _, _ => none
  | .broadcast t =>
    if s.holds t then
      some { s.setPlace t .looping with
        start := Function.update s.start t s.waiters
        freed := Function.update s.freed t [] }
    else none
  | .test t =>
    if s.place t = .looping then
      if s.waiters = [] then some (s.setPlace t .out)
      else if s.lock.holder = some t then some { s.setPlace t (.sorting true) with hits := s.hits + 1 }
      else none
    else none

/-- `cond_init`, and a lock that is free. -/
def Cond.init : Cond where
  lock := .init
  waiters := []
  sema _ := ⟨0, []⟩
  owner _ := 0
  next := 0
  place _ := .out
  hits := 0
  signalled := []
  passed := []
  returned := []
  start _ := []
  freed _ := []

/-- What `compare_priority_for_cond` compares: a call that nobody waits in is
below all others. -/
def condKey (prio : Nat → Int) (sema : Semaphore) : WithBot Int :=
  match sema.waiters with
  | [] => ⊥
  | t :: _ => prio t

theorem comparePriorityForCond_eq (prio : Nat → Int) (a b : Semaphore) :
    comparePriorityForCond prio a b = decide (condKey prio b < condKey prio a) := by
  obtain ⟨va, wa⟩ := a
  obtain ⟨vb, wb⟩ := b
  cases wa <;> cases wb <;> simp [comparePriorityForCond, condKey]

/-! ## What condition variables are for -/

/-- A call of `cond_wait` that has not been signalled is before its `sema_down`
or asleep in it, and one that has been is not asleep, until it is past; nobody
else waits in its semaphore. -/
structure Cond.CallOk (s : Cond) (w : Nat) : Prop where
  queue : (s.sema w).waiters = if s.place (s.owner w) = .asleep w then [s.owner w] else []
  waits : w ∉ s.signalled → (s.sema w).value = 0 ∧ w ∉ s.passed ∧
    (s.place (s.owner w) = .joined w ∨ s.place (s.owner w) = .asleep w)
  goes : w ∈ s.signalled → w ∉ s.passed → (s.sema w).value = 1 ∧
    (s.place (s.owner w) = .joined w ∨ s.place (s.owner w) = .awake w)
  gone : w ∈ s.passed → (s.sema w).value = 0 ∧ s.place (s.owner w) ≠ .joined w ∧
    s.place (s.owner w) ≠ .asleep w ∧ s.place (s.owner w) ≠ .awake w

/-- No signal is lost and none is used twice. -/
structure Cond.Exact (s : Cond) : Prop where
  /-- Every call is on `cond->waiters` or has been signalled, once. -/
  once : (s.waiters ++ s.signalled).Perm (List.range s.next)
  /-- Every `cond_signal` that found waiters has signalled one, or is about to. -/
  hits : (∃ t, (s.place t).takes = true) ∧ s.hits = s.signalled.length + 1 ∨
    (∀ t, (s.place t).takes = false) ∧ s.hits = s.signalled.length
  call : ∀ w < s.next, s.CallOk w
  /-- Only signalled calls are past their semaphore, once, and only those return. -/
  passed : ∀ w ∈ s.passed, w ∈ s.signalled
  passedNodup : s.passed.Nodup
  past : ∀ t w, s.place t = .past w → w ∈ s.passed
  returned : ∀ w ∈ s.returned, w ∈ s.passed
  /-- A `cond_broadcast` has signalled the waiters it started with, less those
  that are left, and in the end all of them. -/
  broadcast : ∀ t, (s.place t).broadcasts = true → (s.freed t ++ s.waiters).Perm (s.start t)
  ended : ∀ t, (s.place t).broadcasts = false → (s.freed t).Perm (s.start t)

structure Cond.Ok (s : Cond) : Prop extends s.Exact where
  owned : ∃ o, s.lock.Owned o
  signaller : ∀ t, (s.place t).signals = true → s.lock.holder = some t
  found : ∀ t, (s.place t).takes = true → s.waiters ≠ []
  /-- The calls that a thread is in are its own. -/
  own : ∀ t w, s.place t = .joined w ∨ s.place t = .asleep w ∨ s.place t = .awake w → w < s.next ∧ s.owner w = t

variable {s s' : Cond} {t u w : Nat} {p q : Place} {prio : Nat → Int} {e : CondEvent}

theorem setPlace_place : (s.setPlace t p).place u = if u = t then p else s.place u := by
  simp only [Cond.setPlace, Function.update_apply]

/-- What the new place has in common with the old one. -/
theorem setPlace_flag {f : Place → Bool} (hf : f q = f (s.place t)) (u : Nat) :
    f ((s.setPlace t q).place u) = f (s.place u) := by
  rw [setPlace_place]
  split
  · rename_i he
    rw [he, hf]
  · rfl

/-- In `cond_wait`, not yet past the semaphore. -/
def Place.inCall : Place → Bool
  | .joined _ | .asleep _ | .awake _ => true
  | _ => false

theorem Place.broadcasts_signals (h : p.broadcasts = true) : p.signals = true := by
  cases p <;> simp_all [Place.broadcasts, Place.signals]

theorem Place.not_broadcasts (h : p.signals = false) : p.broadcasts = false := by
  cases p <;> simp_all [Place.broadcasts, Place.signals]

theorem Place.not_takes (h : p.signals = false) : p.takes = false := by
  cases p <;> simp_all [Place.takes, Place.signals]

theorem Place.takes_signals (h : p.takes = true) : p.signals = true := by
  cases p <;> first | rfl | cases h

/-- Two threads are not in `cond_signal` or `cond_broadcast` at once. -/
theorem Cond.Ok.alone (h : s.Ok) (ht : (s.place t).signals = true) (hu : s.lock.holder = some u) : u = t :=
  Option.some.inj (hu.symm.trans (h.signaller t ht))

/-- A change that leaves the call and its semaphore alone. -/
theorem Cond.CallOk.congr (h : s.CallOk w) (hs : s'.sema w = s.sema w) (ho : s'.owner w = s.owner w)
    (hg : w ∈ s'.signalled ↔ w ∈ s.signalled) (hp : w ∈ s'.passed ↔ w ∈ s.passed)
    (hj : s'.place (s.owner w) = .joined w ↔ s.place (s.owner w) = .joined w)
    (ha : s'.place (s.owner w) = .asleep w ↔ s.place (s.owner w) = .asleep w)
    (hw : s'.place (s.owner w) = .awake w ↔ s.place (s.owner w) = .awake w) : s'.CallOk w where
  queue := by simp only [hs, ho, ha]; exact h.queue
  waits := by rw [hs, ho, hg, hp, hj, ha]; exact h.waits
  goes := by rw [hs, ho, hg, hp, hj, hw]; exact h.goes
  gone := by rw [hs, ho, hp]; simp only [ne_eq, hj, ha, hw]; exact h.gone

/-- A thread that is in no call, or past its semaphore, moves on. -/
theorem Cond.CallOk.setPlace (h : s.CallOk w) (hp : (s.place t).inCall = false) (hq : q.inCall = false) :
    (s.setPlace t q).CallOk w := by
  refine h.congr rfl rfl Iff.rfl Iff.rfl ?_ ?_ ?_ <;>
  · rw [setPlace_place]
    split
    · rename_i he
      rw [he]
      refine iff_of_false (fun hc => ?_) fun hc => ?_
      · rw [hc] at hq
        cases hq
      · rw [hc] at hp
        cases hp
    · exact Iff.rfl

end PintosKaist.Synch
