/-
The `list_sort` of `ready_list` that runs with interrupts on: `lock_release`
and `thread_set_priority` call `compare_cur_next_priority` after `sema_up` has
turned them on again. An interrupt in between that wakes a thread puts it in a
list whose links are half written.

Everything else is `Threads.Life`, and a sort that no interrupt touches is one of
its parts (`part_compare`): then the life-cycle invariant holds
(`lifeCycle_of_torn`).
-/
import PintosKaist.LibKernel.ListSteps
import PintosKaist.Threads.LifeRuns

namespace PintosKaist.Threads

open OrdList Linked LibKernel
open LibKernel.Steps (Node Sorting Holds elems linksOf nodeLess nodeList perform sorts_linksOf)

structure Torn where
  life : Life
  /-- Interrupts are on in the `compare_cur_next_priority` that the thread comes to. -/
  intrOn : Nat → Bool
  /-- The `list_sort` that the running thread is in. The `readyList` of `life` is
  the list it began with. -/
  sorting : Option Sorting

inductive TornEvent where
  | life (e : LifeEvent)
  /-- The next access of the sort. -/
  | access
  /-- The end of it, with the rest of `compare_cur_next_priority`. -/
  | sorted

/-! ## `ready_list` by its links -/

/-- `compare_priority`, on nodes. -/
def Kernel.less (k : Kernel) : Node → Node → Bool := nodeLess (lessBy k.prio)

/-- `list_insert_ordered (&ready_list, &t->elem, compare_priority, NULL)`. -/
def insertLinks (k : Kernel) (links : Heap Node) (t : Nat) : Option (Heap Node) :=
  ((Steps.listInsertOrdered (k.next + 1) nodeList (.elem t)).run (perform k.less) links).map Prod.snd

/-- `list_sort (&ready_list, compare_priority, NULL)` in a handler. -/
def sortLinks (k : Kernel) (links : Heap Node) : Option (Heap Node) :=
  ((Steps.listSort (k.next + 1) nodeList).run (perform k.less) links).map Prod.snd

/-- `thread_unblock`. -/
def unblockLinks (k : Kernel) (links : Heap Node) (t : Nat) : Option (Kernel × Heap Node) :=
  if (k.threads t).status = .blocked then (insertLinks k links t).map fun links => (k.setStatus t .ready, links)
  else none

/-- The `for` of `wake_up`. -/
def wakeUpLinks (curTick : Int) : Kernel → Heap Node → List BlockThread → Option (Kernel × Heap Node × List BlockThread)
  | k, links, [] => some (k, links, [])
  | k, links, e :: es =>
    if e.wakeupTick ≤ curTick then
      (unblockLinks k links e.blockThreads).bind fun (k', links') => wakeUpLinks curTick k' links' es
    else some (k, links, e :: es)

/-- `sema_up` in a handler, with its `compare_cur_next_priority`. -/
def semaUpLinks (k : Kernel) (links : Heap Node) (s : Sema) : Option (Kernel × Heap Node) :=
  let sm := k.semas s
  let woken := match sortBy k.prio sm.waiters with
    | [] => some (k.setSema s { sm with value := sm.value + 1 }, links)
    | w :: ws => unblockLinks (k.setSema s { value := sm.value + 1, waiters := ws }) links w
  woken.bind fun (k', links') => (sortLinks k' links').map fun links => (k', links)

/-- `compare_cur_next_priority` from `list_front` on. -/
def compareFront (k : Kernel) : Option Out :=
  match k.readyList with
  | [] => none
  | t :: _ => some (if k.prio k.cur < k.prio t then .sched (threadYield k) else .done k)

/-- The links of a list that is whole. -/
def whole (links : Heap Node) (xs : List Nat) : Bool :=
  (nodes nodeList (xs.map Node.elem)).all fun e =>
    (links e).prev = (linksOf xs e).prev && (links e).next = (linksOf xs e).next

/-! ## The system -/

/-- `timer_interrupt` calls `wake_up`. -/
def Life.wakes (s : Life) : Bool := s.closetTick ≠ 0 && s.closetTick ≤ s.ticks + 1

/-- A handler on top of a sort. A switch to another thread is not followed. -/
def Torn.handler (s : Torn) (x : Sorting) : LifeEvent → Option Torn
  | .tick =>
    let l := { s.life with ticks := s.life.ticks + 1 }
    if s.life.wakes then
      (wakeUpLinks l.ticks l.kern x.links l.blockThreadList).map fun (k, links, es) =>
        { s with
          life := { l with
            kern := k
            blockThreadList := es
            closetTick := match es with
              | [] => 0
              | e :: _ => e.wakeupTick }
          sorting := some { x with links := links } }
    else some { s with life := l }
  | .unblock t =>
    if t ∈ s.life.parked then
      (unblockLinks s.life.kern x.links t).map fun (k, links) =>
        { s with
          life := { s.life with kern := k, parked := s.life.parked.erase t }
          sorting := some { x with links := links } }
    else none
  | .handlerUp n =>
    (semaUpLinks s.life.kern x.links (.sema n)).map fun (k, links) =>
      { s with life := { s.life with kern := k }, sorting := some { x with links := links } }
  | .priorities f =>
    let k := s.life.kern.setPriorities f
    (sortLinks k x.links).map fun links =>
      { s with life := { s.life with kern := k }, sorting := some { x with links := links } }
  | .tryDown n => some { s with life := { s.life with kern := semaTryDown s.life.kern (.sema n) } }
  | _ => none

/-- `sema_up` compares with interrupts off; what comes after it, and
`thread_set_priority`, with interrupts on. -/
def Micro.opens : Micro → Bool
  | .compare | .setPriority _ => true
  | _ => false

/-- The running thread is at a `compare_cur_next_priority` that sorts with
interrupts on. -/
def Torn.atSort (s : Torn) : Bool :=
  (s.life.kern.threads s.life.kern.cur).todo.head? = some .compare && s.intrOn s.life.kern.cur &&
    !s.life.kern.readyList.isEmpty

/-- What is known of the interrupts after a step. -/
def Torn.note (s : Torn) : LifeEvent → Nat → Bool
  | .part => Function.update s.intrOn s.life.kern.cur
    ((s.life.kern.threads s.life.kern.cur).todo.head?.any Micro.opens)
  | _ => s.intrOn

/-- `none` where an `ASSERT` fails too. The loops of `list_sort` are followed for
`extra` turns more than there are threads. -/
def Torn.step (extra : Nat) (s : Torn) : TornEvent → Option Torn
  | .life e =>
    match s.sorting with
    | some x => s.handler x e
    | none =>
      match e, s.atSort with
      | .part, true => some { s with
          sorting := some ⟨linksOf s.life.kern.readyList, Steps.listSort (s.life.kern.next + 1 + extra) nodeList⟩ }
      | _, _ => (s.life.step e).map fun l => { s with life := l, intrOn := s.note e }
  | .access =>
    match s.sorting with
    | some ⟨links, .op o rest⟩ =>
      let (answer, links) := perform s.life.kern.less o links
      some { s with sorting := some ⟨links, rest answer⟩ }
    | _ => none
  | .sorted =>
    match s.sorting with
    | some ⟨links, .ret _⟩ =>
      let k := s.life.kern
      let ready := elems links (k.next + 1)
      if whole links ready then
        (compareFront ((k.setTodo k.cur (k.threads k.cur).todo.tail).setReady ready)).map fun o =>
          ⟨s.life.finish o, s.note .part, none⟩
      else none
    | _ => none

/-- After `thread_start`. -/
def Torn.boot (value : Nat → Nat) : Torn := ⟨Life.boot value, fun _ => false, none⟩

/-- No handler touches `ready_list` while a thread sorts it with interrupts on:
none wakes or unblocks a thread, sorts the list or yields. -/
def Untouched (s : Torn) : TornEvent → Prop
  | .life .tick => s.sorting.isSome → s.life.wakes = false
  | .life (.tryDown _) => True
  | .life _ => s.sorting = none
  | _ => True

instance {s : Torn} {e : TornEvent} : Decidable (Untouched s e) := by
  unfold Untouched
  split <;> infer_instance

variable {s s' : Torn} {e : TornEvent} {k : Kernel} {links : Heap Node} {xs : List Nat} {t extra : Nat}
  {value : Nat → Nat}

/-! ## An untouched sort is a part of `Life` -/

/-- A list that is held is whole. -/
theorem whole_of_holds (hh : Holds links xs) (hd : xs.Nodup) : whole links xs = true := by
  have hclosed := hh.closed ()
  have hclosed' := (Steps.holds_linksOf hd).closed ()
  refine List.all_eq_true.mpr fun e he => ?_
  rw [hclosed.links_eq hclosed' he]
  simp

theorem ready_length (h : Lists k) : k.readyList.length < k.next + 1 := by
  have hsub : k.readyList ⊆ List.range k.next := fun t ht => List.mem_range.mpr (h.ready t ht).2.2
  have := (List.subperm_of_subset h.readyNodup hsub).length_le
  rw [List.length_range] at this
  exact Nat.lt_succ_of_le this

/-- The rest of `compare_cur_next_priority`, once the list is sorted. -/
theorem compareFront_sorted (hne : k.readyList ≠ []) :
    compareFront (k.setReady (sortBy k.prio k.readyList)) = some (compareCurNextPriority k) := by
  have hs : sortBy k.prio k.readyList ≠ [] := fun he => hne ((he ▸ perm_sortBy).symm.eq_nil)
  obtain ⟨t, rest, ht⟩ := List.exists_cons_of_ne_nil hs
  simp only [compareCurNextPriority, ht]
  rfl

structure Torn.Ok (value : Nat → Nat) (s : Torn) : Prop where
  reach : ∃ es, Run.run Life.step (Life.boot value) es = some s.life
  sorting : ∀ x, s.sorting = some x → (s.life.kern.threads s.life.kern.cur).todo.head? = some .compare ∧
    s.life.kern.readyList ≠ [] ∧ x.Sorts s.life.kern.prio s.life.kern.readyList

theorem boot_torn : (Torn.boot value).Ok value := ⟨⟨[], rfl⟩, nofun⟩

/-- A step of `Life`. -/
theorem Torn.Ok.reaches {l : Life} {e : LifeEvent} (h : s.Ok value) (hl : s.life.step e = some l) :
    ∃ es, Run.run Life.step (Life.boot value) es = some l := by
  obtain ⟨es, hr⟩ := h.reach
  refine ⟨es ++ [e], ?_⟩
  rw [Run.run_append, hr, Option.bind_some]
  exact Run.run_cons.mpr ⟨l, hl, rfl⟩

/-- The end of an untouched sort is the `compare_cur_next_priority` of `Life`. -/
theorem part_compare {l : Life} {ms : List Micro} (htodo : (l.kern.threads l.kern.cur).todo = .compare :: ms) :
    l.step .part = some (l.finish (compareCurNextPriority (l.kern.setTodo l.kern.cur ms))) := by
  simp [Life.step, Life.part, htodo, Micro.direct, partOut, Micro.allowed, Micro.exec, Life.record]

/-- The sort begins with the list as it is. -/
theorem Torn.Ok.enter (h : s.Ok value) (hat : s.atSort = true) :
    Torn.Ok value { s with
      sorting := some ⟨linksOf s.life.kern.readyList, Steps.listSort (s.life.kern.next + 1 + extra) nodeList⟩ } := by
  obtain ⟨es, hr⟩ := h.reach
  have hlists : Lists s.life.kern := (Life.run_ok hr).placed.toLists
  simp only [Torn.atSort, Bool.and_eq_true, decide_eq_true_eq, Bool.not_eq_true', List.isEmpty_eq_false_iff] at hat
  refine ⟨h.reach, fun x hx => ?_⟩
  obtain rfl := Option.some.inj hx
  have hlen := ready_length hlists
  exact ⟨hat.1.1, hat.2, sorts_linksOf hlists.readyNodup (by omega)⟩

/-- A handler that leaves `ready_list` alone. -/
theorem Torn.Ok.handler {x : Sorting} {ev : LifeEvent} (h : s.Ok value) (hx : s.sorting = some x)
    (hu : Untouched s (.life ev)) (hs : s.handler x ev = some s') : s'.Ok value := by
  cases ev with
  | tick =>
    have hw : s.life.wakes = false := hu (by rw [hx]; rfl)
    simp only [Torn.handler, hw, Bool.false_eq_true, if_false] at hs
    obtain rfl := Option.some.inj hs
    refine ⟨h.reaches (e := .tick) ?_, h.sorting⟩
    simp only [Life.wakes, Bool.and_eq_false_iff, decide_eq_false_iff_not] at hw
    exact if_neg (not_and_or.mpr hw)
  | tryDown n =>
    obtain rfl := Option.some.inj hs
    refine ⟨h.reaches (e := .tryDown n) rfl, ?_⟩
    have hsame : ∀ k, (semaTryDown k (.sema n)).threads = k.threads ∧ (semaTryDown k (.sema n)).cur = k.cur ∧
        (semaTryDown k (.sema n)).readyList = k.readyList := fun k => by
      unfold semaTryDown
      split <;> exact ⟨rfl, rfl, rfl⟩
    obtain ⟨hthreads, hcur, hready⟩ := hsame s.life.kern
    have hprio : (semaTryDown s.life.kern (.sema n)).prio = s.life.kern.prio :=
      funext fun t => congrArg Thread.priority (congrFun hthreads t)
    simp only [hthreads, hcur, hready, hprio]
    exact h.sorting
  | _ =>
    have hnone : s.sorting = none := hu
    rw [hx] at hnone
    cases hnone

/-- The sort ends. -/
theorem Torn.Ok.sorted (h : s.Ok value) (hs : s.step extra .sorted = some s') : s'.Ok value := by
  simp only [Torn.step] at hs
  split at hs
  · rename_i links r hx
    obtain ⟨es, hr⟩ := h.reach
    have hlists : Lists s.life.kern := (Life.run_ok hr).placed.toLists
    obtain ⟨hhead, hne, links', hrun, hholds⟩ := h.sorting _ hx
    obtain rfl : links = links' := congrArg Prod.snd (Option.some.inj hrun)
    have helems : elems links (s.life.kern.next + 1) = sortBy s.life.kern.prio s.life.kern.readyList :=
      hholds.elems (by rw [perm_sortBy.length_eq]; exact ready_length hlists)
    rw [helems, if_pos (whole_of_holds hholds (perm_sortBy.nodup_iff.mpr hlists.readyNodup))] at hs
    obtain ⟨ms, htodo⟩ : ∃ ms, (s.life.kern.threads s.life.kern.cur).todo = .compare :: ms := by
      cases ht : (s.life.kern.threads s.life.kern.cur).todo with
      | nil => rw [ht] at hhead; cases hhead
      | cons m ms =>
        rw [ht] at hhead
        exact ⟨ms, by rw [Option.some.inj hhead]⟩
    have hfront := compareFront_sorted (k := s.life.kern.setTodo s.life.kern.cur ms) hne
    rw [setTodo_prio] at hfront
    rw [htodo, List.tail_cons] at hs
    have hs := (congrArg _ hfront).symm.trans hs
    obtain rfl := Option.some.inj hs
    exact ⟨h.reaches (part_compare htodo), nofun⟩
  · cases hs

theorem step_torn (h : s.Ok value) (hu : Untouched s e) (hs : s.step extra e = some s') : s'.Ok value := by
  cases e with
  | life e =>
    simp only [Torn.step] at hs
    split at hs
    · rename_i x hx
      exact h.handler hx hu hs
    · rename_i hnone
      split at hs
      · rename_i hat
        exact Option.some.inj hs ▸ h.enter hat
      · obtain ⟨l, hl, rfl⟩ := Option.map_eq_some_iff.mp hs
        refine ⟨h.reaches hl, fun x hx => ?_⟩
        rw [show (_ : Torn).sorting = _ from hnone] at hx
        cases hx
  | access =>
    simp only [Torn.step] at hs
    split at hs
    · rename_i links o rest hx
      obtain rfl := Option.some.inj hs
      obtain ⟨hhead, hne, hsorts⟩ := h.sorting _ hx
      refine ⟨h.reach, fun x hx' => ?_⟩
      obtain rfl := Option.some.inj hx'
      exact ⟨hhead, hne, hsorts⟩
    · cases hs
  | sorted => exact h.sorted hs

/-- **The life-cycle invariant** holds in every state of every run in which no
handler touches `ready_list` while a thread sorts it with interrupts on; and
such a sort ends, with none of its assertions failing and the same threads in
the list. -/
theorem lifeCycle_of_torn {es : List TornEvent} (hr : Run.run (Torn.step extra) (Torn.boot value) es = some s)
    (hu : Run.Always (Torn.step extra) Untouched (Torn.boot value) es) :
    LifeCycle s.life ∧ ∀ x, s.sorting = some x → x.Sorts s.life.kern.prio s.life.kern.readyList := by
  have h : s.Ok value := Run.run_invariant (fun _ _ _ h hu hs => step_torn h hu hs) boot_torn hr hu
  obtain ⟨es', hr'⟩ := h.reach
  exact ⟨lifeCycle_of_run value es' hr', fun x hx => (h.sorting x hx).2.2⟩

/-- `thread_create` with nobody in `ready_list`, or its first parts. -/
def createParts (p : Int) (pg parts : Nat) : List TornEvent := .life (.create p pg) :: List.replicate parts (.life .part)

/-- The `compare_cur_next_priority` of a `lock_release`, whose sort takes `n`
accesses. -/
def compareParts (n : Nat) : List TornEvent := TornEvent.life .part :: List.replicate n .access ++ [TornEvent.sorted]

/-- The initial thread creates two threads. A tick comes while it sorts the first
of them, alone, in the `lock_release` of the second `thread_create`. -/
def quietRun : List TornEvent :=
  createParts 31 2 6 ++ createParts 31 3 5 ++ [TornEvent.access, .life .tick, .access, .access, .access, .sorted, .life .part]

theorem lifeCycle_quiet : ∃ s, Run.run (Torn.step 0) (Torn.boot fun _ => 0) quietRun = some s ∧
    s.life.kern.readyList = [2, 3] ∧ LifeCycle s.life := by
  obtain ⟨s, hs, hd⟩ := (Option.any_eq_true _ _).mp
    (show (Run.run (Torn.step 0) (Torn.boot fun _ => 0) quietRun).any (fun s =>
      decide (s.life.kern.readyList = [2, 3])) = true by decide +kernel)
  exact ⟨s, hs, of_decide_eq_true hd, (lifeCycle_of_torn hs (by decide +kernel)).1⟩

/-- Threads 2 (at 40) and 3 (at 35) sleep; 0, 4, 5 and 6 are at 31. Thread 0 is
preempted in its fourth `thread_create`, between the two comparisons of its
`lock_release`. Thread 5 takes `tid_lock` and is preempted; thread 2 wakes up
and gives it its priority, where it stands in `ready_list`; so thread 0 comes
back to sort [4, 5, 6]. In `list_splice`, between reading `before->prev` and
writing its `next`, it is interrupted by the tick that wakes thread 3. -/
def tornRun : List TornEvent :=
  let enter : List TornEvent :=
    createParts 40 2 6 ++ [TornEvent.life (.sleep 1)] ++ createParts 35 3 6 ++ [TornEvent.life (.sleep 2)] ++
      createParts 31 4 6 ++ createParts 31 5 4 ++ compareParts 4 ++ [TornEvent.life .part] ++
      createParts 31 6 4 ++ compareParts 10 ++ [TornEvent.life .part] ++ createParts 31 7 4
  let raise : List TornEvent :=
    [TornEvent.life .preempt, .life .preempt] ++ createParts 31 8 2 ++
      [TornEvent.life .preempt, .life .tick, .life .preempt] ++ createParts 31 9 2
  enter ++ raise ++ TornEvent.life .part :: List.replicate 30 .access ++ [TornEvent.life .tick] ++
    List.replicate 12 .access ++ [TornEvent.sorted]

/-- Thread 3 is ready, and in no list. -/
theorem not_lifeCycle_torn : ¬ ∀ (value : Nat → Nat) (es : List TornEvent) (s : Torn),
    Run.run (Torn.step 0) (Torn.boot value) es = some s → s.sorting = none → LifeCycle s.life := by
  intro hall
  obtain ⟨s, hs, hd⟩ := (Option.any_eq_true _ _).mp
    (show (Run.run (Torn.step 0) (Torn.boot fun _ => 0) tornRun).any (fun s =>
      decide (s.sorting.isNone = true ∧ 3 < s.life.kern.next ∧ (s.life.kern.threads 3).status = .ready ∧
        3 ≠ s.life.kern.idleThread ∧ 3 ∉ s.life.kern.readyList)) = true by decide +kernel)
  obtain ⟨hnone, hlt, hready, hidle, hlost⟩ := of_decide_eq_true hd
  have h := hall _ _ s hs (Option.isNone_iff_eq_none.mp hnone)
  exact hlost ((h.ready 3).mpr ⟨hlt, hready, hidle⟩)

end PintosKaist.Threads
