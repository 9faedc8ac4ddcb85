/-
Round robin. Which threads a step puts on the ready list, in the order in
which the source inserts them, and which one its `schedule ()` takes off it.

`list_insert_ordered` puts a thread after its equals, `list_sort` leaves equals
in their order, and `next_thread_to_run` takes the front. So as long as nobody's
priority changes, each priority is a queue.
-/
import PintosKaist.Threads.LifeRuns
import PintosKaist.Threads.ListSort
import PintosKaist.Threads.ReadyOrder

namespace PintosKaist.Threads

open OrdList

variable {k k' k₁ : Kernel} {t : Nat} {ts us : List Nat} {o : Out} {s s' : Life} {e : LifeEvent}

/-! ## What goes on the ready list, and what comes off -/

/-- `thread_yield` puts the running thread on the list. -/
def Kernel.putByYield (k : Kernel) : List Nat := if k.cur ≠ k.idleThread then [k.cur] else []

/-- `sema_up` puts the front of its sorted waiters on the list. -/
def Kernel.putByUp (k : Kernel) (sm : Sema) : List Nat := (sortBy k.prio (k.waiters sm)).take 1

def Kernel.putByCompare (k : Kernel) : List Nat :=
  match sortBy k.prio k.readyList with
  | [] => []
  | t :: _ => if k.prio k.cur < k.prio t then k.putByYield else []

/-- `thread_create` puts the new thread on the list, then its creator if it
yields. -/
def Kernel.putByCreate (k : Kernel) (p : Int) : List Nat :=
  k.next :: if (k.alloc p).prio k.cur < (k.alloc p).prio k.next then k.putByYield else []

def Micro.puts (k : Kernel) : Micro → List Nat
  | .release l => ((recalcPriority (removeDonationForLock k l)).setHolder l none).putByUp (.lock l)
  | .up n => k.putByUp (.sema n)
  | .compare => k.putByCompare
  | .yield => k.putByYield
  | .unblock t => [t]
  | .create p => k.putByCreate p
  | .acquire _ | .down _ | .block | .setPriority _ | .init _ => []

/-- The threads that a step puts on the ready list, first to last. `wake_up`
goes through `block_thread_list` from the front. -/
def Life.puts (s : Life) : LifeEvent → List Nat
  | .part =>
    match (s.kern.threads s.kern.cur).todo with
    | [] => []
    | m :: ms => m.puts (s.kern.setTodo s.kern.cur ms)
  | .unblock t => [t]
  | .tick =>
    if s.closetTick ≠ 0 ∧ s.closetTick ≤ s.ticks + 1 then
      (s.blockThreadList.takeWhile fun e => e.wakeupTick ≤ s.ticks + 1).map BlockThread.blockThreads
    else []
  | .preempt => s.kern.putByYield
  | .handlerUp n => s.kern.putByUp (.sema n)
  | .call _ | .create _ _ | .block | .exit | .sleep _ | .tryDown _ | .priorities _ => []

/-- How a step ends: `schedule ()` or not, and in which state. -/
def Life.out (s : Life) : LifeEvent → Option Out
  | .part => partOut s.kern
  | .block | .sleep _ => some (.sched (threadBlock s.kern))
  | .exit => some (.sched (s.kern.setStatus s.kern.cur .dying))
  | .preempt => some (.sched (threadYield s.kern))
  | e => (s.step e).map fun s' => .done s'.kern

/-- What `next_thread_to_run` pops off the ready list. -/
def Out.popped : Out → List Nat
  | .done _ => []
  | .sched k => k.readyList.take 1

def Life.dispatches (s : Life) (e : LifeEvent) : List Nat := ((s.out e).map Out.popped).getD []

/-- The system with a record of what has been put on the ready list and of
what has been dispatched from it, in order. -/
structure Fifo where
  life : Life
  puts : List Nat
  dispatched : List Nat

def Fifo.step (f : Fifo) (e : LifeEvent) : Option Fifo :=
  (f.life.step e).map fun s' =>
    { life := s', puts := f.puts ++ f.life.puts e, dispatched := f.dispatched ++ f.life.dispatches e }

def Fifo.boot (value : Nat → Nat) : Fifo := ⟨Life.boot value, [], []⟩

/-- The step changes nobody's priority. -/
def SamePriorities (f : Fifo) (e : LifeEvent) : Prop :=
  ∀ s', f.life.step e = some s' → ∀ t < f.life.kern.next, s'.kern.prio t = f.life.kern.prio t

instance {f : Fifo} : Decidable (SamePriorities f e) :=
  decidable_of_iff (∀ s' ∈ f.life.step e, ∀ t < f.life.kern.next, s'.kern.prio t = f.life.kern.prio t) Iff.rfl

/-! ## How a step ends -/

theorem finish_kern : (s.finish o).kern = o.finish := by
  cases o with
  | done k => rfl
  | sched k =>
    simp only [Life.finish]
    split <;> rfl

/-- The state a step leads to is the one its `Out` finishes in. -/
theorem step_out (hs : s.step e = some s') : ∃ o, s.out e = some o ∧ s'.kern = o.finish := by
  cases e with
  | part =>
    simp only [Life.step, Life.part] at hs
    split at hs
    · cases hs
    · rename_i m ms ht
      simp only [Option.ite_none_left_eq_some, Option.map_eq_some_iff] at hs
      obtain ⟨-, o, ho, rfl⟩ := hs
      exact ⟨o, ho, finish_kern⟩
  | block | exit | sleep w =>
    simp only [Life.step, Option.ite_none_right_eq_some, Option.some.injEq] at hs
    exact ⟨_, rfl, hs.2 ▸ rfl⟩
  | preempt => exact ⟨_, rfl, Option.some.inj hs ▸ finish_kern⟩
  | call | create | unblock | tick | handlerUp | tryDown | priorities =>
    exact ⟨.done s'.kern, by simp only [Life.out, hs, Option.map_some], rfl⟩

theorem finish_next : o.finish.next = o.kernel.next := by
  cases o with
  | done k => rfl
  | sched k => exact schedule_next

/-- What was on the list is popped first or still on it. -/
theorem finish_ready : o.kernel.readyList = o.popped ++ o.finish.readyList := by
  cases o with
  | done k => rfl
  | sched k =>
    simp only [Out.popped, Out.kernel, Out.finish, schedule]
    split <;> simp_all [Kernel.switchTo, Kernel.setStatus, Kernel.modify, Kernel.setReady]

/-- Who is popped runs. -/
theorem popped_runs (ht : t ∈ o.popped) : t = o.finish.cur := by
  cases o with
  | done k => cases ht
  | sched k =>
    show t = (schedule k).cur
    rw [schedule_cur, nextThreadToRun]
    simp only [Out.popped] at ht
    split <;> simp_all

/-! ## One step -/

/-- From `k` to `k'` the threads `ts` go on the list, each to the end of its
priority. -/
structure Put (k k' : Kernel) (ts : List Nat) : Prop where
  next : k.next ≤ k'.next
  ordered : Ordered k'
  levels : ∀ p, level k'.prio p k'.readyList = level k'.prio p (k.readyList ++ ts)

theorem Put.refl (h : Ordered k) : Put k k [] := ⟨le_rfl, h, fun p => by rw [List.append_nil]⟩

/-- A change that leaves the list alone, and the order of those in it. -/
theorem Put.of_same (h : Ordered k') (hr : k'.readyList = k.readyList) (hn : k'.next = k.next) : Put k k' [] :=
  ⟨hn.ge, h, fun p => by rw [hr, List.append_nil]⟩

theorem Put.after (h : Put k₁ k' ts) (hr : k₁.readyList = k.readyList) (hn : k.next ≤ k₁.next) : Put k k' ts :=
  ⟨hn.trans h.next, h.ordered, fun p => hr ▸ h.levels p⟩

theorem Put.trans (h : Put k k' ts) (h' : Put k' k₁ us) (hp : k₁.prio = k'.prio) : Put k k₁ (ts ++ us) := by
  refine ⟨h.next.trans h'.next, h'.ordered, fun p => ?_⟩
  calc level k₁.prio p k₁.readyList
      = level k'.prio p k'.readyList ++ level k'.prio p us := by rw [h'.levels p, hp, level_append]
    _ = level k'.prio p (k.readyList ++ ts) ++ level k'.prio p us := by rw [h.levels p]
    _ = level k₁.prio p (k.readyList ++ (ts ++ us)) := by rw [hp, ← level_append, List.append_assoc]

theorem put_enqueue (h : Ordered k) : Put k ((k.setStatus t .ready).setReady (insertBy k.prio t k.readyList)) [t] := by
  refine ⟨le_rfl, h.enqueue, fun p => ?_⟩
  show level (k.setStatus t .ready).prio p _ = level (k.setStatus t .ready).prio p _
  rw [setStatus_prio, level_append, level_cons, level_nil]
  exact level_insertBy h

theorem Ordered.setTodo {ms : List Micro} (h : Ordered k) : Ordered (k.setTodo t ms) :=
  h.congr rfl fun u _ => by rw [setTodo_prio]

theorem put_threadUnblock (h : Ordered k) (hk : threadUnblock k t = some k') : Put k k' [t] := by
  obtain ⟨-, rfl⟩ := threadUnblock_eq_some.mp hk
  exact put_enqueue h

theorem put_threadYield (h : Ordered k) : Put k (threadYield k) k.putByYield := by
  simp only [threadYield, Kernel.putByYield]
  split
  · exact put_enqueue h
  · exact .of_same h.setStatus rfl rfl

/-- `list_sort` of the ready list. -/
theorem put_sortReady : Put k k.sortReady [] := by
  refine ⟨le_rfl, desc_sortBy, fun p => ?_⟩
  rw [List.append_nil]
  exact level_sortBy

theorem put_compare (h : Ordered k) : Put k (compareCurNextPriority k).kernel k.putByCompare := by
  cases hs : sortBy k.prio k.readyList with
  | nil =>
    simp only [compareCurNextPriority, Kernel.putByCompare, hs]
    exact .refl h
  | cons t rest =>
    have hput : Put k (k.setReady (t :: rest)) [] := hs ▸ put_sortReady
    simp only [compareCurNextPriority, Kernel.putByCompare, hs]
    split
    · exact hput.trans (put_threadYield hput.ordered) threadYield_prio
    · exact hput

theorem put_semaUp {sm : Sema} (h : Ordered k) (hk : semaUp k sm = some k') : Put k k' (k.putByUp sm) := by
  unfold Kernel.putByUp
  obtain ⟨hw, rfl⟩ | ⟨w, ws, hw, hk⟩ := semaUp_cases hk
  · rw [hw]
    exact .of_same h rfl rfl
  · rw [hw]
    exact (put_threadUnblock (k := k.setSema sm _) h hk).after rfl le_rfl

theorem put_semaDown {sm : Sema} (h : Ordered (semaDown k sm).kernel) : Put k (semaDown k sm).kernel [] := by
  refine .of_same h ?_ ?_ <;> rw [semaDown_eq]
  · split
    · rfl
    · cases sm <;> rfl
  · split
    · rfl
    · cases sm <;> rfl

/-- The donations leave the list alone; it stays in order because nobody's
priority changes. -/
theorem put_lockAcquire {l : Nat} (h : Ordered k) (hp : ∀ t ∈ k.readyList, o.kernel.prio t = k.prio t)
    (ho : lockAcquire k l = some o) : Put k o.kernel [] := by
  have same {k₂ : Kernel} (hr : k₂.readyList = k.readyList) (hn : k₂.next = k.next)
      (hp : ∀ t ∈ k.readyList, (semaDown k₂ (.lock l)).kernel.prio t = k.prio t) :
      Put k (semaDown k₂ (.lock l)).kernel [] := by
    refine (put_semaDown (h.congr ?_ hp)).after hr hn.ge
    rw [semaDown_eq, ← hr]
    split <;> rfl
  simp only [lockAcquire] at ho
  split at ho
  · cases ho
  · split at ho
    · cases ho
      exact same rfl rfl hp
    · rw [Option.map_eq_some_iff] at ho
      obtain ⟨k₂, hw, rfl⟩ := ho
      have hq : Quiet k k₂ := (quiet_modify rfl rfl).trans (quiet_walk hw)
      exact same hq.readyList hq.next hp

theorem put_lockRelease {l : Nat} (hs : Sane k) (h : Ordered k) (hk : lockRelease k l = some k') :
    Put k k' (((recalcPriority (removeDonationForLock k l)).setHolder l none).putByUp (.lock l)) := by
  simp only [lockRelease, Option.ite_none_right_eq_some] at hk
  have h₁ : Ordered (removeDonationForLock k l) := h.modify hs.cur_not_ready
  have h₂ : Ordered (recalcPriority (removeDonationForLock k l)) := h₁.modify hs.cur_not_ready
  exact (put_semaUp (k := (recalcPriority (removeDonationForLock k l)).setHolder l none) h₂ hk.2).after rfl le_rfl

theorem put_threadCreate {p : Int} (hs : Sane k) (h : Ordered k) (ho : threadCreate k p = some o) :
    Put k o.kernel (k.putByCreate p) := by
  simp only [threadCreate, Option.map_eq_some_iff] at ho
  obtain ⟨k₂, hk, ho⟩ := ho
  have hnew : k.next ∉ k.readyList := fun hc => absurd (hs.ready _ hc).2.2 (by omega)
  have h₁ : Ordered (k.alloc p) := (h.modify hnew : Ordered (k.modify k.next fun _ => initThread p))
  have hput : Put k k₂ [k.next] := (put_threadUnblock h₁ hk).after rfl (Nat.le_succ _)
  have hcur : k₂.cur = k.cur := (frame_created (W := fun _ => True) hk).cur
  have hyield : k₂.putByYield = k.putByYield := by
    rw [Kernel.putByYield, hcur, (frame_created (W := fun _ => True) hk).idleThread, Kernel.putByYield]
  rw [threadUnblock_prio hk, hcur] at ho
  rw [Kernel.putByCreate]
  split at ho <;> subst ho
  · rename_i hlt
    rw [if_pos hlt, ← hyield]
    exact hput.trans (put_threadYield hput.ordered) threadYield_prio
  · rename_i hle
    rw [if_neg hle]
    exact hput

/-- One part, in which nobody in the list changes priority. -/
theorem put_exec {m : Micro} (hs : Sane k) (h : Ordered k) (hp : ∀ t ∈ k.readyList, o.kernel.prio t = k.prio t)
    (ho : m.exec k = some o) : Put k o.kernel (m.puts k) := by
  cases m with
  | acquire l => exact put_lockAcquire h hp ho
  | down sm =>
    cases ho
    exact put_semaDown (ordered_semaDown hs h)
  | release l =>
    simp only [Micro.exec, Option.map_eq_some_iff] at ho
    obtain ⟨k₂, hk, rfl⟩ := ho
    exact put_lockRelease hs h hk
  | up n =>
    simp only [Micro.exec, Option.map_eq_some_iff] at ho
    obtain ⟨k₂, hk, rfl⟩ := ho
    exact put_semaUp h hk
  | compare =>
    cases ho
    exact put_compare h
  | yield =>
    cases ho
    exact put_threadYield h
  | block =>
    cases ho
    exact .of_same h.setStatus rfl rfl
  | unblock t =>
    simp only [Micro.exec, Option.map_eq_some_iff] at ho
    obtain ⟨k₂, hk, rfl⟩ := ho
    exact put_threadUnblock h hk
  | setPriority p =>
    cases ho
    exact .of_same (show Ordered (threadSetPriority k p) from h.modify hs.cur_not_ready) rfl rfl
  | init p =>
    simp only [Micro.exec, Option.ite_none_right_eq_some, Option.some.injEq] at ho
    obtain ⟨-, rfl⟩ := ho
    exact .refl h
  | create p => exact put_threadCreate hs h ho

/-- The `for` of `wake_up`. -/
theorem put_wakeUp {now : Int} {asleep asleep' : List BlockThread} (h : Ordered k)
    (hk : wakeUp now k asleep = some (k', asleep')) :
    Put k k' ((asleep.takeWhile fun e => e.wakeupTick ≤ now).map BlockThread.blockThreads) ∧ k'.prio = k.prio := by
  induction asleep generalizing k with
  | nil =>
    obtain ⟨rfl, rfl⟩ := Prod.mk.inj (Option.some.inj hk)
    exact ⟨.refl h, rfl⟩
  | cons e es ih =>
    simp only [wakeUp] at hk
    split at hk
    · rename_i hdue
      obtain ⟨k₁, hu, hk⟩ := Option.bind_eq_some_iff.mp hk
      have hput := put_threadUnblock h hu
      obtain ⟨hrest, hprio⟩ := ih hput.ordered hk
      rw [List.takeWhile_cons_of_pos (by simpa using hdue), List.map_cons]
      exact ⟨hput.trans hrest hprio, hprio.trans (threadUnblock_prio hu)⟩
    · rename_i hdue
      obtain ⟨rfl, rfl⟩ := Prod.mk.inj (Option.some.inj hk)
      rw [List.takeWhile_cons_of_neg (by simpa using hdue)]
      exact ⟨.refl h, rfl⟩

/-- A step in which nobody in the list changes priority. -/
theorem put_out (hs : Sane s.kern) (h : Ordered s.kern) (hp : ∀ t ∈ s.kern.readyList, o.kernel.prio t = s.kern.prio t)
    (ho : s.out e = some o) : Put s.kern o.kernel (s.puts e) := by
  cases e with
  | part =>
    obtain ⟨m, ms, htodo, -, he⟩ := partOut_eq_some.mp ho
    have hp' : ∀ t ∈ s.kern.readyList, o.kernel.prio t = (s.kern.setTodo s.kern.cur ms).prio t := by
      rwa [setTodo_prio]
    simp only [Life.puts, htodo]
    exact (put_exec (hs.setTodo ms) h.setTodo hp' he).after rfl le_rfl
  | block | sleep w | exit =>
    obtain rfl := Option.some.inj ho
    exact .of_same h.setStatus rfl rfl
  | preempt =>
    obtain rfl := Option.some.inj ho
    exact put_threadYield h
  | call | create =>
    simp only [Life.out, Life.step, Option.map_eq_some_iff, Option.ite_none_right_eq_some, Option.some.injEq] at ho
    obtain ⟨s', ⟨-, rfl⟩, rfl⟩ := ho
    exact .of_same h.setTodo rfl rfl
  | unblock t =>
    simp only [Life.out, Life.step, Option.map_eq_some_iff, Option.ite_none_right_eq_some] at ho
    obtain ⟨s', ⟨-, k, hk, rfl⟩, rfl⟩ := ho
    exact put_threadUnblock h hk
  | tick =>
    simp only [Life.out, Life.step, timerInterrupt, Life.puts, Option.map_eq_some_iff] at ho ⊢
    obtain ⟨s', ht, rfl⟩ := ho
    split at ht
    · rename_i hgate
      obtain ⟨⟨k, es⟩, hw, rfl⟩ := Option.map_eq_some_iff.mp ht
      rw [if_pos hgate]
      exact (put_wakeUp h hw).1
    · rename_i hgate
      obtain rfl := Option.some.inj ht
      rw [if_neg hgate]
      exact .refl h
  | handlerUp n =>
    simp only [Life.out, Life.step, Option.map_eq_some_iff] at ho
    obtain ⟨s', ⟨k, hk, rfl⟩, rfl⟩ := ho
    have hput := (put_semaUp h hk).trans put_sortReady rfl
    rwa [List.append_nil] at hput
  | tryDown n =>
    obtain rfl := Option.some.inj ho
    refine .of_same (h.congr (quiet_semaTryDown.readyList) hp) quiet_semaTryDown.readyList quiet_semaTryDown.next
  | priorities f =>
    obtain rfl := Option.some.inj ho
    have hput : Put (s.kern.setPriorities f) _ [] := put_sortReady
    exact hput.after rfl le_rfl

/-! ## The runs -/

/-- At each priority, the threads put on the list are those dispatched from it
and those still on it. -/
structure Fifo.Ok (f : Fifo) : Prop where
  life : f.life.Ok
  ordered : Ordered f.life.kern
  created : ∀ t ∈ f.puts ++ f.dispatched, t < f.life.kern.next
  levels : ∀ p, level f.life.kern.prio p f.puts = level f.life.kern.prio p (f.dispatched ++ f.life.kern.readyList)

theorem Put.mem (h : Put k k' ts) (ht : t ∈ ts) : t ∈ k'.readyList := by
  have hl : t ∈ level k'.prio (k'.prio t) (k.readyList ++ ts) := mem_level.mpr ⟨by simp [ht], rfl⟩
  rw [← h.levels] at hl
  exact (mem_level.mp hl).1

theorem step_fifo {f f' : Fifo} (h : f.Ok) (hp : SamePriorities f e) (hf : f.step e = some f') : f'.Ok := by
  obtain ⟨s', hs, rfl⟩ := Option.map_eq_some_iff.mp hf
  obtain ⟨o, ho, hk⟩ := step_out hs
  have hok := step_ok h.life hs
  have hsane := h.life.placed.toSane
  -- the priorities are those before the step
  have hprio : ∀ t < f.life.kern.next, s'.kern.prio t = f.life.kern.prio t := hp s' hs
  have hprio' : s'.kern.prio = o.kernel.prio := by rw [hk, finish_prio]
  have hput := put_out hsane h.ordered (fun t ht => hprio' ▸ hprio t (hsane.ready t ht).2.2) ho
  have hnext : f.life.kern.next ≤ s'.kern.next := by
    rw [hk, finish_next]
    exact hput.next
  have hready : o.kernel.readyList = f.life.dispatches e ++ s'.kern.readyList := by
    rw [hk, Life.dispatches, ho]
    exact finish_ready
  have hdisp : ∀ t ∈ f.life.dispatches e, t < s'.kern.next := by
    intro t ht
    rw [Life.dispatches, ho] at ht
    rw [popped_runs ht, ← hk]
    exact hok.placed.curLt
  refine ⟨hok, ?_, fun t ht => ?_, fun p => ?_⟩
  · show Desc s'.kern.prio s'.kern.readyList
    have hd := hput.ordered
    rw [Ordered, ← hprio', hready] at hd
    exact hd.sublist (List.sublist_append_right _ _)
  · have hcases : t ∈ f.puts ++ f.dispatched ∨ t ∈ f.life.puts e ∨ t ∈ f.life.dispatches e := by
      simp only [List.mem_append] at ht ⊢
      tauto
    obtain ht | ht | ht := hcases
    · exact (h.created t ht).trans_le hnext
    · have hmem := hready ▸ hput.mem ht
      obtain hmem | hmem := List.mem_append.mp hmem
      · exact hdisp t hmem
      · exact (hok.placed.ready t hmem).2.2
    · exact hdisp t ht
  · have hold : ∀ {ts : List Nat}, (∀ t ∈ ts, t < f.life.kern.next) →
        level s'.kern.prio p ts = level f.life.kern.prio p ts :=
      fun ht => level_congr fun t hm => hprio t (ht t hm)
    have hputs : ∀ t ∈ f.puts, t < f.life.kern.next := fun t ht => h.created t (by simp [ht])
    have hqueue : ∀ t ∈ f.dispatched ++ f.life.kern.readyList, t < f.life.kern.next := by
      intro t ht
      obtain ht | ht := List.mem_append.mp ht
      · exact h.created t (by simp [ht])
      · exact (hsane.ready t ht).2.2
    calc level s'.kern.prio p (f.puts ++ f.life.puts e)
        = level s'.kern.prio p f.puts ++ level s'.kern.prio p (f.life.puts e) := level_append
      _ = level s'.kern.prio p (f.dispatched ++ f.life.kern.readyList) ++ level s'.kern.prio p (f.life.puts e) := by
          rw [hold hputs, h.levels p, hold hqueue]
      _ = level s'.kern.prio p f.dispatched ++ level s'.kern.prio p (f.life.kern.readyList ++ f.life.puts e) := by
          simp only [level_append, List.append_assoc]
      _ = level s'.kern.prio p f.dispatched ++ level s'.kern.prio p o.kernel.readyList := by rw [hprio', hput.levels p]
      _ = level s'.kern.prio p ((f.dispatched ++ f.life.dispatches e) ++ s'.kern.readyList) := by
          rw [hready]
          simp only [level_append, List.append_assoc]

theorem Fifo.boot_ok (value : Nat → Nat) : (Fifo.boot value).Ok where
  life := Threads.boot_ok value
  ordered := List.Pairwise.nil
  created := by simp [Fifo.boot]
  levels _ := rfl

/-- **Round robin is first in, first out.** In every run that changes nobody's
priority, the threads of a priority have been dispatched in the order in which
they were put on the ready list, those not dispatched yet stand in it in that
order, and `list_sort` of the list at this point would leave it as it is. -/
theorem roundRobin_fifo {value : Nat → Nat} {es : List LifeEvent} {f : Fifo}
    (hr : Run.run Fifo.step (Fifo.boot value) es = some f)
    (hp : Run.Always Fifo.step SamePriorities (Fifo.boot value) es) :
    (∀ p, level f.life.kern.prio p f.puts =
      level f.life.kern.prio p f.dispatched ++ level f.life.kern.prio p f.life.kern.readyList) ∧
    listSort (lessBy f.life.kern.prio) f.life.kern.readyList = some f.life.kern.readyList := by
  have h : f.Ok := Run.run_invariant (fun _ _ _ h hp hf => step_fifo h hp hf) (Fifo.boot_ok value) hr hp
  refine ⟨fun p => ?_, ?_⟩
  · rw [h.levels p, level_append]
  · rw [listSort_eq, sortBy_eq_self h.ordered]

/-- Two threads at the initial thread's priority take turns with it, and one of
them sleeps for a tick. -/
def turns : List LifeEvent :=
  .create 31 2 :: List.replicate 6 .part ++ .create 31 3 :: List.replicate 6 .part ++
    [.preempt, .sleep 1, .preempt, .tick, .call .yield, .part, .preempt]

theorem roundRobin_turns : ∃ f, Run.run Fifo.step (Fifo.boot fun _ => 0) turns = some f ∧
    f.puts = [2, 3, 0, 3, 2, 0, 3] ∧ f.dispatched = [2, 3, 0, 3, 2] ∧
    (∀ p, level f.life.kern.prio p f.puts =
      level f.life.kern.prio p f.dispatched ++ level f.life.kern.prio p f.life.kern.readyList) ∧
    listSort (lessBy f.life.kern.prio) f.life.kern.readyList = some f.life.kern.readyList := by
  obtain ⟨f, hf, hd⟩ := (Option.any_eq_true _ _).mp
    (show (Run.run Fifo.step (Fifo.boot fun _ => 0) turns).any (fun f =>
      decide (f.puts = [2, 3, 0, 3, 2, 0, 3] ∧ f.dispatched = [2, 3, 0, 3, 2])) = true by decide +kernel)
  obtain ⟨hputs, hdisp⟩ := of_decide_eq_true hd
  exact ⟨f, hf, hputs, hdisp, roundRobin_fifo hf (by decide +kernel)⟩

end PintosKaist.Threads
