/-
The timer interrupt as a whole: `thread_tick`, `wake_up`, and the yield on the
way out of `intr_handler`. With `thread_mlfqs` false.

The yield is requested by `thread_tick`, for the time slice, before `wake_up`
runs; `wake_up` itself requests none, as `sema_up` in a handler does through
`compare_cur_next_priority`.
-/
import PintosKaist.Threads.Alarm
import PintosKaist.Threads.Fifo

namespace PintosKaist.Threads

open OrdList

variable {k k' : Kernel} {t : Nat} {now p : Int} {l l' : List BlockThread} {s s' : Life} {e : LifeEvent}

/-- `TIME_SLICE`. -/
def timeSlice : Nat := 4

structure Timed where
  life : Life
  /-- `thread_ticks`. -/
  threadTicks : Nat
  yieldOnReturn : Bool

/-- `thread_tick`. -/
def threadTick (s : Timed) : Timed :=
  { s with
    threadTicks := s.threadTicks + 1
    yieldOnReturn := s.yieldOnReturn || timeSlice ≤ s.threadTicks + 1 }

/-- `timer_interrupt`, with `thread_tick` in it. -/
def Timed.timerInterrupt (s : Timed) : Option Timed :=
  (Threads.timerInterrupt s.life).map fun life => { threadTick s with life }

/-- `intr_handler` on a timer interrupt. `schedule` starts a new time slice. -/
def intrHandler (s : Timed) : Option Timed :=
  (Timed.timerInterrupt { s with yieldOnReturn := false }).map fun s₁ =>
    if s₁.yieldOnReturn then
      { s₁ with life := s₁.life.finish (.sched (threadYield s₁.life.kern)), threadTicks := 0 }
    else s₁

def Timed.step (s : Timed) : LifeEvent → Option Timed
  | .tick => intrHandler s
  | e => (s.life.step e).map fun life =>
    { s with
      life
      threadTicks :=
        match s.life.out e with
        | some (.sched _) => 0
        | _ => s.threadTicks }

def Timed.boot (value : Nat → Nat) : Timed := ⟨Life.boot value, 0, false⟩

/-- If the interrupt makes a thread ready that is above the interrupted one,
then it yields, and who runs when it returns is not below any thread it has made
ready. -/
def Preempts (s s' : Timed) : Prop :=
  (∃ t ∈ s.life.roused s'.life, s.life.kern.prio s.life.kern.cur < s.life.kern.prio t) →
    s'.yieldOnReturn = true ∧
    ∀ t ∈ s.life.roused s'.life, s'.life.kern.prio t ≤ s'.life.kern.prio s'.life.kern.cur

/-! ## The front of the ready list -/

/-- The front of the ready list, in order or not, is at `p` or above. -/
def Kernel.Tops (k : Kernel) (p : Int) : Prop := ∃ u rest, k.readyList = u :: rest ∧ p ≤ k.prio u

theorem tops_enqueue : Kernel.Tops ((k.setStatus t .ready).setReady (insertBy k.prio t k.readyList)) (k.prio t) ∧
    ∀ p, k.Tops p → Kernel.Tops ((k.setStatus t .ready).setReady (insertBy k.prio t k.readyList)) p := by
  obtain ⟨u, rest, he, hle, hfront⟩ := insertBy_front k.prio t k.readyList
  have hprio : (k.setStatus t .ready).prio = k.prio := setStatus_prio
  refine ⟨⟨u, rest, he, ?_⟩, ?_⟩
  · show k.prio t ≤ (k.setStatus t .ready).prio u
    rwa [hprio]
  · intro p ⟨v, rest', hr, hp⟩
    refine ⟨u, rest, he, ?_⟩
    show p ≤ (k.setStatus t .ready).prio u
    rw [hprio]
    exact hp.trans (hfront v rest' hr)

theorem Kernel.Tops.threadUnblock (h : k.Tops p) (hk : threadUnblock k t = some k') : k'.Tops p := by
  obtain ⟨-, rfl⟩ := threadUnblock_eq_some.mp hk
  exact tops_enqueue.2 p h

theorem Kernel.Tops.threadYield (h : k.Tops p) : (threadYield k).Tops p := by
  simp only [Threads.threadYield]
  split
  · exact tops_enqueue.2 p h
  · obtain ⟨u, rest, hr, hp⟩ := h
    refine ⟨u, rest, hr, ?_⟩
    rwa [setStatus_prio]

/-- The front of the list is who runs next. -/
theorem Kernel.Tops.schedule (h : k.Tops p) : p ≤ (schedule k).prio (schedule k).cur := by
  obtain ⟨u, rest, hr, hp⟩ := h
  have hprio : (Threads.schedule k).prio = k.prio := finish_prio (o := .sched k)
  have hcur : (Threads.schedule k).cur = u := by rw [schedule_cur, nextThreadToRun, hr]
  rwa [hprio, hcur]

/-- After `wake_up`, the front of the list is not below any thread it woke. -/
theorem wakeUp_tops (hk : wakeUp now k l = some (k', l')) :
    (∀ p, k.Tops p → k'.Tops p) ∧ k'.prio = k.prio ∧
    ∀ x ∈ l.takeWhile fun x => x.wakeupTick ≤ now, k'.Tops (k.prio x.blockThreads) := by
  induction l generalizing k with
  | nil =>
    obtain ⟨rfl, rfl⟩ := Prod.mk.inj (Option.some.inj hk)
    exact ⟨fun _ h => h, rfl, by simp⟩
  | cons x l ih =>
    simp only [wakeUp] at hk
    split at hk
    · rename_i hdue
      obtain ⟨k₁, hu, hk⟩ := Option.bind_eq_some_iff.mp hk
      obtain ⟨hkeep, hprio, hrest⟩ := ih hk
      have hprio₁ := threadUnblock_prio hu
      refine ⟨fun p h => hkeep p (h.threadUnblock hu), hprio.trans hprio₁, fun y hy => ?_⟩
      rw [List.takeWhile_cons_of_pos (by simpa using hdue)] at hy
      obtain rfl | hy := List.mem_cons.mp hy
      · obtain ⟨-, rfl⟩ := threadUnblock_eq_some.mp hu
        exact hkeep _ tops_enqueue.1
      · exact hprio₁ ▸ hrest y hy
    · rename_i hdue
      obtain ⟨rfl, rfl⟩ := Prod.mk.inj (Option.some.inj hk)
      rw [List.takeWhile_cons_of_neg (by simpa using hdue)]
      exact ⟨fun _ h => h, rfl, by simp⟩

/-! ## The interrupt -/

/-- The sleepers that the handler takes off the list, and those it leaves. -/
theorem timerInterrupt_lists (hs : timerInterrupt s = some s') :
    (s.puts .tick = [] ∧ s'.blockThreadList = s.blockThreadList ∧ s'.kern = s.kern) ∨
    (s.puts .tick = (s.blockThreadList.takeWhile fun x => x.wakeupTick ≤ s.ticks + 1).map BlockThread.blockThreads ∧
      wakeUp (s.ticks + 1) s.kern s.blockThreadList = some (s'.kern, s'.blockThreadList)) := by
  simp only [timerInterrupt] at hs
  simp only [Life.puts]
  split at hs
  · rename_i hgate
    obtain ⟨⟨k, es⟩, hw, rfl⟩ := Option.map_eq_some_iff.mp hs
    rw [if_pos hgate]
    exact .inr ⟨rfl, hw⟩
  · rename_i hgate
    obtain rfl := Option.some.inj hs
    rw [if_neg hgate]
    exact .inl ⟨rfl, rfl, rfl⟩

/-- The threads that are on record as put on the ready list are those that were
sleeping and are not blocked any more, before and after the yield. -/
theorem mem_roused_tick {s₁ : Life} (hs : timerInterrupt s = some s₁) (h' : s'.Ok)
    (hl : s'.blockThreadList = s₁.blockThreadList)
    (hb : ∀ t, (s₁.kern.threads t).status ≠ .blocked → (s'.kern.threads t).status ≠ .blocked) :
    t ∈ s.roused s' ↔ t ∈ s.puts .tick := by
  have hstill {x} (hx : x ∈ s₁.blockThreadList) : (s'.kern.threads x.blockThreads).status = .blocked :=
    (h'.queues.asleepRest x (hl ▸ hx)).status
  rw [mem_roused]
  obtain ⟨hputs, hlist, -⟩ | ⟨hputs, hw⟩ := timerInterrupt_lists hs
  · rw [hputs, ← hlist]
    refine iff_of_false (fun ⟨hm, hn⟩ => ?_) (by simp)
    obtain ⟨x, hx, rfl⟩ := List.mem_map.mp hm
    exact hn (hstill hx)
  · obtain ⟨hdrop, -, hdue⟩ := wakeUp_due hw
    have hsplit : s.blockThreadList =
        (s.blockThreadList.takeWhile fun x => x.wakeupTick ≤ s.ticks + 1) ++ s₁.blockThreadList := by
      rw [hdrop, List.takeWhile_append_dropWhile]
    rw [hputs]
    constructor
    · intro ⟨hm, hn⟩
      obtain ⟨x, hx, rfl⟩ := List.mem_map.mp hm
      rw [hsplit] at hx
      exact List.mem_map_of_mem ((List.mem_append.mp hx).resolve_right fun hx => hn (hstill hx))
    · intro hm
      obtain ⟨x, hx, rfl⟩ := List.mem_map.mp hm
      exact ⟨List.mem_map_of_mem (hsplit ▸ List.mem_append_left _ hx), hb _ (hdue x hx)⟩

/-- What the handler does to the ready list. -/
theorem timerInterrupt_tops (hs : timerInterrupt s = some s') : s'.kern.prio = s.kern.prio ∧
    ∀ t ∈ s.puts .tick, s'.kern.Tops (s.kern.prio t) := by
  obtain ⟨hputs, -, hk⟩ | ⟨hputs, hw⟩ := timerInterrupt_lists hs
  · exact ⟨by rw [hk], by simp [hputs]⟩
  · obtain ⟨-, hprio, htops⟩ := wakeUp_tops hw
    refine ⟨hprio, fun t ht => ?_⟩
    rw [hputs] at ht
    obtain ⟨x, hx, rfl⟩ := List.mem_map.mp ht
    exact htops x hx

/-- A yield blocks nobody. -/
theorem yield_not_blocked (h : (k.threads t).status ≠ .blocked) :
    ((schedule (threadYield k)).threads t).status ≠ .blocked := by
  have hy : ((threadYield k).threads t).status ≠ .blocked := by
    have hst : ((k.setStatus k.cur .ready).threads t).status ≠ .blocked := by
      rw [setStatus_threads]
      split
      · simp
      · exact h
    simp only [threadYield]
    split <;> exact hst
  rw [schedule_threads]
  split
  · simp
  · exact hy

/-- The interrupt yields exactly when the time slice is over. -/
theorem intrHandler_cases {s s' : Timed} (hs : intrHandler s = some s') :
    ∃ life, timerInterrupt s.life = some life ∧
      (timeSlice ≤ s.threadTicks + 1 ∧ s'.yieldOnReturn = true ∧
        s'.life = life.finish (.sched (threadYield life.kern)) ∨
      ¬ timeSlice ≤ s.threadTicks + 1 ∧ s'.yieldOnReturn = false ∧ s'.life = life) := by
  simp only [intrHandler, Timed.timerInterrupt, Option.map_map, Option.map_eq_some_iff, Function.comp_apply] at hs
  obtain ⟨life, hl, rfl⟩ := hs
  refine ⟨life, hl, ?_⟩
  simp only [threadTick, Bool.false_or, decide_eq_true_eq]
  split
  · rename_i hslice
    exact .inl ⟨hslice, decide_eq_true hslice, rfl⟩
  · rename_i hslice
    exact .inr ⟨hslice, decide_eq_false hslice, rfl⟩

theorem intrHandler_isSome {s : Timed} (h : s.life.Ok) : (intrHandler s).isSome := by
  simp only [intrHandler, Timed.timerInterrupt, Option.isSome_map, timerInterrupt]
  split
  · rw [Option.isSome_map]
    exact wakeUp_isSome h.placed h.queues
  · rfl

theorem intrHandler_ok {s s' : Timed} (h : s.life.Ok) (hs : intrHandler s = some s') : s'.life.Ok := by
  obtain ⟨life, hl, ⟨-, -, he⟩ | ⟨-, -, he⟩⟩ := intrHandler_cases hs
  · rw [he]
    exact step_ok (e := .preempt) (h.timerInterrupt hl) rfl
  · exact he ▸ h.timerInterrupt hl

/-! ## The runs -/

theorem Timed.step_ok {s s' : Timed} (h : s.life.Ok) (hs : s.step e = some s') : s'.life.Ok := by
  cases e with
  | tick => exact intrHandler_ok h hs
  | _ =>
    simp only [Timed.step, Option.map_eq_some_iff] at hs
    obtain ⟨life, hl, rfl⟩ := hs
    exact Threads.step_ok h hl

/-- **Whether a wake-up preempts**, in every state of every run: the interrupt
does what it should exactly when the time slice of the interrupted thread is over
anyway, or no thread whose tick has come is above it. -/
theorem timer_preempts_iff {value : Nat → Nat} {es : List LifeEvent} {s : Timed}
    (hr : Run.run Timed.step (Timed.boot value) es = some s) :
    ∃ s', s.step .tick = some s' ∧ (Preempts s s' ↔ timeSlice ≤ s.threadTicks + 1 ∨
      ∀ t ∈ s.life.puts .tick, s.life.kern.prio t ≤ s.life.kern.prio s.life.kern.cur) := by
  have h : s.life.Ok := Run.run_invariant (G := fun _ _ => True) (I := fun s => s.life.Ok)
    (fun _ _ _ h _ hs => Timed.step_ok h hs) (boot_ok value) hr (Run.always_of_mem _ fun _ _ _ => trivial)
  obtain ⟨s', hs⟩ := Option.isSome_iff_exists.mp (intrHandler_isSome h)
  have h' := intrHandler_ok h hs
  obtain ⟨life, hl, hcases⟩ := intrHandler_cases hs
  obtain ⟨hprio, htops⟩ := timerInterrupt_tops hl
  refine ⟨s', hs, ?_⟩
  obtain ⟨hslice, hy, he⟩ | ⟨hslice, hy, he⟩ := hcases
  · -- the front of the ready list runs next
    refine iff_of_true (fun _ => ⟨hy, fun t ht => ?_⟩) (.inl hslice)
    have hblock : s'.life.blockThreadList = life.blockThreadList := by
      rw [he]
      simp only [Life.finish]
      split <;> rfl
    have hkern : s'.life.kern = schedule (threadYield life.kern) := by rw [he, finish_kern]; rfl
    rw [mem_roused_tick hl h' hblock fun u hu => hkern ▸ yield_not_blocked hu] at ht
    have hsame : s'.life.kern.prio = s.life.kern.prio := by
      rw [hkern]
      exact (finish_prio (o := .sched (threadYield life.kern))).trans (threadYield_prio.trans hprio)
    have hrun := (htops t ht).threadYield.schedule
    rw [← hkern, hsame] at hrun
    rwa [hsame]
  · have hroused (t : Nat) : t ∈ s.life.roused s'.life ↔ t ∈ s.life.puts .tick :=
      mem_roused_tick hl h' (by rw [he]) fun u hu => he ▸ hu
    rw [or_iff_right hslice]
    constructor
    · intro hp t ht
      by_contra hlt
      have := (hp ⟨t, (hroused t).mpr ht, not_le.mp hlt⟩).1
      simp [hy] at this
    · intro hle h
      obtain ⟨t, ht, hlt⟩ := h
      exact absurd (hle t ((hroused t).mp ht)) (not_le.mpr hlt)

/-- A thread at 40 goes to sleep until tick `w`, and the initial thread, at 31,
has the CPU. -/
def sleepAbove (w : Int) : List LifeEvent := .create 40 2 :: List.replicate 6 .part ++ [.sleep w]

/-- The thread's tick is the one that ends the time slice. -/
theorem timer_preempts_slice : ∃ s s', Run.run Timed.step (Timed.boot fun _ => 0)
      (sleepAbove 4 ++ List.replicate 3 .tick) = some s ∧
    s.step .tick = some s' ∧ s.life.puts .tick = [2] ∧ s.life.kern.cur = 0 ∧ Preempts s s' := by
  obtain ⟨s, hs, hd⟩ := (Option.any_eq_true _ _).mp
    (show (Run.run Timed.step (Timed.boot fun _ => 0) (sleepAbove 4 ++ List.replicate 3 .tick)).any (fun s =>
      decide (s.threadTicks = 3 ∧ s.life.puts .tick = [2] ∧ s.life.kern.cur = 0)) = true by decide +kernel)
  obtain ⟨hticks, hputs, hcur⟩ := of_decide_eq_true hd
  obtain ⟨s', hs', hiff⟩ := timer_preempts_iff hs
  exact ⟨s, s', hs, hs', hputs, hcur, hiff.mpr (.inl (by rw [hticks]; decide))⟩

/-- The first tick makes it ready, and the initial thread goes on. -/
theorem not_timer_preempts : ¬ ∀ (value : Nat → Nat) (es : List LifeEvent) (s s' : Timed),
    Run.run Timed.step (Timed.boot value) es = some s → s.step .tick = some s' → Preempts s s' := by
  intro hall
  obtain ⟨s, hs, hd⟩ := (Option.any_eq_true _ _).mp
    (show (Run.run Timed.step (Timed.boot fun _ => 0) (sleepAbove 1)).any (fun s => (s.step .tick).any fun s' =>
      decide (s.life.roused s'.life = [2] ∧ s.life.kern.prio s.life.kern.cur = 31 ∧ s.life.kern.prio 2 = 40 ∧
        s'.yieldOnReturn = false)) = true by decide +kernel)
  obtain ⟨s', hs', hd⟩ := (Option.any_eq_true _ _).mp hd
  obtain ⟨hroused, hcur, hwoken, hyield⟩ := of_decide_eq_true hd
  have := (hall _ _ s s' hs hs' ⟨2, by simp [hroused], by omega⟩).1
  simp [hyield] at this

end PintosKaist.Threads
