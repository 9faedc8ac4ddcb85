/-
The alarm clock: when the threads that called `timer_sleep` are unblocked.

`closet_tick` stands for the front of `block_thread_list`, and `NULL`, which is
0, for an empty list. So it agrees with the list as long as nobody makes it 0 by
going to sleep until tick 0; a thread that does is not woken, and nobody is until
another one goes to sleep.
-/
import PintosKaist.Threads.LifeRuns

namespace PintosKaist.Threads

open OrdList

variable {k k' : Kernel} {t : Nat} {now w : Int} {s s' : Life} {e : LifeEvent} {l l' : List BlockThread}

/-- The order of `compare_tick`. -/
def bySoonest (e : BlockThread) : Int := -e.wakeupTick

/-! ## What has happened -/

/-- A call of `timer_sleep`: who, until when, and the tick at which it put the
thread to sleep. -/
structure Sleep where
  thread : Nat
  wakeupTick : Int
  since : Int
  deriving DecidableEq

/-- The first timer interrupt after it whose tick is at least `wakeup_tick`. -/
def Sleep.due (c : Sleep) : Int := max c.wakeupTick (c.since + 1)

/-- The system with a record of the calls of `timer_sleep`, and of who was
unblocked while it was in `block_thread_list`, by whatever step, and when. -/
structure Alarm where
  life : Life
  slept : List Sleep
  unblocked : List (Nat × Int)

/-- The sleepers of `s` that are not blocked any more in `s'`. -/
def Life.roused (s s' : Life) : List Nat :=
  (s.blockThreadList.map BlockThread.blockThreads).filter fun t => (s'.kern.threads t).status ≠ .blocked

def Life.sleeps (s : Life) : LifeEvent → List Sleep
  | .sleep w => [⟨s.kern.cur, w, s.ticks⟩]
  | _ => []

def Alarm.step (a : Alarm) (e : LifeEvent) : Option Alarm :=
  (a.life.step e).map fun s' =>
    { life := s'
      slept := a.slept ++ a.life.sleeps e
      unblocked := a.unblocked ++ (a.life.roused s').map fun t => (t, s'.ticks) }

def Alarm.boot (value : Nat → Nat) : Alarm := ⟨Life.boot value, [], []⟩

/-- The ticks at which thread `t` was to be woken, and was. -/
def Alarm.dues (a : Alarm) (t : Nat) : List Int := (a.slept.filter fun c => c.thread = t).map Sleep.due
def Alarm.wakes (a : Alarm) (t : Nat) : List Int := (a.unblocked.filter fun u => u.1 = t).map Prod.snd

/-- The list is sorted, and every call of `timer_sleep` has ended at its tick,
but for the last one of each thread in the list: that tick is still to come, and
the thread is blocked. -/
structure Alarm.OnTime (a : Alarm) : Prop where
  sorted : a.life.blockThreadList.Pairwise fun x y => x.wakeupTick ≤ y.wakeupTick
  awake : ∀ t, t ∉ a.life.blockThreadList.map BlockThread.blockThreads → a.wakes t = a.dues t
  asleep : ∀ x ∈ a.life.blockThreadList, (a.life.kern.threads x.blockThreads).status = .blocked ∧
    ∃ c ∈ a.slept, c.thread = x.blockThreads ∧ c.wakeupTick = x.wakeupTick ∧ a.life.ticks < c.due ∧
      a.dues x.blockThreads = a.wakes x.blockThreads ++ [c.due]

/-- The step does not put the sentinel in `closet_tick`: a thread that goes to
sleep until tick 0 finds an earlier tick there. -/
def NoNullTick (a : Alarm) : LifeEvent → Prop
  | .sleep w => w = 0 → a.life.closetTick < 0
  | _ => True

instance {a : Alarm} : Decidable (NoNullTick a e) := by
  unfold NoNullTick
  split <;> infer_instance

/-! ## `wake_up` -/

/-- `wake_up` takes the due threads off the front, and none of them is blocked
afterwards. -/
theorem wakeUp_due (hk : wakeUp now k l = some (k', l')) :
    l' = l.dropWhile (fun x => x.wakeupTick ≤ now) ∧
    (∀ t, (k.threads t).status ≠ .blocked → (k'.threads t).status ≠ .blocked) ∧
    ∀ x ∈ l.takeWhile fun x => x.wakeupTick ≤ now, (k'.threads x.blockThreads).status ≠ .blocked := by
  induction l generalizing k with
  | nil =>
    obtain ⟨rfl, rfl⟩ := Prod.mk.inj (Option.some.inj hk)
    exact ⟨rfl, fun _ h => h, by simp⟩
  | cons x l ih =>
    simp only [wakeUp] at hk
    split at hk
    · rename_i hdue
      obtain ⟨k₁, hu, hk⟩ := Option.bind_eq_some_iff.mp hk
      obtain ⟨hl, hkeep, hrest⟩ := ih hk
      obtain ⟨-, rfl⟩ := threadUnblock_eq_some.mp hu
      rw [List.dropWhile_cons_of_pos (by simpa using hdue), List.takeWhile_cons_of_pos (by simpa using hdue)]
      refine ⟨hl, fun t ht => hkeep t ?_, fun y hy => ?_⟩
      · rw [setReady_threads, setStatus_threads]
        split
        · simp
        · exact ht
      · obtain rfl | hy := List.mem_cons.mp hy
        · refine hkeep _ ?_
          rw [setReady_threads, setStatus_threads, if_pos rfl]
          simp
        · exact hrest y hy
    · rename_i hdue
      obtain ⟨rfl, rfl⟩ := Prod.mk.inj (Option.some.inj hk)
      rw [List.dropWhile_cons_of_neg (by simpa using hdue), List.takeWhile_cons_of_neg (by simpa using hdue)]
      exact ⟨rfl, fun _ h => h, by simp⟩

/-! ## The cache -/

/-- The tick at the front of the list, or the sentinel. -/
def closetOf : List BlockThread → Int
  | [] => 0
  | x :: _ => x.wakeupTick

/-- `closet_tick` agrees with the list, which is sorted, and the sentinel is
nobody's tick to be woken at; what is left in the list is for a later tick or
has just been put there. -/
structure Life.Clock (s : Life) : Prop where
  ticks : 0 ≤ s.ticks
  sorted : Desc bySoonest s.blockThreadList
  closet : s.closetTick = closetOf s.blockThreadList
  null : s.closetTick = 0 → s.blockThreadList = []

theorem Life.Clock.congr (h : s.Clock) (ht : s'.ticks = s.ticks) (hl : s'.blockThreadList = s.blockThreadList)
    (hc : s'.closetTick = s.closetTick) : s'.Clock :=
  ⟨ht ▸ h.ticks, hl ▸ h.sorted, by rw [hc, hl]; exact h.closet, by rw [hc, hl]; exact h.null⟩

theorem Life.Clock.timerSleep (h : s.Clock) (hw : w = 0 → s.closetTick < 0) : (timerSleep s w).Clock := by
  have hcloset : (Threads.timerSleep s w).closetTick = closetOf (Threads.timerSleep s w).blockThreadList := by
    simp only [Threads.timerSleep, insertBy]
    cases hl : s.blockThreadList with
    | nil => rw [if_pos (.inl (by rw [h.closet, hl]; rfl))]; rfl
    | cons x l =>
      have hc : s.closetTick = x.wakeupTick := by rw [h.closet, hl]; rfl
      have hne : s.closetTick ≠ 0 := fun h0 => by simp [h.null h0] at hl
      rw [List.orderedInsert_cons]
      by_cases hlt : w < x.wakeupTick
      · rw [if_pos (.inr (hc ▸ hlt)), if_pos (by simpa using hlt)]
        rfl
      · rw [if_neg (by omega), if_neg (by simpa using hlt)]
        exact hc
  refine ⟨h.ticks, h.sorted.insertBy _, hcloset, fun h0 => absurd h0 ?_⟩
  simp only [Threads.timerSleep]
  split <;> omega

/-- The threads whose tick has come are at the front. -/
theorem dropWhile_due (h : Desc bySoonest l) : l.dropWhile (fun x => x.wakeupTick ≤ now) =
    l.filter fun x => now < x.wakeupTick := by
  induction l with
  | nil => rfl
  | cons x l ih =>
    by_cases hx : x.wakeupTick ≤ now
    · rw [List.dropWhile_cons_of_pos (by simpa using hx), List.filter_cons_of_neg (by simpa using hx), ih h.tail]
    · rw [List.dropWhile_cons_of_neg (by simpa using hx), List.filter_eq_self.mpr]
      intro y hy
      have hx : now < x.wakeupTick := not_le.mp hx
      obtain rfl | hy := List.mem_cons.mp hy
      · simpa using hx
      · have := h.head_max y hy
        simp only [bySoonest] at this
        simp only [decide_eq_true_eq]
        omega

/-- **What a timer interrupt does to the sleepers**: those whose tick has come
are taken off the list and are not blocked any more, the others stay. -/
theorem timerInterrupt_due (h : s.Clock) (hs : timerInterrupt s = some s') :
    s'.ticks = s.ticks + 1 ∧ s'.Clock ∧
    s'.blockThreadList = s.blockThreadList.filter (fun x => s.ticks + 1 < x.wakeupTick) ∧
    ∀ x ∈ s.blockThreadList, x.wakeupTick ≤ s.ticks + 1 → (s'.kern.threads x.blockThreads).status ≠ .blocked := by
  have hticks := h.ticks
  simp only [timerInterrupt] at hs
  split at hs
  · obtain ⟨⟨k, es⟩, hw, rfl⟩ := Option.map_eq_some_iff.mp hs
    obtain ⟨hl, -, hdue⟩ := wakeUp_due hw
    rw [dropWhile_due h.sorted] at hl
    refine ⟨rfl, ⟨by show 0 ≤ s.ticks + 1; omega, hl ▸ h.sorted.filter _, by cases es <;> rfl, fun h0 => ?_⟩, hl, ?_⟩
    · -- what is left is for a tick after this one
      cases hes : es with
      | nil => rfl
      | cons x es' =>
        have hx : x ∈ es := hes ▸ List.mem_cons_self
        rw [hl, List.mem_filter] at hx
        simp only [hes, decide_eq_true_eq] at h0 hx
        omega
    · intro x hx hle
      refine hdue x ?_
      have hx := List.takeWhile_append_dropWhile (p := fun x : BlockThread => x.wakeupTick ≤ s.ticks + 1)
        (l := s.blockThreadList) ▸ hx
      refine (List.mem_append.mp hx).resolve_right fun hd => ?_
      rw [dropWhile_due h.sorted, List.mem_filter] at hd
      simp only [decide_eq_true_eq] at hd
      omega
  · rename_i hgate
    obtain rfl := Option.some.inj hs
    -- the list is empty, or its front is for a later tick
    have hlate : ∀ x ∈ s.blockThreadList, s.ticks + 1 < x.wakeupTick := by
      intro x hx
      have hne : s.closetTick ≠ 0 := fun h0 => by simp [h.null h0] at hx
      have hc := h.closet
      cases hl : s.blockThreadList with
      | nil => simp [hl] at hx
      | cons y l =>
        have hd := hl ▸ h.sorted
        rw [hl] at hx hc
        simp only [closetOf] at hc
        obtain rfl | hx := List.mem_cons.mp hx
        · omega
        · have := hd.head_max x hx
          simp only [bySoonest] at this
          omega
    refine ⟨rfl, ⟨by show 0 ≤ s.ticks + 1; omega, h.sorted, h.closet, h.null⟩, ?_, fun x hx hle => ?_⟩
    · exact (List.filter_eq_self.mpr fun x hx => by simpa using hlate x hx).symm
    · have := hlate x hx
      omega

/-- The other steps leave the clock and the sleepers alone. -/
theorem step_sleepers (hs : s.step e = some s') (hsleep : ∀ w, e ≠ .sleep w) (htick : e ≠ .tick) :
    s'.ticks = s.ticks ∧ s'.blockThreadList = s.blockThreadList ∧ s'.closetTick = s.closetTick := by
  have finish {s : Life} {o : Out} : (s.finish o).ticks = s.ticks ∧
      (s.finish o).blockThreadList = s.blockThreadList ∧ (s.finish o).closetTick = s.closetTick := by
    cases o with
    | done k => exact ⟨rfl, rfl, rfl⟩
    | sched k =>
      simp only [Life.finish]
      split <;> exact ⟨rfl, rfl, rfl⟩
  cases e with
  | call | create | block | exit =>
    simp only [Life.step, Option.ite_none_right_eq_some, Option.some.injEq] at hs
    obtain ⟨-, rfl⟩ := hs
    exact ⟨rfl, rfl, rfl⟩
  | part =>
    simp only [Life.step, Life.part] at hs
    split at hs
    · cases hs
    · rename_i m ms _
      simp only [Option.ite_none_left_eq_some, Option.map_eq_some_iff] at hs
      obtain ⟨-, o, -, rfl⟩ := hs
      obtain ⟨h₁, h₂, h₃⟩ := finish (s := s.record m) (o := o)
      rw [h₁, h₂, h₃]
      cases m <;> exact ⟨rfl, rfl, rfl⟩
  | unblock t =>
    simp only [Life.step, Option.ite_none_right_eq_some, Option.map_eq_some_iff] at hs
    obtain ⟨-, k, -, rfl⟩ := hs
    exact ⟨rfl, rfl, rfl⟩
  | sleep w => exact absurd rfl (hsleep w)
  | tick => exact absurd rfl htick
  | preempt =>
    obtain rfl := Option.some.inj hs
    exact finish
  | handlerUp n =>
    simp only [Life.step, Option.map_eq_some_iff] at hs
    obtain ⟨k, -, rfl⟩ := hs
    exact ⟨rfl, rfl, rfl⟩
  | tryDown | priorities =>
    obtain rfl := Option.some.inj hs
    exact ⟨rfl, rfl, rfl⟩

/-! ## The runs -/

structure Alarm.Ok (a : Alarm) : Prop extends a.OnTime where
  life : a.life.Ok
  clock : a.life.Clock
  since : ∀ c ∈ a.slept, c.since ≤ a.life.ticks

variable {a a' : Alarm}

theorem mem_roused : t ∈ s.roused s' ↔
    t ∈ s.blockThreadList.map BlockThread.blockThreads ∧ (s'.kern.threads t).status ≠ .blocked := by
  simp only [Life.roused, List.mem_filter, decide_eq_true_eq]

/-- Sleepers that stay in the list are not unblocked. -/
theorem roused_eq_nil (h : s'.Ok) (hsub : ∀ x ∈ s.blockThreadList, x ∈ s'.blockThreadList) : s.roused s' = [] := by
  refine List.eq_nil_iff_forall_not_mem.mpr fun t ht => ?_
  obtain ⟨hm, hb⟩ := mem_roused.mp ht
  obtain ⟨x, hx, rfl⟩ := List.mem_map.mp hm
  exact hb (h.queues.asleepRest x (hsub x hx)).status

/-- A step that leaves the clock and the sleepers alone. -/
theorem Alarm.Ok.still (h : a.Ok) (hs : s'.Ok) (ht : s'.ticks = a.life.ticks)
    (hl : s'.blockThreadList = a.life.blockThreadList) (hc : s'.closetTick = a.life.closetTick) :
    Alarm.Ok { a with life := s' } where
  sorted := by
    show s'.blockThreadList.Pairwise _
    rw [hl]
    exact h.sorted
  awake t hn := h.awake t (by rw [← hl]; exact hn)
  asleep x hx := by
    obtain ⟨-, hx'⟩ := h.asleep x (hl ▸ hx)
    exact ⟨(hs.queues.asleepRest x hx).status, by show ∃ c ∈ _, _ ∧ _ ∧ s'.ticks < _ ∧ _; rw [ht]; exact hx'⟩
  life := hs
  clock := h.clock.congr ht hl hc
  since c hc := by
    show c.since ≤ s'.ticks
    rw [ht]
    exact h.since c hc

theorem Life.Clock.pairwise (h : s.Clock) : s.blockThreadList.Pairwise fun x y => x.wakeupTick ≤ y.wakeupTick :=
  h.sorted.imp fun hxy => by simpa [bySoonest] using hxy

/-- The running thread goes to sleep. -/
theorem Alarm.Ok.sleep (h : a.Ok) (hs : (timerSleep a.life w).Ok) (hw : w = 0 → a.life.closetTick < 0) :
    Alarm.Ok { a with
      life := timerSleep a.life w
      slept := a.slept ++ [⟨a.life.kern.cur, w, a.life.ticks⟩] } where
  sorted := (h.clock.timerSleep hw).pairwise
  awake t ht := by
    have hne : t ≠ a.life.kern.cur := fun he => ht (List.mem_map.mpr ⟨⟨a.life.kern.cur, w⟩, by simp [timerSleep], he.symm⟩)
    have hold : t ∉ a.life.blockThreadList.map BlockThread.blockThreads := by
      intro hm
      obtain ⟨x, hx, rfl⟩ := List.mem_map.mp hm
      exact ht (List.mem_map.mpr ⟨x, mem_insertBy.mpr (.inr hx), rfl⟩)
    have := h.awake t hold
    simp only [wakes, dues, List.filter_append, List.map_append] at this ⊢
    rw [this, List.filter_cons_of_neg (by simpa using hne.symm), List.filter_nil, List.map_nil, List.append_nil]
  asleep x hx := by
    refine ⟨(hs.queues.asleepRest x hx).status, ?_⟩
    obtain rfl | hx := mem_insertBy.mp hx
    · refine ⟨⟨a.life.kern.cur, w, a.life.ticks⟩, by simp, rfl, rfl, ?_, ?_⟩
      · show a.life.ticks < max w (a.life.ticks + 1)
        omega
      · have := h.awake _ h.life.cur_not_asleep
        simp only [wakes, dues, List.filter_append, List.map_append] at this ⊢
        rw [this, List.filter_cons_of_pos (by simp)]
        rfl
    · obtain ⟨-, c, hc, hthread, htick, hlt, hdue⟩ := h.asleep x hx
      have hne : a.life.kern.cur ≠ x.blockThreads := fun he =>
        h.life.cur_not_asleep (List.mem_map.mpr ⟨x, hx, he.symm⟩)
      refine ⟨c, List.mem_append_left _ hc, hthread, htick, hlt, ?_⟩
      simp only [wakes, dues, List.filter_append, List.map_append] at hdue ⊢
      rw [hdue, List.filter_cons_of_neg (by simpa using hne), List.filter_nil, List.map_nil, List.append_nil]
  life := hs
  clock := h.clock.timerSleep hw
  since c hc := by
    obtain hc | hc := List.mem_append.mp hc
    · exact h.since c hc
    · rw [List.mem_singleton.mp hc]
      exact le_rfl

theorem roused_nodup (h : s.Ok) : (s.roused s').Nodup :=
  (List.nodup_append.mp h.queues.blockedNodup).2.1.filter _

/-- A thread is on record once for the step that unblocked it. -/
theorem filter_roused {r : List Nat} (hr : r.Nodup) :
    ((r.map fun u => (u, now)).filter fun u => u.1 = t).map Prod.snd = if t ∈ r then [now] else [] := by
  induction r with
  | nil => rfl
  | cons u r ih =>
    obtain ⟨hu, hr⟩ := List.nodup_cons.mp hr
    have ih := ih hr
    rw [List.map_cons]
    by_cases he : u = t
    · subst he
      rw [if_neg hu] at ih
      rw [List.filter_cons_of_pos (by simp), List.map_cons, ih, if_pos List.mem_cons_self]
    · rw [List.filter_cons_of_neg (by simpa using he), ih]
      simp [Ne.symm he]

theorem Alarm.Ok.tick (h : a.Ok) (hs : timerInterrupt a.life = some s') : Alarm.Ok { a with
    life := s'
    unblocked := a.unblocked ++ (a.life.roused s').map fun t => (t, s'.ticks) } := by
  have hok := h.life.timerInterrupt hs
  obtain ⟨hticks, hclock, hlist, hdue⟩ := timerInterrupt_due h.clock hs
  have hmem {x} : x ∈ s'.blockThreadList ↔ x ∈ a.life.blockThreadList ∧ a.life.ticks + 1 < x.wakeupTick := by
    rw [hlist, List.mem_filter, decide_eq_true_eq]
  have hwakes (t : Nat) : ((a.unblocked ++ (a.life.roused s').map fun t => (t, s'.ticks)).filter fun u =>
      u.1 = t).map Prod.snd = a.wakes t ++ if t ∈ a.life.roused s' then [s'.ticks] else [] := by
    rw [List.filter_append, List.map_append, filter_roused (roused_nodup h.life), wakes]
  refine ⟨⟨hclock.pairwise, fun t ht => (hwakes t).trans ?_, fun x hx => ⟨(hok.queues.asleepRest x hx).status, ?_⟩⟩,
    hok, hclock, fun c hc => ?_⟩
  · by_cases hin : t ∈ a.life.blockThreadList.map BlockThread.blockThreads
    · -- its tick has come
      obtain ⟨x, hx, rfl⟩ := List.mem_map.mp hin
      have hle : x.wakeupTick ≤ a.life.ticks + 1 := not_lt.mp fun hlt =>
        ht (List.mem_map.mpr ⟨x, hmem.mpr ⟨hx, hlt⟩, rfl⟩)
      obtain ⟨-, c, hc, hthread, htick, hlt, hdues⟩ := h.asleep x hx
      have hsince := h.since c hc
      have hnow : c.due = s'.ticks := by
        simp only [Sleep.due] at hlt ⊢
        omega
      rw [if_pos (mem_roused.mpr ⟨hin, hdue x hx hle⟩), ← hnow]
      exact hdues.symm
    · rw [if_neg fun hr => hin (mem_roused.mp hr).1, List.append_nil]
      exact h.awake t hin
  · obtain ⟨hold, hlt⟩ := hmem.mp hx
    obtain ⟨-, c, hc, hthread, htick, -, hdues⟩ := h.asleep x hold
    have hblocked := (hok.queues.asleepRest x hx).status
    refine ⟨c, hc, hthread, htick, ?_, ?_⟩
    · show s'.ticks < max c.wakeupTick (c.since + 1)
      omega
    · refine hdues.trans (congrArg (· ++ [c.due]) ?_)
      refine Eq.symm ((hwakes x.blockThreads).trans ?_)
      rw [if_neg fun hr => (mem_roused.mp hr).2 hblocked, List.append_nil]
  · have := h.since c hc
    show c.since ≤ s'.ticks
    omega

theorem step_alarm (h : a.Ok) (hn : NoNullTick a e) (hs : a.step e = some a') : a'.Ok := by
  obtain ⟨s', hstep, rfl⟩ := Option.map_eq_some_iff.mp hs
  have hok := step_ok h.life hstep
  have still (hsleep : ∀ w, e ≠ .sleep w) (htick : e ≠ .tick) : Alarm.Ok
      ⟨s', a.slept ++ a.life.sleeps e, a.unblocked ++ (a.life.roused s').map fun t => (t, s'.ticks)⟩ := by
    obtain ⟨ht, hl, hc⟩ := step_sleepers hstep hsleep htick
    have hsl : a.life.sleeps e = [] := by
      cases e with
      | sleep w => exact absurd rfl (hsleep w)
      | _ => rfl
    rw [hsl, roused_eq_nil hok fun x hx => hl ▸ hx, List.append_nil, List.map_nil, List.append_nil]
    exact h.still hok ht hl hc
  cases e with
  | sleep w =>
    simp only [Life.step, Option.ite_none_right_eq_some, Option.some.injEq] at hstep
    obtain ⟨-, rfl⟩ := hstep
    rw [roused_eq_nil hok fun x hx => mem_insertBy.mpr (.inr hx), List.map_nil, List.append_nil]
    exact h.sleep hok hn
  | tick =>
    simp only [Life.sleeps, List.append_nil]
    exact h.tick hstep
  | _ => exact still (by simp) (by simp)

theorem Alarm.boot_ok (value : Nat → Nat) : (Alarm.boot value).Ok where
  sorted := List.Pairwise.nil
  awake _ _ := rfl
  asleep := by simp [Alarm.boot, Life.boot]
  life := Threads.boot_ok value
  clock := ⟨le_rfl, List.Pairwise.nil, rfl, fun _ => rfl⟩
  since := by simp [Alarm.boot]

/-- **Sleepers wake on time, once**, in every run in which the sentinel is
never put in `closet_tick`. -/
theorem sleepers_onTime {value : Nat → Nat} {es : List LifeEvent}
    (hr : Run.run Alarm.step (Alarm.boot value) es = some a)
    (hn : Run.Always Alarm.step NoNullTick (Alarm.boot value) es) : a.OnTime :=
  (Run.run_invariant (fun _ _ _ h hn hs => step_alarm h hn hs) (Alarm.boot_ok value) hr hn).toOnTime

/-- The initial thread sleeps until a tick long past, and a thread it has
created until tick 0 and then until tick 3. -/
def pastRun : List LifeEvent :=
  .create 31 2 :: List.replicate 6 .part ++ [.sleep (-100), .sleep 0, .tick, .preempt, .preempt, .sleep 3, .tick, .tick]

theorem sleepers_onTime_past : ∃ a, Run.run Alarm.step (Alarm.boot fun _ => 0) pastRun = some a ∧
    a.unblocked = [(0, 1), (2, 1), (2, 3)] ∧ a.OnTime := by
  obtain ⟨a, ha, hd⟩ := (Option.any_eq_true _ _).mp
    (show (Run.run Alarm.step (Alarm.boot fun _ => 0) pastRun).any (fun a =>
      decide (a.unblocked = [(0, 1), (2, 1), (2, 3)])) = true by decide +kernel)
  exact ⟨a, ha, of_decide_eq_true hd, sleepers_onTime ha (by decide +kernel)⟩

/-- `timer_sleep (0)` before the first tick, and that tick: the thread is still
asleep. -/
theorem not_onTime_null : ¬ ∀ (value : Nat → Nat) (es : List LifeEvent) (a : Alarm),
    Run.run Alarm.step (Alarm.boot value) es = some a → a.OnTime := by
  intro hall
  obtain ⟨a, ha, hd⟩ := (Option.any_eq_true _ _).mp
    (show (Run.run Alarm.step (Alarm.boot fun _ => 0) [.sleep 0, .tick]).any (fun a =>
      decide (a.life.blockThreadList = [⟨0, 0⟩] ∧ a.life.ticks = 1 ∧ a.slept = [⟨0, 0, 0⟩])) = true by decide +kernel)
  obtain ⟨hl, ht, hs⟩ := of_decide_eq_true hd
  obtain ⟨-, c, hc, -, -, hlt, -⟩ := (hall _ _ a ha).asleep ⟨0, 0⟩ (by simp [hl])
  rw [hs, List.mem_singleton] at hc
  subst hc
  rw [ht] at hlt
  exact absurd hlt (by decide)

end PintosKaist.Threads
