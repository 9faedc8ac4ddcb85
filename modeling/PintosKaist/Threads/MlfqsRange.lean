/-
The ranges of `recent_cpu` and `load_avg`, over runs of any length in which the
threads are scheduled, block and exit in any way.

The load average follows the number of ready threads, and the `recent_cpu` of a
thread grows for a second and is then cut by a factor that the load average
keeps under 1: both stay in a range that fits. The idle thread's `recent_cpu` is
the exception: it grows with every tick that finds the thread running, and
`update_recent_cpu_all` passes over it. And a thread that has exited is still on
`all_list`: once its page is freed, the next walk computes on what is there.
-/
import PintosKaist.Threads.FixedPoint

namespace PintosKaist.Threads

open CInt

variable {s s' : Mlfqs} {k k' : Kernel} {t : Nat} {n : Int}

/-! ## The machine -/

/-- A kernel whose lists agree with the statuses of its threads. -/
structure SaneKernel extends Kernel where
  sane : Sane toKernel

/-- What happens next, as far as the scheduler's numbers go. -/
inductive RangeEvent where
  | tick
  | create (p : Int)
  | setNice (nice : Int)
  | getRecentCpu
  | getLoadAvg
  /-- Whatever else the threads and the handlers do: switches, waits, wake-ups,
  calls on locks and semaphores, exits. -/
  | other (k : SaneKernel) (later : Nat → List Job)
  /-- `do_schedule` frees the page of a thread that has exited. -/
  | free (t : Nat)

/-- The threads are those of `k`, and the dead ones stay dead. -/
def Kernel.Continues (k k' : Kernel) : Prop :=
  k'.next = k.next ∧ k'.idleThread = k.idleThread ∧
    ∀ t < k.next, (k.threads t).status = .dying → (k'.threads t).status = .dying

instance : Decidable (k.Continues k') := inferInstanceAs (Decidable (_ ∧ _ ∧ _))

/-- An `int` in a freed page: four bytes 0xcc. -/
def freedInt : Int := wrap 0xcccccccc

/-- `palloc_free_page` fills the page of `t`; the initial thread's is not freed. -/
def Mlfqs.freePage (s : Mlfqs) (t : Nat) : Mlfqs :=
  { s with
    recentCpu := Function.update s.recentCpu t freedInt
    nice := Function.update s.nice t freedInt
    freed := t :: s.freed }

def rangeStep (s : Mlfqs) : RangeEvent → Option Mlfqs
  | .tick => some (mlfqsOnTick s)
  | .create p =>
    if s.kern.cur ≠ s.kern.idleThread ∧ priMin ≤ p ∧ p ≤ priMax then some (s.create p) else none
  | .setNice nice => if s.kern.cur ≠ s.kern.idleThread then some (threadSetNice s nice) else none
  | .getRecentCpu | .getLoadAvg => some s
  | .other k later =>
    if s.kern.Continues k.toKernel then some { s with kern := k.toKernel, later := later } else none
  | .free t =>
    if (s.kern.threads t).status = .dying ∧ t ≠ s.kern.idleThread ∧ t ≠ 0 ∧ t ∉ s.freed then some (s.freePage t)
    else none

/-- The threads on `all_list` that are neither dying nor the idle thread. -/
def Mlfqs.live (s : Mlfqs) : List Nat :=
  s.allList.filter fun t => (s.kern.threads t).status ≠ .dying ∧ t ≠ s.kern.idleThread

/-- There are at most 60 threads, and nice values are from -20 to 20. -/
def Limits (s : Mlfqs) (e : RangeEvent) : Prop :=
  s.live.length ≤ 60 ∧
    match e with
    | .setNice nice => -20 ≤ nice ∧ nice ≤ 20
    | _ => True

instance {e : RangeEvent} : Decidable (Limits s e) := by
  unfold Limits
  cases e <;> infer_instance

/-- No freed page is on `all_list` when the event walks along it or adds to it. -/
def Intact (s : Mlfqs) : RangeEvent → Prop
  | .tick => (s.ticks + 1) % 4 = 0 → s.freed = []
  | .create _ => s.freed = []
  | _ => True

instance {e : RangeEvent} : Decidable (Intact s e) := by
  unfold Intact
  cases e <;> infer_instance

/-- No operation of the event's arithmetic overflows or divides by zero. -/
def Fits (s : Mlfqs) : RangeEvent → Prop
  | .tick => (Checked.mlfqsOnTick s).isSome
  | .create p =>
    let s₁ := s.create p
    (Checked.newPriority (s₁.recentCpu s.kern.next) (s₁.nice s.kern.next)).isSome
  | .setNice nice => (Checked.newPriority (s.recentCpu s.kern.cur) nice).isSome
  | .getRecentCpu => (Checked.threadGetRecentCpu s).isSome
  | .getLoadAvg => (Checked.threadGetLoadAvg s).isSome
  | .other .. | .free _ => True

/-! ## The loops -/

/-- A loop that gives each of its threads a new value out of its old one. -/
theorem foldlM_update (skip : Nat → Prop) [DecidablePred skip] (g : Nat → Int → Option Int) (g' : Nat → Int → Int)
    {ts : List Nat} (recent : Nat → Int) (hn : ts.Nodup)
    (h : ∀ t ∈ ts, ¬ skip t → g t (recent t) = some (g' t (recent t))) :
    ts.foldlM (fun rec t => if skip t then some rec else (g t (rec t)).bind fun r => some (Function.update rec t r))
        recent =
        some (ts.foldl (fun rec t => if skip t then rec else Function.update rec t (g' t (rec t))) recent) ∧
      ∀ t, ts.foldl (fun rec t => if skip t then rec else Function.update rec t (g' t (rec t))) recent t =
        if t ∈ ts ∧ ¬ skip t then g' t (recent t) else recent t := by
  induction ts generalizing recent with
  | nil => exact ⟨rfl, fun t => by simp⟩
  | cons u ts ih =>
    obtain ⟨hu, hn⟩ := List.nodup_cons.mp hn
    simp only [List.foldlM_cons, List.foldl_cons, Option.bind_eq_bind]
    by_cases hskip : skip u
    · simp only [if_pos hskip, Option.bind_some]
      obtain ⟨h₁, h₂⟩ := ih recent hn fun t ht => h t (List.mem_cons_of_mem _ ht)
      refine ⟨h₁, fun t => (h₂ t).trans ?_⟩
      by_cases ht : t = u
      · subst ht
        simp [hskip]
      · simp [ht]
    · simp only [if_neg hskip, h u List.mem_cons_self hskip, Option.bind_some]
      have hkeep {t} (ht : t ≠ u) : Function.update recent u (g' u (recent u)) t = recent t :=
        Function.update_of_ne ht _ _
      obtain ⟨h₁, h₂⟩ := ih (Function.update recent u (g' u (recent u))) hn fun t ht hs => by
        have hne : t ≠ u := fun he => hu (he ▸ ht)
        rw [hkeep hne]
        exact h t (List.mem_cons_of_mem _ ht) hs
      refine ⟨h₁, fun t => (h₂ t).trans ?_⟩
      by_cases ht : t = u
      · subst ht
        simp [hskip, hu]
      · simp [ht]

/-- A loop none of whose turns fails. -/
theorem foldlM_some {α : Type} {f : α → Nat → Option α} {f' : α → Nat → α} {ts : List Nat} {a : α}
    (h : ∀ t ∈ ts, ∀ a, f a t = some (f' a t)) : ts.foldlM f a = some (ts.foldl f' a) := by
  induction ts generalizing a with
  | nil => rfl
  | cons t ts ih =>
    rw [List.foldlM_cons, h t List.mem_cons_self, List.foldl_cons]
    exact ih fun u hu => h u (List.mem_cons_of_mem _ hu)

/-- A loop one of whose turns fails whenever it comes to it. -/
theorem foldlM_none {α : Type} {f : α → Nat → Option α} {ts : List Nat} (ht : t ∈ ts) (hf : ∀ a, f a t = none) (a : α) :
    ts.foldlM f a = none := by
  induction ts generalizing a with
  | nil => cases ht
  | cons u ts ih =>
    rw [List.foldlM_cons]
    cases hfu : f a u with
    | none => rfl
    | some b =>
      obtain rfl | ht := List.mem_cons.mp ht
      · rw [hf] at hfu
        cases hfu
      · exact ih ht b

/-! ## The invariant -/

/-- The numbers of the threads that are neither dying nor idle. -/
structure Bounded (s : Mlfqs) (top : Int) : Prop where
  low : ∀ t ∈ s.live, -39649280 ≤ s.recentCpu t
  high : ∀ t ∈ s.live, s.recentCpu t ≤ top
  nice : ∀ t ∈ s.live, -20 ≤ s.nice t ∧ s.nice t ≤ 20

/-- How far `recent_cpu` can get: by one unit a tick, from where the last second
left it. -/
structure InRange (s : Mlfqs) : Prop where
  sane : Sane s.kern
  listed : s.allList = List.range s.kern.next
  load : 0 ≤ s.loadAvg ∧ s.loadAvg ≤ 983040
  idle : -2147483648 ≤ s.recentCpu s.kern.idleThread ∧ s.recentCpu s.kern.idleThread < 2147483648
  bounded : Bounded s (236257280 + (s.ticks % 100 : Nat) * 16384)

theorem mem_live : t ∈ s.live ↔ t ∈ s.allList ∧ (s.kern.threads t).status ≠ .dying ∧ t ≠ s.kern.idleThread := by
  simp [Mlfqs.live]

theorem not_skips_iff (hf : s.freed = []) :
    ¬ s.skips t ↔ (s.kern.threads t).status ≠ .dying ∧ t ≠ s.kern.idleThread := by
  simp [Mlfqs.skips, hf]

theorem mem_live_iff (hf : s.freed = []) : t ∈ s.live ↔ t ∈ s.allList ∧ ¬ s.skips t := by
  rw [mem_live, not_skips_iff hf]

/-- The ready threads and the running one are among the live ones. -/
theorem readyThreads_le (h : Sane s.kern) (hl : s.allList = List.range s.kern.next) :
    Checked.readyThreads s.kern ≤ s.live.length := by
  have hready : ∀ t ∈ s.kern.readyList, t ∈ s.live := fun t ht => by
    obtain ⟨hst, hi, hlt⟩ := h.ready t ht
    exact mem_live.mpr ⟨by rw [hl]; exact List.mem_range.mpr hlt, by simp [hst], hi⟩
  unfold Checked.readyThreads
  split
  · rename_i hi
    have hcur : s.kern.cur ∈ s.live :=
      mem_live.mpr ⟨by rw [hl]; exact List.mem_range.mpr h.curLt, by simp [h.running], hi⟩
    have hn : (s.kern.cur :: s.kern.readyList).Nodup := List.nodup_cons.mpr ⟨h.cur_not_ready, h.readyNodup⟩
    have hle := (List.subperm_of_subset hn fun t ht => by
      obtain rfl | ht := List.mem_cons.mp ht
      · exact hcur
      · exact hready t ht).length_le
    rw [List.length_cons] at hle
    omega
  · have hle := (List.subperm_of_subset h.readyNodup hready).length_le
    omega

/-! ## A tick -/

variable {top : Int}

theorem Bounded.congr (h : Bounded s top) (hl : ∀ t ∈ s'.live, t ∈ s.live)
    (hr : ∀ t ∈ s.live, s'.recentCpu t = s.recentCpu t)
    (hn : ∀ t ∈ s.live, s'.nice t = s.nice t) : Bounded s' top where
  low t ht := by
    rw [hr t (hl t ht)]
    exact h.low t (hl t ht)
  high t ht := by
    rw [hr t (hl t ht)]
    exact h.high t (hl t ht)
  nice t ht := by
    rw [hn t (hl t ht)]
    exact h.nice t (hl t ht)

theorem updateRecentCpu_recentCpu : (updateRecentCpu s).recentCpu t =
    if t = s.kern.cur then wrap (s.recentCpu t + 16384) else s.recentCpu t := by
  show Function.update s.recentCpu s.kern.cur (addFpInt (s.recentCpu s.kern.cur) 1) t = _
  rw [Function.update_apply]
  split
  · rename_i he
    rw [he]
    rfl
  · rfl

theorem updateRecentCpu_of (h₁ : -2147483648 ≤ s.recentCpu s.kern.cur) (h₂ : s.recentCpu s.kern.cur < 2147467264) :
    Checked.updateRecentCpu s = some (updateRecentCpu s) := by
  have hone : int32 (1 * fpOne) = some 16384 := rfl
  have hunit : wrap (1 * fpOne) = 16384 := rfl
  have hadd : addFpInt (s.recentCpu s.kern.cur) 1 = s.recentCpu s.kern.cur + 16384 := by
    rw [addFpInt, hunit, wrap_of (by omega) (by omega)]
  simp only [Checked.updateRecentCpu, Checked.addFpInt, hone, Option.bind_eq_bind, Option.bind_some]
  rw [int32_of (by omega) (by omega), Option.bind_some, updateRecentCpu, hadd]

theorem updateRecentCpu_none (h : 2147467264 ≤ s.recentCpu s.kern.cur) : Checked.updateRecentCpu s = none := by
  have hone : int32 (1 * fpOne) = some 16384 := rfl
  simp only [Checked.updateRecentCpu, Checked.addFpInt, hone, Option.bind_eq_bind, Option.bind_some]
  rw [int32_none (.inr (by omega)), Option.bind_none]

/-- One unit more for the running thread. -/
theorem Bounded.cpu (h : Bounded s top) (htop : top ≤ 2147467263) : Bounded (updateRecentCpu s) (top + 16384) := by
  refine ⟨fun t ht => ?_, fun t ht => ?_, h.nice⟩
  · have hlow := h.low t ht
    have hhigh := h.high t ht
    rw [updateRecentCpu_recentCpu, wrap_of (by omega) (by omega)]
    split <;> omega
  · have hlow := h.low t ht
    have hhigh := h.high t ht
    rw [updateRecentCpu_recentCpu, wrap_of (by omega) (by omega)]
    split <;> omega

/-- What a second does: the load average stays under 60, and the decay takes
back what the ticks have added. -/
theorem second_of (h : Bounded s 237895680) (hf : s.freed = []) (hn : s.allList.Nodup)
    (hl : 0 ≤ s.loadAvg ∧ s.loadAvg ≤ 983040) (hr : Checked.readyThreads s.kern ≤ 60) :
    (Checked.updateLoadAvg s).bind Checked.updateRecentCpuAll = some (updateRecentCpuAll (updateLoadAvg s)) ∧
      Bounded (updateRecentCpuAll (updateLoadAvg s)) 236257280 ∧
      (0 ≤ (updateLoadAvg s).loadAvg ∧ (updateLoadAvg s).loadAvg ≤ 983040) ∧
      ∀ t ∉ s.live, (updateRecentCpuAll (updateLoadAvg s)).recentCpu t = s.recentCpu t := by
  have hload : 0 ≤ (updateLoadAvg s).loadAvg ∧ (updateLoadAvg s).loadAvg ≤ 983040 := by
    rw [Checked.loadAvg_updateLoadAvg (N := 60) (by decide) hl.1 hl.2 hr]
    exact Checked.load_bounds hl.1 hl.2 Checked.readyThreads_nonneg hr
  have hdecay : ∀ t ∈ s.live, _ := fun t ht =>
    Checked.decayed_of hload.1 hload.2 (h.low t ht) (h.high t ht) (h.nice t ht).1 (h.nice t ht).2
  obtain ⟨hfold, hval⟩ := foldlM_update (fun t => s.skips t)
    (fun t r => Checked.decayed (updateLoadAvg s).loadAvg r (s.nice t))
    (fun t r => Checked.decay (updateLoadAvg s).loadAvg r (s.nice t)) s.recentCpu hn fun t ht hs =>
      (hdecay t ((mem_live_iff hf).mpr ⟨ht, hs⟩)).1
  have hrecent (t) : (updateRecentCpuAll (updateLoadAvg s)).recentCpu t =
      if t ∈ s.allList ∧ ¬ s.skips t then Checked.decay (updateLoadAvg s).loadAvg (s.recentCpu t) (s.nice t)
      else s.recentCpu t := hval t
  refine ⟨?_, ⟨fun t ht => ?_, fun t ht => ?_, h.nice⟩, hload, fun t ht => ?_⟩
  · rw [Checked.updateLoadAvg_of (N := 60) (by decide) hl.1 hl.2 hr, Option.bind_some]
    simp only [Checked.updateRecentCpuAll, Option.bind_eq_bind]
    exact (congrArg (Option.bind · _) hfold).trans rfl
  · rw [hrecent, if_pos ((mem_live_iff hf).mp ht)]
    exact (hdecay t ht).2.1
  · rw [hrecent, if_pos ((mem_live_iff hf).mp ht)]
    exact (hdecay t ht).2.2
  · rw [hrecent, if_neg fun hc => ht ((mem_live_iff hf).mpr hc)]

theorem updateAllPriority_of (h : Bounded s 268435456) (hf : s.freed = []) :
    Checked.updateAllPriority s = some (updateAllPriority s) := by
  have hturn : ∀ t ∈ s.allList, ∀ k, (if s.skips t then some k else Checked.updatePriority s k t) =
      some (if s.skips t then k else updatePriority s k t) := fun t ht k => by
    split
    · rfl
    · rename_i hs
      have hm : t ∈ s.live := (mem_live_iff hf).mpr ⟨ht, hs⟩
      have hlow := h.low t hm
      have hnew := Checked.newPriority_of (by omega) (h.high t hm) (h.nice t hm).1 (h.nice t hm).2
      simp only [Checked.updatePriority, updatePriority, hnew, Option.bind_eq_bind, Option.bind_some]
      split <;> rfl
  simp only [Checked.updateAllPriority, foldlM_some hturn, Option.bind_eq_bind, Option.bind_some]
  rfl

/-- The kernel is the same but for priorities, calls under way and the order of
the ready list. -/
structure SameLife (k k' : Kernel) : Prop where
  status : ∀ t, (k'.threads t).status = (k.threads t).status
  cur : k'.cur = k.cur
  idleThread : k'.idleThread = k.idleThread
  next : k'.next = k.next
  sane : Sane k → Sane k'

theorem Quiet.sameLife (q : Quiet k k') : SameLife k k' := ⟨q.status, q.cur, q.idleThread, q.next, fun h => h.quiet q⟩

theorem SameLife.sortReady (h : SameLife k k') : SameLife k k'.sortReady :=
  ⟨h.status, h.cur, h.idleThread, h.next, fun hs => sane_sortReady (h.sane hs)⟩

theorem SameLife.live (h : SameLife s.kern s'.kern) (hl : s'.allList = s.allList) : s'.live = s.live := by
  simp only [Mlfqs.live, hl, h.status, h.idleThread]

theorem tickNumbers_live : (tickNumbers s).live = s.live :=
  SameLife.live (tickNumbers_kern ▸ (Quiet.refl _).sameLife) tickNumbers_allList

theorem mlfqsOnTick_eq : mlfqsOnTick s =
    if (tickNumbers s).ticks % 4 = 0 then
      { (updateAllPriority (tickNumbers s)).record (fun t => t < s.kern.next ∧ ¬ s.skips t) with
        kern := (updateAllPriority (tickNumbers s)).kern.sortReady }
    else tickNumbers s := rfl

theorem tick_life : SameLife s.kern (mlfqsOnTick s).kern := by
  rw [mlfqsOnTick_eq]
  split
  · have hq := (updateAll_prio (s := tickNumbers s) (k := (tickNumbers s).kern) (tickNumbers s).allList 0 rfl).1
    have hlife : ∀ k, (tickNumbers s).kern = k → SameLife k (updateAllPriority (tickNumbers s)).kern :=
      fun k he => he ▸ hq.sameLife.sortReady
    exact (hlife s.kern tickNumbers_kern).sortReady
  · rw [tickNumbers_kern]
    exact (Quiet.refl _).sameLife

theorem tick_numbers : (mlfqsOnTick s).allList = s.allList ∧ (mlfqsOnTick s).freed = s.freed ∧
    (mlfqsOnTick s).ticks = s.ticks + 1 ∧
    (mlfqsOnTick s).recentCpu = (tickNumbers s).recentCpu ∧ (mlfqsOnTick s).loadAvg = (tickNumbers s).loadAvg ∧
    (mlfqsOnTick s).nice = (tickNumbers s).nice := by
  rw [mlfqsOnTick_eq]
  split
  · exact ⟨tickNumbers_allList, tickNumbers_freed, tickNumbers_ticks, rfl, rfl, rfl⟩
  · exact ⟨tickNumbers_allList, tickNumbers_freed, tickNumbers_ticks, rfl, rfl, rfl⟩

theorem InRange.nodup (h : InRange s) : s.allList.Nodup := by
  rw [h.listed]
  exact List.nodup_range

theorem InRange.cur_live (h : InRange s) (hi : s.kern.cur ≠ s.kern.idleThread) : s.kern.cur ∈ s.live :=
  mem_live.mpr ⟨by rw [h.listed]; exact List.mem_range.mpr h.sane.curLt, by simp [h.sane.running], hi⟩

/-- The numbers after a tick. -/
theorem InRange.numbers (h : InRange s) (hlive : s.live.length ≤ 60) (hf : Intact s .tick) :
    Bounded (tickNumbers s) (236257280 + ((s.ticks + 1) % 100 : Nat) * 16384) ∧
      (0 ≤ (tickNumbers s).loadAvg ∧ (tickNumbers s).loadAvg ≤ 983040) ∧
      (tickNumbers s).recentCpu s.kern.idleThread = (if s.kern.cur = s.kern.idleThread then
        wrap (s.recentCpu s.kern.idleThread + 16384) else s.recentCpu s.kern.idleThread) ∧
      Checked.onSecond (updateRecentCpu { s with ticks := s.ticks + 1 }) = some (tickNumbers s) := by
  have hready := readyThreads_le h.sane h.listed
  have hcpu : Bounded (updateRecentCpu { s with ticks := s.ticks + 1 })
      (236257280 + (s.ticks % 100 : Nat) * 16384 + 16384) :=
    Bounded.cpu (s := { s with ticks := s.ticks + 1 }) ⟨h.bounded.low, h.bounded.high, h.bounded.nice⟩ (by omega)
  have hidle : (updateRecentCpu { s with ticks := s.ticks + 1 }).recentCpu s.kern.idleThread =
      (if s.kern.cur = s.kern.idleThread then wrap (s.recentCpu s.kern.idleThread + 16384)
        else s.recentCpu s.kern.idleThread) := by
    rw [updateRecentCpu_recentCpu]
    dsimp only
    by_cases he : s.kern.cur = s.kern.idleThread
    · rw [if_pos he, if_pos he.symm]
    · rw [if_neg he, if_neg (Ne.symm he)]
  have htop : (s.ticks % 100 : Nat) ≤ 99 := by omega
  by_cases hsec : (s.ticks + 1) % timerFreq = 0
  · have hn : tickNumbers s = updateRecentCpuAll (updateLoadAvg (updateRecentCpu { s with ticks := s.ticks + 1 })) :=
      if_pos hsec
    have hfreed : s.freed = [] := hf (by simp only [timerFreq] at hsec; omega)
    obtain ⟨hsome, hb, hl, hkeep⟩ := second_of ⟨hcpu.low, fun t ht => le_trans (hcpu.high t ht) (by omega), hcpu.nice⟩
      hfreed h.nodup h.load (le_trans hready (by omega))
    rw [hn]
    have hmod : (s.ticks + 1) % 100 = 0 := hsec
    refine ⟨by simpa [hmod] using hb, hl, ?_, (if_pos hsec).trans hsome⟩
    have hk := hkeep s.kern.idleThread fun hc => (mem_live.mp hc).2.2 rfl
    exact hk.trans hidle
  · have hn : tickNumbers s = updateRecentCpu { s with ticks := s.ticks + 1 } := if_neg hsec
    have hmod : (s.ticks + 1) % 100 = s.ticks % 100 + 1 := by
      simp only [timerFreq] at hsec
      omega
    rw [hn, hmod]
    refine ⟨⟨hcpu.low, fun t ht => le_trans (hcpu.high t ht) (by omega), hcpu.nice⟩, h.load, hidle, if_neg hsec⟩

/-- The tick finds the idle thread running, with no room left for one more. -/
def IdleFull (s : Mlfqs) : Prop := s.kern.cur = s.kern.idleThread ∧ 2147467264 ≤ s.recentCpu s.kern.idleThread

instance : Decidable (IdleFull s) := inferInstanceAs (Decidable (_ ∧ _))

/-- Nothing overflows in a tick but the idle thread's `recent_cpu`. -/
theorem InRange.tick_checked (h : InRange s) (hlive : s.live.length ≤ 60) (hf : Intact s .tick) :
    Checked.mlfqsOnTick s = if IdleFull s then none else some (mlfqsOnTick s) := by
  obtain ⟨hb, -, -, hsec⟩ := h.numbers hlive hf
  by_cases hfull : IdleFull s
  · rw [if_pos hfull]
    have hbig : 2147467264 ≤ s.recentCpu s.kern.cur := hfull.1 ▸ hfull.2
    simp only [Checked.mlfqsOnTick, Option.bind_eq_bind]
    rw [updateRecentCpu_none (s := { s with ticks := s.ticks + 1 }) hbig, Option.bind_none]
  · rw [if_neg hfull]
    have hcur : -2147483648 ≤ s.recentCpu s.kern.cur ∧ s.recentCpu s.kern.cur < 2147467264 := by
      by_cases hi : s.kern.cur = s.kern.idleThread
      · have := h.idle
        have hlt : ¬ 2147467264 ≤ s.recentCpu s.kern.idleThread := fun hc => hfull ⟨hi, hc⟩
        rw [hi]
        omega
      · have h₁ := h.bounded.low _ (h.cur_live hi)
        have h₂ := h.bounded.high _ (h.cur_live hi)
        omega
    simp only [Checked.mlfqsOnTick, Option.bind_eq_bind]
    rw [updateRecentCpu_of (s := { s with ticks := s.ticks + 1 }) hcur.1 hcur.2, Option.bind_some, hsec,
      Option.bind_some, mlfqsOnTick_eq]
    split
    · rename_i hfour
      have hfreed : (tickNumbers s).freed = [] := tickNumbers_freed.trans (hf (tickNumbers_ticks ▸ hfour))
      rw [updateAllPriority_of ⟨hb.low, fun t ht => le_trans (hb.high t ht) (by omega), hb.nice⟩ hfreed]
      rfl
    · rfl

theorem InRange.tick (h : InRange s) (hlive : s.live.length ≤ 60) (hf : Intact s .tick) : InRange (mlfqsOnTick s) := by
  obtain ⟨hb, hl, hi, -⟩ := h.numbers hlive hf
  obtain ⟨hall, -, hticks, hrecent, hload, hnice⟩ := tick_numbers (s := s)
  have hlife := tick_life (s := s)
  refine ⟨hlife.sane h.sane, by rw [hall, hlife.next, h.listed], hload ▸ hl, ?_, ?_⟩
  · rw [hlife.idleThread, hrecent, hi]
    split
    · exact ⟨le_wrap, wrap_lt⟩
    · exact h.idle
  rw [hticks]
  refine hb.congr (fun t ht => ?_) (fun t _ => by rw [hrecent]) fun t _ => by rw [hnice]
  rw [tickNumbers_live]
  exact hlife.live hall ▸ ht

/-! ## The other steps -/

theorem InRange.create {p : Int} (h : InRange s) (hcur : s.kern.cur ≠ s.kern.idleThread) : InRange (s.create p) := by
  have hq {s₁ : Mlfqs} : Quiet (s.kern.alloc p) (updatePriority s₁ (s.kern.alloc p) s.kern.next) := quiet_updatePriority
  have hlife {s₁ : Mlfqs} : SameLife (s.kern.alloc p) (updatePriority s₁ (s.kern.alloc p) s.kern.next) := hq.sameLife
  have hnew : SameLife (s.kern.alloc p) (s.create p).kern := hlife
  have hcur := h.cur_live hcur
  have hrecent (t) : (s.create p).recentCpu t = if t = s.kern.next then s.recentCpu s.kern.cur else s.recentCpu t :=
    Function.update_apply ..
  have hnice (t) : (s.create p).nice t = if t = s.kern.next then s.nice s.kern.cur else s.nice t :=
    Function.update_apply ..
  have hold : ∀ t ∈ (s.create p).live, t ≠ s.kern.next → t ∈ s.live := fun t ht hne => by
    obtain ⟨hl, hd, hi⟩ := mem_live.mp ht
    rw [hnew.status, Kernel.alloc, modify_threads, if_neg hne] at hd
    rw [hnew.idleThread] at hi
    refine mem_live.mpr ⟨?_, hd, hi⟩
    rcases List.mem_append.mp hl with hl | hl
    · exact hl
    · exact absurd (List.mem_singleton.mp hl) hne
  refine ⟨hnew.sane (sane_alloc h.sane), ?_, h.load, ?_, fun t ht => ?_, fun t ht => ?_, fun t ht => ?_⟩
  · rw [hnew.next]
    show s.allList ++ [s.kern.next] = List.range (s.kern.next + 1)
    rw [h.listed, List.range_succ]
  · have hi : (s.kern.alloc p).idleThread = s.kern.idleThread := rfl
    rw [hnew.idleThread, hi, hrecent, if_neg h.sane.idleLt.ne]
    exact h.idle
  · rw [hrecent]
    split
    · exact h.bounded.low _ hcur
    · rename_i hne
      exact h.bounded.low t (hold t ht hne)
  · rw [hrecent]
    split
    · exact h.bounded.high _ hcur
    · rename_i hne
      exact h.bounded.high t (hold t ht hne)
  · rw [hnice]
    split
    · exact h.bounded.nice _ hcur
    · rename_i hne
      exact h.bounded.nice t (hold t ht hne)

theorem InRange.setNice (h : InRange s) (h₁ : -20 ≤ n) (h₂ : n ≤ 20) : InRange (threadSetNice s n) := by
  have hq {s₁ : Mlfqs} : Quiet s.kern (updatePriority s₁ s.kern s.kern.cur) := quiet_updatePriority
  have hkern {s₁ : Mlfqs} : SameLife s.kern (updatePriority s₁ s.kern s.kern.cur) := hq.sameLife
  have hlife : SameLife s.kern (threadSetNice s n).kern := hkern
  have hlive : (threadSetNice s n).live = s.live := hlife.live rfl
  refine ⟨hlife.sane h.sane, by rw [hlife.next]; exact h.listed, h.load, hlife.idleThread ▸ h.idle,
    fun t ht => h.bounded.low t (hlive ▸ ht), fun t ht => h.bounded.high t (hlive ▸ ht), fun t ht => ?_⟩
  show -20 ≤ Function.update s.nice s.kern.cur n t ∧ Function.update s.nice s.kern.cur n t ≤ 20
  rw [Function.update_apply]
  split
  · exact ⟨h₁, h₂⟩
  · exact h.bounded.nice t (hlive ▸ ht)

theorem InRange.other {later : Nat → List Job} (h : InRange s) (hk : Sane k) (hc : s.kern.Continues k) :
    InRange { s with kern := k, later := later } := by
  obtain ⟨hnext, hidle, hdead⟩ := hc
  have hlive : ∀ t ∈ Mlfqs.live { s with kern := k, later := later }, t ∈ s.live := fun t ht => by
    obtain ⟨hl, hd, hi⟩ := mem_live.mp ht
    have hl : t ∈ s.allList := hl
    have hlt : t < s.kern.next := List.mem_range.mp (h.listed ▸ hl)
    exact mem_live.mpr ⟨hl, fun hs => hd (hdead t hlt hs), hidle ▸ hi⟩
  exact ⟨hk, hnext ▸ h.listed, h.load, hidle ▸ h.idle,
    h.bounded.congr hlive (fun _ _ => rfl) fun _ _ => rfl⟩

/-- The page was a dead thread's. -/
theorem InRange.free (h : InRange s) (hd : (s.kern.threads t).status = .dying) (hi : t ≠ s.kern.idleThread) :
    InRange (s.freePage t) := by
  have hne : ∀ u ∈ s.live, u ≠ t := fun u hu he => (mem_live.mp hu).2.1 (he ▸ hd)
  refine ⟨h.sane, h.listed, h.load, ?_, h.bounded.congr (fun u hu => hu)
    (fun u hu => Function.update_of_ne (hne u hu) ..) fun u hu => Function.update_of_ne (hne u hu) ..⟩
  have hidle : (s.freePage t).recentCpu s.kern.idleThread = s.recentCpu s.kern.idleThread :=
    Function.update_of_ne hi.symm ..
  exact hidle.symm ▸ h.idle

/-- There is room for what the event adds: the idle thread can be charged one
more tick, and `100 * recent_cpu` fits. -/
def Room (s : Mlfqs) : RangeEvent → Prop
  | .tick => ¬ IdleFull s
  | .getRecentCpu => -21474754 ≤ s.recentCpu s.kern.cur ∧ s.recentCpu s.kern.cur ≤ 21474754
  | _ => True

instance {e : RangeEvent} : Decidable (Room s e) := by
  unfold Room
  cases e <;> infer_instance

theorem InRange.step {e : RangeEvent} (h : InRange s) (hl : Limits s e) (hi : Intact s e)
    (hs : rangeStep s e = some s') : InRange s' ∧ (Fits s e ↔ Room s e) := by
  cases e with
  | tick =>
    refine ⟨Option.some.inj hs ▸ h.tick hl.1 hi, ?_⟩
    simp only [Fits, Room, h.tick_checked hl.1 hi]
    split <;> simp_all
  | create p =>
    simp only [rangeStep, Option.ite_none_right_eq_some, Option.some.injEq] at hs
    obtain ⟨⟨hf, -⟩, rfl⟩ := hs
    have hcur := h.cur_live hf
    have hnice := h.bounded.nice _ hcur
    have hlow := h.bounded.low _ hcur
    have hhigh := h.bounded.high _ hcur
    refine ⟨h.create hf, iff_of_true ?_ trivial⟩
    have hr : (s.create p).recentCpu s.kern.next = s.recentCpu s.kern.cur := Function.update_self ..
    have hn : (s.create p).nice s.kern.next = s.nice s.kern.cur := Function.update_self ..
    simp only [Fits, hr, hn]
    rw [Checked.newPriority_of (by omega) (by omega) hnice.1 hnice.2]
    rfl
  | setNice nice =>
    simp only [rangeStep, Option.ite_none_right_eq_some, Option.some.injEq] at hs
    obtain ⟨hf, rfl⟩ := hs
    have hn := hl.2
    have hlow := h.bounded.low _ (h.cur_live hf)
    have hhigh := h.bounded.high _ (h.cur_live hf)
    refine ⟨h.setNice hn.1 hn.2, iff_of_true ?_ trivial⟩
    simp only [Fits]
    rw [Checked.newPriority_of (by omega) (by omega) hn.1 hn.2]
    rfl
  | getRecentCpu => exact ⟨Option.some.inj hs ▸ h, Checked.threadGetRecentCpu_iff⟩
  | getLoadAvg =>
    have hload := h.load
    exact ⟨Option.some.inj hs ▸ h, iff_of_true (Checked.threadGetLoadAvg_of (by omega) (by omega)) trivial⟩
  | other k later =>
    simp only [rangeStep, Option.ite_none_right_eq_some, Option.some.injEq] at hs
    exact ⟨hs.2 ▸ h.other k.sane hs.1, iff_of_true trivial trivial⟩
  | free t =>
    simp only [rangeStep, Option.ite_none_right_eq_some, Option.some.injEq] at hs
    obtain ⟨⟨hd, hi, -⟩, rfl⟩ := hs
    exact ⟨h.free hd hi, iff_of_true trivial trivial⟩

theorem updateRecentCpuAll_freed (hskip : ¬ s.skips t) (hl : t ∈ s.allList) (hn : s.nice t = freedInt) :
    Checked.updateRecentCpuAll s = none := by
  have hint : Checked.intToFp freedInt = none := rfl
  simp only [Checked.updateRecentCpuAll, Option.bind_eq_bind]
  rw [foldlM_none hl fun recent => ?_, Option.bind_none]
  rw [if_neg hskip]
  simp only [Checked.decayed, hn, hint, Option.bind_eq_bind, Option.bind_none, Option.bind_fun_none]

/-- A freed page that still holds what `palloc_free_page` left there overflows at
the next full second. -/
theorem not_fits_freed (hf : t ∈ s.freed) (hl : t ∈ s.allList) (hi : t ≠ s.kern.idleThread)
    (hn : s.nice t = freedInt) (hsec : (s.ticks + 1) % timerFreq = 0) : ¬ Fits s .tick := by
  have hskip : ¬ s.skips t := by simp [Mlfqs.skips, hf, hi]
  intro hfits
  simp only [Fits, Checked.mlfqsOnTick, Option.bind_eq_bind, Option.isSome_iff_exists, Option.bind_eq_some_iff] at hfits
  obtain ⟨-, s₁, hcpu, s₂, hall, -⟩ := hfits
  obtain ⟨r, -, hs₁⟩ := Option.bind_eq_some_iff.mp hcpu
  obtain rfl := Option.some.inj hs₁
  have hsecond := (if_pos hsec).symm.trans hall
  obtain ⟨s₃, hload, hall⟩ := Option.bind_eq_some_iff.mp hsecond
  simp only [Checked.updateLoadAvg, Option.bind_eq_bind, Option.bind_eq_some_iff, Option.some.injEq] at hload
  obtain ⟨-, -, -, -, -, -, -, -, -, -, -, -, load, -, rfl⟩ := hload
  have hfail := hall.symm.trans (updateRecentCpuAll_freed hskip hl hn)
  cases hfail

theorem boot_inRange (value : Nat → Nat) : InRange (Mlfqs.boot value) where
  sane :=
    have q : Quiet (Threads.boot value)
        ((Threads.boot value).modify 1 fun th => { th with priority := newPriority 0 0 }) :=
      quiet_modify rfl rfl
    (boot_sane value).quiet q
  listed := rfl
  load := by simp [Mlfqs.boot]
  idle := ⟨by simp [Mlfqs.boot], by simp [Mlfqs.boot]⟩
  bounded := ⟨fun _ _ => by simp [Mlfqs.boot], fun _ _ => by simp [Mlfqs.boot], fun _ _ => by simp [Mlfqs.boot]⟩

theorem Kernel.Continues.refl (k : Kernel) : k.Continues k := ⟨rfl, rfl, fun _ _ h => h⟩

/-- The event is the `init_thread` of a `thread_create`. -/
def Mlfqs.Creates (s : Mlfqs) : MlfqsEvent → Prop
  | .part _ => (s.kern.threads s.kern.cur).todo = [] ∧ ∃ p js, s.later s.kern.cur = .init p :: js
  | _ => False

/-- Outside `init_thread` the parts of the calls touch the kernel alone. -/
theorem exec_rest {j : Job} {empty : Bool} (hj : ∀ p, j ≠ .init p) (hs : j.exec empty s = some s') :
    s' = { s with kern := s'.kern, later := s'.later } := by
  cases j with
  | acquire l =>
    simp only [Job.exec] at hs
    split at hs
    · cases hs
    · split at hs <;> exact Option.some.inj hs ▸ rfl
  | walk pending =>
    simp only [Job.exec] at hs
    split at hs
    · exact Option.some.inj hs ▸ rfl
    · split at hs <;> exact Option.some.inj hs ▸ rfl
  | init p => exact absurd rfl (hj p)
  | release l | up n | created t =>
    obtain ⟨k, -, rfl⟩ := Option.map_eq_some_iff.mp hs
    rfl
  | takeBlock | donate pending holder saved | down sm | compare | yield => exact Option.some.inj hs ▸ rfl

/-- A step of the scheduler's own machine that keeps the lists in order and
revives no thread is a run of this machine. -/
theorem rangeRun_of_step {e : MlfqsEvent} (hs : s.step e = some s') (hsane : Sane s'.kern)
    (hidle : s.later s.kern.idleThread = []) (hc : s.Creates e ∨ s.kern.Continues s'.kern) :
    ∃ es, Run.run rangeStep s es = some s' := by
  have hother {k : Kernel} (s : Mlfqs) (later : Nat → List Job) (hk : Sane k) (hc : s.kern.Continues k) :
      rangeStep s (.other ⟨k, hk⟩ later) = some { s with kern := k, later := later } := if_pos hc
  have hone (hc : s.kern.Continues s'.kern) (hs' : s' = { s with kern := s'.kern, later := s'.later }) :
      ∃ es, Run.run rangeStep s es = some s' := by
    refine ⟨[.other ⟨s'.kern, hsane⟩ s'.later], Run.run_cons.mpr ⟨_, hother s s'.later hsane hc, ?_⟩⟩
    rw [← hs']
    rfl
  have htwo {e : RangeEvent} {s₁ : Mlfqs} (he : rangeStep s e = some s₁) (hs' : s' = { s₁ with later := s'.later }) :
      ∃ es, Run.run rangeStep s es = some s' := by
    have hk : Sane s₁.kern := ((congrArg Mlfqs.kern hs').trans rfl : s'.kern = s₁.kern) ▸ hsane
    refine ⟨[e, .other ⟨s₁.kern, hk⟩ s'.later], Run.run_cons.mpr ⟨s₁, he, Run.run_cons.mpr
      ⟨_, hother s₁ s'.later hk (.refl _), ?_⟩⟩⟩
    rw [← hs']
    rfl
  cases e with
  | tick => exact ⟨[.tick], Run.run_cons.mpr ⟨_, hs, rfl⟩⟩
  | preempt =>
    obtain rfl := Option.some.inj hs
    exact hone (hc.resolve_left id) rfl
  | call c =>
    simp only [Mlfqs.step, Option.ite_none_right_eq_some] at hs
    obtain ⟨js, -, rfl⟩ := Option.map_eq_some_iff.mp hs.2
    exact hone (hc.resolve_left id) rfl
  | setNice n =>
    simp only [Mlfqs.step, Option.ite_none_right_eq_some, Option.some.injEq, Bool.and_eq_true, Mlfqs.free,
      decide_eq_true_eq] at hs
    obtain ⟨⟨⟨-, hcur⟩, -⟩, rfl⟩ := hs
    have hset : rangeStep s (.setNice n) = some (threadSetNice s n) := if_pos hcur
    exact htwo hset rfl
  | part empty =>
    simp only [Mlfqs.step] at hs
    split at hs
    · rename_i htodo
      obtain rfl := Option.some.inj hs
      refine hone (hc.resolve_left fun h => ?_) rfl
      rw [h.1] at htodo
      cases htodo
    · rename_i j js htodo hlater
      have hcur : s.kern.cur ≠ s.kern.idleThread := fun he => by
        rw [he, hidle] at hlater
        cases hlater
      by_cases hinit : ∃ p, j = .init p
      · obtain ⟨p, rfl⟩ := hinit
        simp only [Job.exec, Option.ite_none_right_eq_some, Option.some.injEq] at hs
        obtain ⟨hp, rfl⟩ := hs
        have hcreate : rangeStep s (.create p) = some (s.create p) := if_pos ⟨hcur, hp⟩
        exact htwo hcreate rfl
      · refine hone (hc.resolve_left fun h => ?_) ?_
        · obtain ⟨-, p, js', hl⟩ := h
          exact hinit ⟨p, (List.cons_eq_cons.mp (hlater.symm.trans hl)).1⟩
        · have hrest := exec_rest (fun p he => hinit ⟨p, he⟩) hs
          exact hrest
    · cases hs

/-- **No overflow, but for the idle thread and `100 * recent_cpu`.** In every
run with at most 60 threads and nice values from -20 to 20 in which no freed
page is walked over, every operation fits exactly when every tick that charges
the idle thread and every call of `thread_get_recent_cpu` finds room for what it
adds. -/
theorem fits_iff_room {value : Nat → Nat} {es : List RangeEvent}
    (hr : Run.run rangeStep (Mlfqs.boot value) es = some s) (hl : Run.Always rangeStep Limits (Mlfqs.boot value) es)
    (hi : Run.Always rangeStep Intact (Mlfqs.boot value) es) :
    Run.Always rangeStep Fits (Mlfqs.boot value) es ↔ Run.Always rangeStep Room (Mlfqs.boot value) es :=
  Run.always_iff (fun _ _ _ h hl hs => h.step hl.1 hl.2 hs) (boot_inRange value) hr (Run.always_and hl hi)

/-- The initial thread runs for a second, asks for the numbers, gets nice and
creates a thread, which runs for a second. -/
def busyRun : List RangeEvent :=
  List.replicate 100 .tick ++ [.getRecentCpu, .getLoadAvg, .create 31] ++ List.replicate 100 .tick

theorem fits_busy : ∃ s, Run.run rangeStep (Mlfqs.boot fun _ => 0) busyRun = some s ∧ s.loadAvg = 541 ∧
    Run.Always rangeStep Fits (Mlfqs.boot fun _ => 0) busyRun := by
  obtain ⟨s, hr, hload⟩ := (Option.any_eq_true _ _).mp
    (by decide +kernel :
      (Run.run rangeStep (Mlfqs.boot fun _ => 0) busyRun).any (fun s => decide (s.loadAvg = 541)) = true)
  exact ⟨s, hr, of_decide_eq_true hload,
    (fits_iff_room hr (by decide +kernel) (by decide +kernel)).mpr (by decide +kernel)⟩

/-- Ticks that find the idle thread running. -/
theorem InRange.idle_ticks (h : InRange s) (hc : s.kern.cur = s.kern.idleThread) (hlive : s.live.length ≤ 60)
    (hf : s.freed = []) (m : Nat) (hm : s.recentCpu s.kern.idleThread + m * 16384 < 2147483648) :
    ∃ s', Run.run rangeStep s (List.replicate m .tick) = some s' ∧
      Run.Always rangeStep Limits s (List.replicate (m + 1) .tick) ∧ InRange s' ∧
      s'.kern.cur = s'.kern.idleThread ∧ s'.live.length ≤ 60 ∧ s'.freed = [] ∧
      s'.recentCpu s'.kern.idleThread = s.recentCpu s.kern.idleThread + m * 16384 := by
  induction m generalizing s with
  | zero => exact ⟨s, rfl, ⟨⟨hlive, trivial⟩, fun _ _ => trivial⟩, h, hc, hlive, hf, by simp⟩
  | succ m ih =>
    obtain ⟨hall, hfreed, -, hrecent, -, -⟩ := tick_numbers (s := s)
    have hlife := tick_life (s := s)
    have hlow := h.idle
    push_cast at hm ⊢
    have hnum : (mlfqsOnTick s).recentCpu (mlfqsOnTick s).kern.idleThread = s.recentCpu s.kern.idleThread + 16384 := by
      rw [hrecent, hlife.idleThread, (h.numbers hlive fun _ => hf).2.2.1, if_pos hc, wrap_of (by omega) (by omega)]
    obtain ⟨s', hr, hl, h', hc', hlive', hf', hcpu⟩ := ih (h.tick hlive fun _ => hf)
      (by rw [hlife.cur, hlife.idleThread, hc]) (by rw [hlife.live hall]; exact hlive) (hfreed.trans hf) (by omega)
    refine ⟨s', hr, ⟨⟨hlive, trivial⟩, fun t ht => ?_⟩, h', hc', hlive', hf', by omega⟩
    obtain rfl := Option.some.inj ht
    exact hl

/-- The initial thread blocks, and the idle thread runs. -/
def idleKernel : SaneKernel where
  toKernel := schedule (threadBlock (Mlfqs.boot fun _ => 0).kern)
  sane := lists_schedule (boot_inRange fun _ => 0).sane.setStatus

def idleStart : Mlfqs := { Mlfqs.boot (fun _ => 0) with kern := idleKernel.toKernel }

/-- And goes on running for 131072 ticks: under 22 minutes. -/
def idleRun : List RangeEvent := .other idleKernel (fun _ => []) :: List.replicate 131072 .tick

/-- The last of them overflows. -/
theorem not_fits_idle : (∃ s, Run.run rangeStep (Mlfqs.boot fun _ => 0) idleRun = some s) ∧
    Run.Always rangeStep Limits (Mlfqs.boot fun _ => 0) idleRun ∧
    ¬ Run.Always rangeStep Fits (Mlfqs.boot fun _ => 0) idleRun := by
  have hcont : (Mlfqs.boot fun _ => 0).kern.Continues idleKernel.toKernel := by decide
  have hstart : rangeStep (Mlfqs.boot fun _ => 0) (.other idleKernel fun _ => []) = some idleStart := by
    rw [rangeStep, if_pos hcont]
    rfl
  have hin : InRange idleStart := (boot_inRange fun _ => 0).other idleKernel.sane hcont
  have hlive : idleStart.live.length ≤ 60 := by decide
  have hzero : idleStart.recentCpu idleStart.kern.idleThread = 0 := rfl
  -- before the last tick
  obtain ⟨s, hr, hl, h, hc, hlive, hf, hcpu⟩ := hin.idle_ticks rfl hlive rfl 131071 (by rw [hzero]; decide)
  have hfull : IdleFull s := ⟨hc, by omega⟩
  have hsplit : List.replicate 131072 RangeEvent.tick = List.replicate 131071 .tick ++ [.tick] := List.replicate_succ'
  have hticks : Run.run rangeStep idleStart (List.replicate 131072 .tick) = some (mlfqsOnTick s) := by
    rw [hsplit, Run.run_append, hr]
    rfl
  refine ⟨⟨_, Run.run_cons.mpr ⟨_, hstart, hticks⟩⟩, ⟨⟨by decide, trivial⟩, fun t ht => ?_⟩, fun hfits => ?_⟩
  · obtain rfl := Option.some.inj (hstart.symm.trans ht)
    exact hl
  · have hrest := hfits.2 _ hstart
    rw [hsplit] at hrest
    have hlast := (Run.always_append hr hrest).2.1
    simp only [Fits, h.tick_checked hlive fun _ => hf, if_pos hfull] at hlast
    cases hlast

/-! ## The load average -/

/-- An `update_load_avg` in the event finds at most `N` threads ready or running. -/
def ReadyAtMost (N : Nat) (s : Mlfqs) : RangeEvent → Prop
  | .tick => (s.ticks + 1) % timerFreq = 0 → Checked.readyThreads s.kern ≤ N
  | _ => True

instance {N : Nat} {e : RangeEvent} : Decidable (ReadyAtMost N s e) := by
  unfold ReadyAtMost
  cases e <;> infer_instance

/-- Nothing overflows in an `update_load_avg` or a `thread_get_load_avg`. -/
def LoadFits (s : Mlfqs) : RangeEvent → Prop
  | .tick => (s.ticks + 1) % timerFreq = 0 →
    (Checked.updateLoadAvg (updateRecentCpu { s with ticks := s.ticks + 1 })).isSome
  | .getLoadAvg => (Checked.threadGetLoadAvg s).isSome
  | _ => True

/-- The load average is from 0 to `N`. -/
def LoadIn (N : Nat) (s : Mlfqs) : Prop := 0 ≤ s.loadAvg ∧ s.loadAvg ≤ N * fpOne

theorem LoadIn.tick {N : Nat} (hN : N ≤ 1310) (h : LoadIn N s) (hr : ReadyAtMost N s .tick) :
    LoadIn N (mlfqsOnTick s) := by
  have hload : (mlfqsOnTick s).loadAvg = if (s.ticks + 1) % timerFreq = 0 then
      (updateLoadAvg (updateRecentCpu { s with ticks := s.ticks + 1 })).loadAvg else s.loadAvg := by
    rw [tick_numbers.2.2.2.2.1]
    show Mlfqs.loadAvg (if (s.ticks + 1) % timerFreq = 0 then _ else _) = _
    split <;> rfl
  unfold LoadIn at h ⊢
  rw [hload]
  split
  · rename_i hsec
    have hnew := Checked.loadAvg_updateLoadAvg (s := updateRecentCpu { s with ticks := s.ticks + 1 })
      (by omega : (N : Int) ≤ 1310) h.1 h.2 (hr hsec)
    rw [hnew]
    exact Checked.load_bounds h.1 h.2 Checked.readyThreads_nonneg (hr hsec)
  · exact h

theorem LoadIn.step {N : Nat} {e : RangeEvent} (hN : N ≤ 1310) (h : LoadIn N s) (hr : ReadyAtMost N s e)
    (hs : rangeStep s e = some s') : LoadIn N s' ∧ LoadFits s e := by
  have hN' : (N : Int) ≤ 1310 := by omega
  have htop : s.loadAvg ≤ N * 16384 := h.2
  cases e with
  | tick =>
    refine ⟨Option.some.inj hs ▸ h.tick hN hr, fun hsec => ?_⟩
    rw [Checked.updateLoadAvg_of (s := updateRecentCpu { s with ticks := s.ticks + 1 }) hN' h.1 htop (hr hsec)]
    rfl
  | create p =>
    simp only [rangeStep, Option.ite_none_right_eq_some, Option.some.injEq] at hs
    exact ⟨hs.2 ▸ h, trivial⟩
  | setNice nice =>
    simp only [rangeStep, Option.ite_none_right_eq_some, Option.some.injEq] at hs
    exact ⟨hs.2 ▸ h, trivial⟩
  | getRecentCpu => exact ⟨Option.some.inj hs ▸ h, trivial⟩
  | getLoadAvg => exact ⟨Option.some.inj hs ▸ h, Checked.threadGetLoadAvg_of h.1 (by omega)⟩
  | other k later =>
    simp only [rangeStep, Option.ite_none_right_eq_some, Option.some.injEq] at hs
    exact ⟨hs.2 ▸ h, trivial⟩
  | free t =>
    simp only [rangeStep, Option.ite_none_right_eq_some, Option.some.injEq] at hs
    exact ⟨hs.2 ▸ h, trivial⟩

/-- **The load average stays in range**: with at most `N` threads ready or
running at every `update_load_avg`, it is from 0 to `N` in every state of a run,
and neither its update nor its query overflows. -/
theorem loadAvg_in_range {value : Nat → Nat} {es : List RangeEvent} (N : Nat) (hN : N ≤ 1310)
    (hr : Run.run rangeStep (Mlfqs.boot value) es = some s)
    (hG : Run.Always rangeStep (ReadyAtMost N) (Mlfqs.boot value) es) :
    LoadIn N s ∧ Run.Always rangeStep (fun s e => LoadIn N s ∧ LoadFits s e) (Mlfqs.boot value) es := by
  have hboot : LoadIn N (Mlfqs.boot value) := ⟨le_refl _, by simp only [Mlfqs.boot, fpOne]; omega⟩
  refine ⟨Run.run_invariant (fun _ _ _ h hG hs => (h.step hN hG hs).1) hboot hr hG, ?_⟩
  refine (Run.always_iff (H := fun _ _ => True) (fun _ _ _ h hG hs => ?_) hboot hr hG).mpr
    (Run.always_of_mem _ fun _ _ _ => trivial)
  have hstep := h.step hN hG hs
  exact ⟨hstep.1, iff_of_true ⟨h, hstep.2⟩ trivial⟩

/-- Two seconds of one thread. -/
theorem loadAvg_in_range_busy : ∃ s, Run.run rangeStep (Mlfqs.boot fun _ => 0) busyRun = some s ∧ s.loadAvg = 541 ∧
    LoadIn 1 s ∧ Run.Always rangeStep (fun s e => LoadIn 1 s ∧ LoadFits s e) (Mlfqs.boot fun _ => 0) busyRun := by
  obtain ⟨s, hr, hload⟩ := (Option.any_eq_true _ _).mp
    (by decide +kernel :
      (Run.run rangeStep (Mlfqs.boot fun _ => 0) busyRun).any (fun s => decide (s.loadAvg = 541)) = true)
  exact ⟨s, hr, of_decide_eq_true hload, loadAvg_in_range 1 (by decide) hr (by decide +kernel)⟩

end PintosKaist.Threads
