/-
`all_list` and the pages of the threads on it. `init_thread` puts a thread on
the list and nothing takes it off: the `list_remove` is in a `thread_exit`
that is commented out. So the list is good as long as no page is freed, and
the first `do_schedule` that finds a thread in `destruction_req` breaks it.
-/
import PintosKaist.Threads.Life

namespace PintosKaist.Threads

variable {s s' : Life} {e : LifeEvent} {o : Out}

/-- Every element of `all_list` is in a page that is allocated: what the
traversals and `list_push_back` touch. -/
def Life.AllLive (s : Life) : Prop := ∀ pg ∈ s.allList, s.used pg = true

instance : Decidable s.AllLive := inferInstanceAs (Decidable (∀ pg ∈ s.allList, s.used pg = true))

/-- The event calls `do_schedule`: a yield or an exit, not `thread_block`. -/
def Life.doSchedules (s : Life) : LifeEvent → Bool
  | .preempt | .exit => true
  | .part =>
    match partOut s.kern with
    | some (.sched k) => (k.threads k.cur).status ≠ .blocked
    | _ => false
  | _ => false

/-- `do_schedule`, if the event calls it, finds `destruction_req` empty. -/
def Life.NothingToFree (s : Life) (e : LifeEvent) : Prop := s.doSchedules e = true → s.destructionReq = []

instance : Decidable (s.NothingToFree e) := inferInstanceAs (Decidable (_ → _))

/-- The list is good, and so is the page every `thread_create` under way has. -/
structure Life.Listed (s : Life) : Prop where
  allList : s.AllLive
  creating : ∀ t pg, s.creating t = some pg → s.used pg = true

theorem reap_of_empty (h : s.destructionReq = []) : s.reap = s := by
  cases s
  simp_all [Life.reap]

/-- A step that keeps the list, the pages and who is setting up what. -/
theorem Life.Listed.congr (h : s.Listed) (ha : s'.allList = s.allList) (hu : s'.used = s.used)
    (hc : s'.creating = s.creating) : s'.Listed :=
  ⟨fun pg hp => by rw [hu]; exact h.allList pg (ha ▸ hp), fun t pg hp => by rw [hu]; exact h.creating t pg (hc ▸ hp)⟩

theorem Life.Listed.record {m : Micro} (h : s.Listed) : (s.record m).Listed := by
  cases m with
  | init p =>
    refine ⟨fun pg hp => ?_, h.creating⟩
    rcases List.mem_append.mp hp with hp | hp
    · exact h.allList pg hp
    · exact h.creating _ pg (Option.mem_toList.mp hp)
  | _ => exact h.congr rfl rfl rfl

/-- A part that ends in `schedule ()` frees nothing when there is nothing to
free. -/
theorem Life.Listed.finish (h : s.Listed)
    (ho : ∀ k, o = .sched k → (k.threads k.cur).status ≠ .blocked → s.destructionReq = []) : (s.finish o).Listed := by
  cases o with
  | done k => exact h.congr rfl rfl rfl
  | sched k =>
    simp only [Life.finish]
    split
    · exact h.congr rfl rfl rfl
    · rename_i hb
      rw [reap_of_empty (ho k rfl hb)]
      exact h.congr rfl rfl rfl

theorem Life.Listed.part (h : s.Listed) (hn : s.NothingToFree .part) (hs : s.part = some s') : s'.Listed := by
  simp only [Life.part] at hs
  split at hs
  · cases hs
  · rename_i m ms ht
    simp only [Option.ite_none_left_eq_some, Option.map_eq_some_iff] at hs
    obtain ⟨-, o, ho, rfl⟩ := hs
    refine h.record.finish fun k hk hb => ?_
    have hd : (s.record m).destructionReq = s.destructionReq := by cases m <;> rfl
    rw [hd]
    refine hn ?_
    simp [Life.doSchedules, ho, hk, hb]

theorem step_listed (h : s.Listed) (hn : s.NothingToFree e) (hs : s.step e = some s') : s'.Listed := by
  cases e with
  | call c =>
    simp only [Life.step, Option.ite_none_right_eq_some, Option.some.injEq] at hs
    exact hs.2 ▸ h.congr rfl rfl rfl
  | create p pg =>
    simp only [Life.step, Option.ite_none_right_eq_some, Option.some.injEq] at hs
    obtain ⟨-, rfl⟩ := hs
    refine ⟨fun q hq => ?_, fun t q hq => ?_⟩
    · simp only [Function.update_apply]
      split
      · rfl
      · exact h.allList q hq
    · simp only [Function.update_apply] at hq ⊢
      split
      · rfl
      · split at hq
        · simp_all
        · exact h.creating t q hq
  | part => exact h.part hn hs
  | block =>
    simp only [Life.step, Option.ite_none_right_eq_some, Option.some.injEq] at hs
    exact hs.2 ▸ h.congr rfl rfl rfl
  | unblock t =>
    simp only [Life.step, Option.ite_none_right_eq_some, Option.map_eq_some_iff] at hs
    obtain ⟨-, k, -, rfl⟩ := hs
    exact h.congr rfl rfl rfl
  | exit =>
    simp only [Life.step, Option.ite_none_right_eq_some, Option.some.injEq] at hs
    have hr : (threadExit s).used = s.reap.used := rfl
    rw [reap_of_empty (hn rfl)] at hr
    exact hs.2 ▸ h.congr rfl hr rfl
  | sleep w =>
    simp only [Life.step, Option.ite_none_right_eq_some, Option.some.injEq] at hs
    exact hs.2 ▸ h.congr rfl rfl rfl
  | tick =>
    simp only [Life.step, timerInterrupt] at hs
    split at hs
    · obtain ⟨⟨k, es⟩, -, rfl⟩ := Option.map_eq_some_iff.mp hs
      exact h.congr rfl rfl rfl
    · exact Option.some.inj hs ▸ h.congr rfl rfl rfl
  | preempt => exact Option.some.inj hs ▸ h.finish fun _ _ _ => hn rfl
  | handlerUp n =>
    simp only [Life.step, Option.map_eq_some_iff] at hs
    obtain ⟨k, -, rfl⟩ := hs
    exact h.congr rfl rfl rfl
  | tryDown n => exact Option.some.inj hs ▸ h.congr rfl rfl rfl
  | priorities f => exact Option.some.inj hs ▸ h.congr rfl rfl rfl

theorem boot_listed (value : Nat → Nat) : (Life.boot value).Listed :=
  ⟨by simp [Life.AllLive, Life.boot], by simp [Life.boot]⟩

/-- As long as no `do_schedule` has anything to free, `all_list` holds threads
in allocated pages only. -/
theorem allLive_of_run (value : Nat → Nat) (es : List LifeEvent)
    (hr : Run.run Life.step (Life.boot value) es = some s)
    (hn : Run.Always Life.step Life.NothingToFree (Life.boot value) es) : s.AllLive :=
  (Run.run_invariant (fun _ _ _ h hn hs => step_listed h hn hs) (boot_listed value) hr hn).allList

/-- A thread above its creator runs at once and exits. -/
def exitRun : List LifeEvent := .create 40 2 :: List.replicate 6 .part ++ [.exit]

theorem allLive_exit : ∃ s, Run.run Life.step (Life.boot fun _ => 0) exitRun = some s ∧
    s.destructionReq = [2] ∧ s.AllLive := by
  obtain ⟨s, hs, hd⟩ := (Option.any_eq_true ..).mp
    (show (Run.run Life.step (Life.boot fun _ => 0) exitRun).any (·.destructionReq = [2]) = true by decide +kernel)
  exact ⟨s, hs, of_decide_eq_true hd, allLive_of_run _ _ hs (by decide +kernel)⟩

/-- The initial thread then yields: the page is freed, and `all_list` still
has the thread. -/
theorem not_allLive_yield : ∃ s, Run.run Life.step (Life.boot fun _ => 0) (exitRun ++ [.call .yield, .part]) = some s ∧
    2 ∈ s.allList ∧ s.used 2 = false ∧ ¬ s.AllLive := by
  obtain ⟨s, hs, hd⟩ := (Option.any_eq_true ..).mp
    (show (Run.run Life.step (Life.boot fun _ => 0) (exitRun ++ [.call .yield, .part])).any
      (fun s => decide (2 ∈ s.allList) && !s.used 2) = true by decide +kernel)
  simp only [Bool.and_eq_true, decide_eq_true_eq, Bool.not_eq_true'] at hd
  exact ⟨s, hs, hd.1, hd.2, fun h => absurd (h 2 hd.1) (by simp [hd.2])⟩

end PintosKaist.Threads
