/-
Whether `schedule ()` runs a ready thread of the highest priority.

`next_thread_to_run` takes the front of the ready list, so it does as long as
the list is in order. Insertions keep it in order, and the priorities that a
thread sets for itself are not in the list. What can break the order is a
donation: `lock_acquire` raises holders that are in the ready list and leaves
them where they are, and the `schedule ()` of the donor's own `sema_down` comes
before any `list_sort`.
-/
import PintosKaist.Threads.Walk

namespace PintosKaist.Threads

open OrdList

variable {k k' : Kernel} {t : Nat} {s : Sema} {o : Out}

/-- The ready list is in order. -/
def Ordered (k : Kernel) : Prop := Desc k.prio k.readyList

/-- The donation that the event makes, if it is a `lock_acquire` of a held
lock, leaves the ready list in order: a ready thread that it raises has ahead
of it only threads that it raises too or that are at the donor's priority. -/
def DonationKeepsOrder (k : Kernel) : Event → Prop
  | .call _ => True
  | .part =>
    match (k.threads k.cur).todo with
    | .acquire l :: _ => k.readyList.Pairwise fun a b =>
        b ∈ raised k l → a ∈ raised k l ∨ k.prio k.cur ≤ k.prio a
    | _ => True

/-- The lock that the event starts to acquire. -/
def acquired (k : Kernel) : Event → Option Nat
  | .call _ => none
  | .part =>
    match (k.threads k.cur).todo with
    | .acquire l :: _ => some l
    | _ => none

theorem donationKeepsOrder_iff {k : Kernel} {e : Event} : (∀ l ∈ acquired k e, k.readyList.Pairwise fun a b =>
    b ∈ raised k l → a ∈ raised k l ∨ k.prio k.cur ≤ k.prio a) ↔ DonationKeepsOrder k e := by
  cases e with
  | call c => simp [acquired, DonationKeepsOrder]
  | part =>
    simp only [acquired, DonationKeepsOrder]
    split <;> simp

instance (k : Kernel) (e : Event) : Decidable (DonationKeepsOrder k e) := decidable_of_iff _ donationKeepsOrder_iff

/-! ## What keeps the order -/

theorem Ordered.congr (h : Ordered k) (hr : k'.readyList = k.readyList)
    (hp : ∀ t ∈ k.readyList, k'.prio t = k.prio t) : Ordered k' := by
  unfold Ordered
  rw [hr]
  exact Desc.congr h hp

/-- A change to a thread that is not in the list. -/
theorem Ordered.modify {f : Thread → Thread} (h : Ordered k) (ht : t ∉ k.readyList) : Ordered (k.modify t f) := by
  refine h.congr rfl fun u hu => ?_
  have hne : u ≠ t := fun he => ht (he ▸ hu)
  simp only [Kernel.prio, modify_threads, if_neg hne]

theorem Ordered.setStatus {st : Status} (h : Ordered k) : Ordered (k.setStatus t st) :=
  h.congr rfl fun u _ => by rw [setStatus_prio]

theorem Ordered.enqueue (h : Ordered k) :
    Ordered ((k.setStatus t .ready).setReady (insertBy k.prio t k.readyList)) := by
  show Desc (k.setStatus t .ready).prio _
  rw [setStatus_prio]
  exact Desc.insertBy h t

theorem ordered_threadUnblock (h : Ordered k) (hk : threadUnblock k t = some k') : Ordered k' := by
  obtain ⟨-, rfl⟩ := threadUnblock_eq_some.mp hk
  exact h.enqueue

theorem ordered_threadYield (h : Ordered k) : Ordered (threadYield k) := by
  simp only [threadYield]
  split
  · exact h.enqueue
  · exact h.setStatus

theorem ordered_schedule (h : Ordered k) : Ordered (schedule k) := by
  simp only [schedule]
  split
  · exact h.setStatus
  · rename_i t rest hr
    have h' : Ordered (k.setReady rest) := by
      unfold Ordered at h
      rw [hr] at h
      exact h.tail
    exact h'.setStatus

theorem ordered_finish (h : Ordered o.kernel) : Ordered o.finish := by
  cases o with
  | done k => exact h
  | sched k => exact ordered_schedule h

theorem ordered_compare (h : Ordered k) : Ordered (compareCurNextPriority k).kernel := by
  simp only [compareCurNextPriority]
  split
  · exact h
  · rename_i t rest hs
    have h' : Ordered (k.setReady (t :: rest)) := by
      show Desc k.prio (t :: rest)
      exact hs ▸ desc_sortBy
    split
    · exact ordered_threadYield h'
    · exact h'

theorem ordered_semaDown (hs : Sane k) (h : Ordered k) : Ordered (semaDown k s).kernel := by
  rw [semaDown_eq]
  split
  · refine h.congr rfl fun u hu => ?_
    have hne : u ≠ k.cur := fun he => hs.cur_not_ready (he ▸ hu)
    show ((blockOn k s).threads u).priority = _
    rw [blockOn_threads, if_neg hne, Kernel.prio]
  · cases s with
    | sema n => exact h
    | lock l => exact h.modify (f := fun th => { th with pendingLock := none }) hs.cur_not_ready

theorem ordered_semaUp (h : Ordered k) (hk : semaUp k s = some k') : Ordered k' := by
  obtain ⟨-, rfl⟩ | ⟨w, ws, -, hk⟩ := semaUp_cases hk
  · exact h
  · exact ordered_threadUnblock (k := k.setSema s _) h hk

theorem ordered_lockRelease {l : Nat} (hs : Sane k) (h : Ordered k) (hk : lockRelease k l = some k') :
    Ordered k' := by
  simp only [lockRelease, Option.ite_none_right_eq_some] at hk
  have h₁ : Ordered (removeDonationForLock k l) := h.modify hs.cur_not_ready
  have h₂ : Ordered (recalcPriority (removeDonationForLock k l)) := h₁.modify hs.cur_not_ready
  exact ordered_semaUp (k := (recalcPriority (removeDonationForLock k l)).setHolder l none) h₂ hk.2

theorem ordered_threadCreate {p : Int} (hs : Sane k) (h : Ordered k) (ho : threadCreate k p = some o) :
    Ordered o.kernel := by
  simp only [threadCreate, Option.map_eq_some_iff] at ho
  obtain ⟨k₂, hk, ho⟩ := ho
  have hnew : k.next ∉ k.readyList := fun hc => absurd (hs.ready _ hc).2.2 (by omega)
  have h₁ : Ordered (k.alloc p) := (h.modify hnew : Ordered (k.modify k.next fun _ => initThread p))
  have h₂ := ordered_threadUnblock h₁ hk
  split at ho <;> subst ho
  · exact ordered_threadYield h₂
  · exact h₂

/-- Raising some threads of a list in order to one priority keeps it in order
when those ahead of a raised one are raised too or are there already. -/
theorem ordered_raise {r : List Nat} {p : Int} (h : Ordered k) (hr : k'.readyList = k.readyList)
    (hp : ∀ t, k'.prio t = if t ∈ r then p else k.prio t) (hle : ∀ t ∈ r, k.prio t ≤ p)
    (hg : k.readyList.Pairwise fun a b => b ∈ r → a ∈ r ∨ p ≤ k.prio a) : Ordered k' := by
  unfold Ordered
  rw [hr]
  refine List.Pairwise.imp₂ (fun a b hab hg => ?_) h hg
  rw [hp a, hp b]
  split <;> split
  · exact le_refl p
  · rename_i hb ha
    exact (hg hb).resolve_left ha
  · rename_i ha
    exact le_trans hab (hle a ha)
  · exact hab

theorem donees_le {fuel : Nat} {p : Int} {pending : Option Nat} :
    ∀ t ∈ donees fuel k p pending, k.prio t ≤ p := by
  induction fuel generalizing pending with
  | zero => simp [donees]
  | succ fuel ih =>
    cases pending with
    | none => simp [donees]
    | some l =>
      simp only [donees]
      split
      · simp
      · split
        · simp
        · rename_i h _ hle
          intro t ht
          rcases List.mem_cons.mp ht with rfl | ht
          · exact not_lt.mp hle
          · exact ih t ht

theorem ordered_lockAcquire {l : Nat} (hs : Sane k) (h : Ordered k) (hg : k.readyList.Pairwise fun a b =>
    b ∈ raised k l → a ∈ raised k l ∨ k.prio k.cur ≤ k.prio a) (ho : lockAcquire k l = some o) :
    Ordered o.kernel := by
  simp only [lockAcquire] at ho
  split at ho
  · cases ho
  · split at ho
    · cases ho
      exact ordered_semaDown hs h
    · rw [Option.map_eq_some_iff] at ho
      obtain ⟨k₂, hw, rfl⟩ := ho
      have hq : Quiet k k₂ := (quiet_modify rfl rfl).trans (quiet_walk hw)
      have hcur : (acquiring k l).prio (acquiring k l).cur = k.prio k.cur := by rw [acquiring_prio]; rfl
      refine ordered_semaDown (hs.quiet hq) (ordered_raise h hq.readyList (fun t => ?_) (fun t ht => ?_) hg)
      · have := walk_prio hw t
        rwa [show k.modify k.cur _ = acquiring k l from rfl, hcur, acquiring_prio] at this
      · have := donees_le t ht
        rwa [acquiring_prio] at this

/-! ## The runs -/

theorem ordered_exec {m : Micro} {ms : List Micro} (hs : Sane k) (h : Ordered k)
    (htodo : (k.threads k.cur).todo = m :: ms) (hg : DonationKeepsOrder k .part)
    (ho : m.exec (k.setTodo k.cur ms) = some o) : Ordered o.kernel := by
  have hs' := hs.setTodo ms
  have h' : Ordered (k.setTodo k.cur ms) := h.modify hs.cur_not_ready
  cases m with
  | acquire l =>
    simp only [DonationKeepsOrder, htodo] at hg
    refine ordered_lockAcquire hs' h' ?_ ho
    rw [raised_setTodo]
    rw [setTodo_prio]
    exact hg
  | down s =>
    cases ho
    exact ordered_semaDown hs' h'
  | release l =>
    simp only [Micro.exec, Option.map_eq_some_iff] at ho
    obtain ⟨k₂, hk, rfl⟩ := ho
    exact ordered_lockRelease hs' h' hk
  | up n =>
    simp only [Micro.exec, Option.map_eq_some_iff] at ho
    obtain ⟨k₂, hk, rfl⟩ := ho
    exact ordered_semaUp h' hk
  | compare =>
    cases ho
    exact ordered_compare h'
  | yield =>
    cases ho
    exact ordered_threadYield h'
  | block =>
    cases ho
    exact h'.setStatus
  | unblock t =>
    simp only [Micro.exec, Option.map_eq_some_iff] at ho
    obtain ⟨k₂, hk, rfl⟩ := ho
    exact ordered_threadUnblock h' hk
  | setPriority p =>
    cases ho
    show Ordered (threadSetPriority (k.setTodo k.cur ms) p)
    exact h'.modify hs'.cur_not_ready
  | init p =>
    simp only [Micro.exec, Option.ite_none_right_eq_some, Option.some.injEq] at ho
    exact ho.2 ▸ h'
  | create p => exact ordered_threadCreate hs' h' ho

theorem ordered_partOut (hs : Sane k) (h : Ordered k) (hg : DonationKeepsOrder k .part)
    (ho : partOut k = some o) : Ordered o.kernel := by
  obtain ⟨m, ms, htodo, -, he⟩ := partOut_eq_some.mp ho
  exact ordered_exec hs h htodo hg he

theorem step_ordered {e : Event} (h : Sane k ∧ Ordered k) (hg : DonationKeepsOrder k e)
    (hk : step k e = some k') : Sane k' ∧ Ordered k' := by
  refine ⟨step_sane h.1 hk, ?_⟩
  cases e with
  | call c =>
    simp only [step, Option.ite_none_right_eq_some, Option.some.injEq] at hk
    exact hk.2 ▸ h.2.modify h.1.cur_not_ready
  | part =>
    simp only [step, Option.map_eq_some_iff] at hk
    obtain ⟨o, ho, rfl⟩ := hk
    exact ordered_finish (ordered_partOut h.1 h.2 hg ho)

/-- In every run in which donations keep the ready list in order, `schedule ()`
runs a ready thread of the highest priority. -/
theorem schedule_picks_highest {value : Nat → Nat} {es : List Event} {e : Event} {next : Nat}
    {rest : List Nat} (hr : run (boot value) es = some k)
    (hg : Run.Always step DonationKeepsOrder (boot value) (es ++ [e]))
    (hs : atSchedule k e = some k') (hq : k'.readyList = next :: rest) :
    ∀ t ∈ k'.readyList, k'.prio t ≤ k'.prio next := by
  obtain ⟨hg₁, hg₂⟩ := Run.always_append hr hg
  have h₀ : Sane (boot value) ∧ Ordered (boot value) := ⟨boot_sane value, List.Pairwise.nil⟩
  obtain ⟨hsane, hord⟩ := Run.run_invariant (fun _ _ _ h hg hk => step_ordered h hg hk) h₀ hr hg₁
  have h' : Ordered k' := by
    cases e with
    | call c => cases hs
    | part =>
      simp only [atSchedule] at hs
      split at hs
      · rename_i o ho
        cases hs
        exact ordered_partOut hsane hord hg₂.1 ho
      · cases hs
  unfold Ordered at h'
  rw [hq] at h'
  intro t ht
  rw [hq] at ht
  rcases List.mem_cons.mp ht with rfl | ht
  · exact le_refl _
  · exact h'.head_max t ht

/-- The initial thread creates one at 50, which takes lock 1 and creates one at
60, which wants lock 1: the holder is the front of the ready list. -/
def donateToFront : List Event :=
  callAll (.create 50) ++ callAll (.lockAcquire 1) ++ callAll (.create 60) ++ [.call (.lockAcquire 1)]

theorem schedule_picks_highest_front : ∃ k k', run (boot fun _ => 0) donateToFront = some k ∧
    atSchedule k .part = some k' ∧ k'.readyList = [2, 0] ∧ ∀ t ∈ k'.readyList, k'.prio t ≤ k'.prio 2 := by
  have h : ((run (boot fun _ => 0) donateToFront).bind fun k =>
      (atSchedule k .part).map Kernel.readyList) = some [2, 0] := by decide +kernel
  simp only [Option.bind_eq_some_iff, Option.map_eq_some_iff] at h
  obtain ⟨k, hr, k', hs, hq⟩ := h
  exact ⟨k, k', hr, hs, hq, schedule_picks_highest hr (by decide +kernel) hs hq⟩

/-- The same, with lock 1 held by the initial thread: the holder is behind the
thread at 50 in the ready list. -/
def donateToBack : List Event :=
  callAll (.lockAcquire 1) ++ callAll (.create 50) ++ callAll (.create 60) ++ [.call (.lockAcquire 1)]

/-- Without the condition: the holder, raised to 60, is passed over for the
thread at 50. -/
theorem schedule_picks_lower : ¬ ∀ (value : Nat → Nat) (es : List Event) (k k' : Kernel) (e : Event)
    (next : Nat) (rest : List Nat), run (boot value) es = some k → atSchedule k e = some k' →
    k'.readyList = next :: rest → ∀ t ∈ k'.readyList, k'.prio t ≤ k'.prio next := by
  intro hall
  have h : ((run (boot fun _ => 0) donateToBack).bind fun k => (atSchedule k .part).map fun k' =>
      (k'.readyList, k'.prio 2, k'.prio 0)) = some ([2, 0], 50, 60) := by decide +kernel
  simp only [Option.bind_eq_some_iff, Option.map_eq_some_iff, Prod.mk.injEq] at h
  obtain ⟨k, hr, k', hs, hq, h2, h0⟩ := h
  have := hall _ _ k k' .part 2 [0] hr hs hq 0 (by simp [hq])
  omega

end PintosKaist.Threads
