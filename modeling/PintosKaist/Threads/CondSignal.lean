/-
Which waiter `cond_signal` wakes (`threads/synch.c`). Every step has the
priorities of its moment, and `list_sort` of a `cond_signal` goes on from its
first step to its last: the order it leaves is that of the keys when none of
them changes in between, and any order otherwise.
-/
import PintosKaist.Threads.ConditionRuns

namespace PintosKaist.Synch

open OrdList PintosKaist.Threads

/-- A step of `CondEvent`, without its priorities. -/
inductive CondAct where
  | lock (e : LockEvent)
  | wait (t : Nat)
  | down (t : Nat)
  | signal (t : Nat)
  | sort (t : Nat) (order : List Nat)
  | up (t : Nat)
  | broadcast (t : Nat)
  | test (t : Nat)

def CondAct.event (prio : Nat → Int) : CondAct → CondEvent
  | .lock e => .lock e
  | .wait t => .wait prio t
  | .down t => .down prio t
  | .signal t => .signal t
  | .sort t order => .sort t order
  | .up t => .up prio t
  | .broadcast t => .broadcast t
  | .test t => .test t

/-- A condition, with what the waiters compare by when the last `list_sort`
began, and whether they still do. -/
structure Signals where
  cond : Cond
  keys : Nat → WithBot Int
  steady : Bool

/-- The waiters compare as they did when the `list_sort` began. -/
def Signals.Agrees (s : Signals) (prio : Nat → Int) : Prop :=
  ∀ w ∈ s.cond.waiters, condKey prio (s.cond.sema w) = s.keys w

instance (s : Signals) (prio : Nat → Int) : Decidable (s.Agrees prio) := inferInstanceAs (Decidable (∀ _ ∈ _, _))

/-- A step with the priorities of its moment. -/
def Signals.step (s : Signals) : (Nat → Int) × CondAct → Option Signals
  | (prio, a) => (s.cond.step (a.event prio)).bind fun c =>
    match a with
    | .signal _ | .test _ => some ⟨c, fun w => condKey prio (s.cond.sema w), true⟩
    | .sort _ order =>
      if s.steady = true ∧ s.Agrees prio then
        if listSort (fun a b => comparePriorityForCond prio (s.cond.sema a) (s.cond.sema b)) s.cond.waiters =
            some order then
          some ⟨c, s.keys, true⟩
        else none
      else some ⟨c, s.keys, false⟩
    | _ => some ⟨c, s.keys, s.steady && decide (s.Agrees prio)⟩

def Signals.init : Signals := ⟨.init, fun _ => ⊥, false⟩

/-! ## What a signal should find -/

/-- The step is the `list_pop_front` and `sema_up` of a `cond_signal`. -/
def Signals.takes (s : Signals) : CondAct → Bool
  | .up t => match s.cond.place t with
    | .sorted _ => true
    | _ => false
  | _ => false

/-- The call has reached `sema_down` and waits in its semaphore. -/
def Cond.sleeps (s : Cond) (w : Nat) : Prop := s.place (s.owner w) = .asleep w

instance (s : Cond) (w : Nat) : Decidable (s.sleeps w) := inferInstanceAs (Decidable (_ = _))

/-- The thread of call `w` has a priority at least that of each thread on
`cond->waiters`. -/
def Cond.Top (s : Cond) (prio : Nat → Int) (w : Nat) : Prop := ∀ v ∈ s.waiters, prio (s.owner v) ≤ prio (s.owner w)

instance (s : Cond) (prio : Nat → Int) (w : Nat) : Decidable (s.Top prio w) := inferInstanceAs (Decidable (∀ _ ∈ _, _))

/-- The thread that is signalled has a priority at least that of every other
thread that has called `cond_wait` and has not been signalled. -/
def Highest (s : Signals) (e : (Nat → Int) × CondAct) : Prop :=
  s.takes e.2 = true → ∀ w ∈ s.cond.waiters.head?, ∀ v < s.cond.next, v ∉ s.cond.signalled →
    e.1 (s.cond.owner v) ≤ e.1 (s.cond.owner w)

instance (s : Signals) (e : (Nat → Int) × CondAct) : Decidable (Highest s e) :=
  inferInstanceAs (Decidable (_ → ∀ _ ∈ _, _))

/-- Since the `list_sort` began no waiter has come to compare otherwise. -/
def Steady (s : Signals) (e : (Nat → Int) × CondAct) : Prop :=
  s.takes e.2 = true → s.steady = true ∧ s.Agrees e.1

instance (s : Signals) (e : (Nat → Int) × CondAct) : Decidable (Steady s e) := inferInstanceAs (Decidable (_ → _ ∧ _))

/-- A waiter of the highest priority has reached `sema_down`; or none has, and
the first has the highest priority. -/
def Reached (s : Signals) (e : (Nat → Int) × CondAct) : Prop :=
  s.takes e.2 = true → (∃ w ∈ s.cond.waiters, s.cond.sleeps w ∧ s.cond.Top e.1 w) ∨
    (∀ w ∈ s.cond.waiters, ¬ s.cond.sleeps w) ∧ ∀ w ∈ s.cond.waiters.head?, s.cond.Top e.1 w

variable {s s' : Signals} {c c' : Cond} {t w : Nat} {b : Bool} {p : Place} {prio : Nat → Int} {e : CondEvent}
  {ev : (Nat → Int) × CondAct} {es : List ((Nat → Int) × CondAct)}

/-! ## The order of the list -/

/-- The steps of a `list_sort`, from its first to its last. -/
def CondEvent.sorts : CondEvent → Bool
  | .signal _ | .test _ | .sort _ _ => true
  | _ => false

theorem place_update (places : Nat → Place) {u : Nat} (q : Place) (hq : q ≠ p)
    (hp : Function.update places u q t = p) : t ≠ u ∧ places t = p := by
  rw [Function.update_apply] at hp
  split at hp
  · exact absurd hp hq
  · rename_i he
    exact ⟨he, hp⟩

theorem not_takes_ne {q : Place} (hp : p.takes = true) (hq : q.takes = false) : q ≠ p := by
  rintro rfl
  rw [hp] at hq
  cases hq

/-- A thread in `cond_signal`, with a waiter to take off, has just got to where
it is, or was there before, with nobody else at the list. -/
theorem takes_before (h : c.Ok) (hs : c.step e = some c') (hp : c'.place t = p) (htakes : p.takes = true) :
    (e = .signal t ∨ e = .test t ∨ ∃ order, e = .sort t order) ∨
      c.place t = p ∧ c'.waiters = c.waiters ∧ e.sorts = false := by
  -- no other thread holds the lock
  have halone {u : Nat} (ht : c.place t = p) (hu : c.lock.holder = some u) : u = t :=
    h.alone (by rw [ht]; exact Place.takes_signals htakes) hu
  have hne {q : Place} (hq : q.takes = false) : q ≠ p := not_takes_ne htakes hq
  cases e with
  | lock e =>
    simp only [Cond.step, Option.ite_none_right_eq_some, Option.map_eq_some_iff] at hs
    obtain ⟨-, l, -, rfl⟩ := hs
    cases e with
    | hold u =>
      simp only [Cond.afterLock] at hp ⊢
      split
      · rename_i w hpast
        simp only [hpast] at hp
        exact .inr ⟨(place_update c.place .out (hne rfl) hp).2, rfl, rfl⟩
      · rename_i hpast
        split at hp
        · rename_i w hw
          exact absurd hw (hpast w)
        · exact .inr ⟨hp, rfl, rfl⟩
    | _ => exact .inr ⟨hp, rfl, rfl⟩
  | wait prio u =>
    simp only [Cond.step, Option.ite_none_right_eq_some, Option.some.injEq] at hs
    obtain ⟨hu, rfl⟩ := hs
    obtain ⟨htu, ht⟩ := place_update c.place (.joined c.next) (hne rfl) hp
    exact absurd (halone ht hu.2.2) (Ne.symm htu)
  | down prio u =>
    have hdown (w : Nat) (hp : (c.afterDown prio u w).place t = p) : c.place t = p := by
      refine (place_update c.place _ (hne ?_) hp).2
      split <;> rfl
    simp only [Cond.step] at hs
    split at hs
    · simp only [Option.ite_none_right_eq_some, Option.some.injEq] at hs
      obtain ⟨-, rfl⟩ := hs
      exact .inr ⟨hdown _ hp, rfl, rfl⟩
    · obtain rfl := Option.some.inj hs
      exact .inr ⟨hdown _ hp, rfl, rfl⟩
    · cases hs
  | signal u =>
    simp only [Cond.step, Option.ite_none_right_eq_some, Option.some.injEq] at hs
    obtain ⟨hu, rfl⟩ := hs
    by_cases htu : t = u
    · exact .inl (.inl (by rw [htu]))
    · have ht : c.place t = p := by
        split at hp
        · exact hp
        · exact (Function.update_of_ne htu ..).symm.trans hp
      exact absurd (halone ht hu.2.2) (Ne.symm htu)
  | sort u order =>
    simp only [Cond.step] at hs
    split at hs
    · rename_i b' hu
      simp only [Option.ite_none_right_eq_some, Option.some.injEq] at hs
      obtain ⟨-, rfl⟩ := hs
      by_cases he : t = u
      · exact .inl (.inr (.inr ⟨order, by rw [he]⟩))
      · have ht : c.place t = p := (Function.update_of_ne he ..).symm.trans hp
        exact absurd (halone ht (h.signaller u (by rw [hu]; rfl))) (Ne.symm he)
    · cases hs
  | up prio u =>
    simp only [Cond.step] at hs
    split at hs
    · rename_i b' w ws hu hw
      obtain rfl := Option.some.inj hs
      have hturn (hp : Function.update c.place u (if b' then .looping else .out) t = p) :
          t ≠ u ∧ c.place t = p := place_update c.place _ (hne (by split <;> rfl)) hp
      have ht : t ≠ u ∧ c.place t = p := by
        simp only [Cond.afterUp] at hp
        split at hp
        · exact hturn hp
        · exact hturn (place_update _ _ (hne rfl) hp).2
      exact absurd (halone ht.2 (h.signaller u (by rw [hu]; rfl))) (Ne.symm ht.1)
    · cases hs
  | broadcast u =>
    simp only [Cond.step, Option.ite_none_right_eq_some, Option.some.injEq] at hs
    obtain ⟨hu, rfl⟩ := hs
    obtain ⟨htu, ht⟩ := place_update c.place .looping (hne rfl) hp
    exact absurd (halone ht hu.2.2) (Ne.symm htu)
  | test u =>
    simp only [Cond.step, Option.ite_none_right_eq_some] at hs
    obtain ⟨hu, hs⟩ := hs
    by_cases htu : t = u
    · exact .inl (.inr (.inl (by rw [htu])))
    · have ht : c.place t = p := by
        split at hs
        · obtain rfl := Option.some.inj hs
          exact (Function.update_of_ne htu ..).symm.trans hp
        · simp only [Option.ite_none_right_eq_some, Option.some.injEq] at hs
          obtain ⟨-, rfl⟩ := hs
          exact (Function.update_of_ne htu ..).symm.trans hp
      exact absurd (halone ht (h.signaller u (by rw [hu]; rfl))) (Ne.symm htu)

/-- A thread that stands behind its `list_sort` has just made it, or stood
there before, with nobody else at the list. -/
theorem sorted_before (h : c.Ok) (hs : c.step e = some c') (hp : c'.place t = .sorted b) :
    (∃ order, e = .sort t order) ∨ c.place t = .sorted b ∧ c'.waiters = c.waiters ∧ e.sorts = false := by
  obtain (rfl | rfl | he) | hbefore := takes_before h hs hp rfl
  · simp only [Cond.step, Option.ite_none_right_eq_some, Option.some.injEq] at hs
    obtain ⟨ht, rfl⟩ := hs
    split at hp
    · rw [ht.1] at hp
      cases hp
    · rw [show (_ : Cond).place t = _ from setPlace_place.trans (if_pos rfl)] at hp
      cases hp
  · simp only [Cond.step, Option.ite_none_right_eq_some] at hs
    obtain ⟨-, hs⟩ := hs
    split at hs
    · obtain rfl := Option.some.inj hs
      rw [setPlace_place, if_pos rfl] at hp
      cases hp
    · simp only [Option.ite_none_right_eq_some, Option.some.injEq] at hs
      obtain ⟨-, rfl⟩ := hs
      rw [show (_ : Cond).place t = _ from setPlace_place.trans (if_pos rfl)] at hp
      cases hp
  · exact .inl he
  · exact .inr hbefore

/-- Behind a `list_sort` that nothing disturbed the list is in the order of
the keys. -/
structure Signals.Ok (s : Signals) : Prop where
  cond : s.cond.Ok
  sorted : ∀ t b, s.cond.place t = .sorted b → s.steady = true → Desc s.keys s.cond.waiters

theorem init_signals : Signals.init.Ok := ⟨init_cond, nofun⟩

theorem listSort_desc {order : List Nat} (ha : s.Agrees prio)
    (hl : listSort (fun a b => comparePriorityForCond prio (s.cond.sema a) (s.cond.sema b)) s.cond.waiters = some order) :
    Desc s.keys order := by
  have hless : (fun a b => comparePriorityForCond prio (s.cond.sema a) (s.cond.sema b)) =
      lessBy fun w => condKey prio (s.cond.sema w) := by
    funext a b
    exact comparePriorityForCond_eq prio (s.cond.sema a) (s.cond.sema b)
  rw [hless, listSort_eq] at hl
  obtain rfl := Option.some.inj hl
  exact desc_sortBy.congr fun w hw => (ha w (mem_sortBy.mp hw)).symm

theorem step_signals (h : s.Ok) (hs : s.step ev = some s') : s'.Ok := by
  obtain ⟨prio, a⟩ := ev
  simp only [Signals.step, Option.bind_eq_some_iff] at hs
  obtain ⟨c, hc, hs⟩ := hs
  have hok : c.Ok := step_cond h.cond hc
  -- a step that neither starts nor ends a sort
  have hkeep (hsort : (a.event prio).sorts = false)
      (hs' : s' = ⟨c, s.keys, s.steady && decide (s.Agrees prio)⟩) : s'.Ok := by
    subst hs'
    refine ⟨hok, fun t b hp hst => ?_⟩
    simp only [Bool.and_eq_true] at hst
    obtain ⟨order, he⟩ | ⟨ht, hw, -⟩ := sorted_before h.cond hc hp
    · rw [he] at hsort
      cases hsort
    · show Desc s.keys c.waiters
      rw [hw]
      exact h.sorted t b ht hst.1
  cases a with
  | signal u | test u =>
    obtain rfl := Option.some.inj hs
    refine ⟨hok, fun t b hp _ => ?_⟩
    obtain ⟨order, he⟩ | ⟨-, -, he⟩ := sorted_before h.cond hc hp
    · cases he
    · cases he
  | sort u order =>
    have hw : c.waiters = order := by
      simp only [CondAct.event, Cond.step] at hc
      split at hc
      · simp only [Option.ite_none_right_eq_some, Option.some.injEq] at hc
        rw [← hc.2]
      · cases hc
    simp only at hs
    split at hs
    · rename_i hag
      split at hs
      · rename_i hl
        obtain rfl := Option.some.inj hs
        refine ⟨hok, fun _ _ _ _ => ?_⟩
        show Desc s.keys c.waiters
        rw [hw]
        exact listSort_desc hag.2 hl
      · cases hs
    · obtain rfl := Option.some.inj hs
      exact ⟨hok, fun _ _ _ hst => by cases hst⟩
  | lock e => exact hkeep rfl (Option.some.inj hs).symm
  | wait u => exact hkeep rfl (Option.some.inj hs).symm
  | down u => exact hkeep rfl (Option.some.inj hs).symm
  | up u => exact hkeep rfl (Option.some.inj hs).symm
  | broadcast u => exact hkeep rfl (Option.some.inj hs).symm

/-! ## Who is at the front -/

/-- A waiter that sleeps compares by its priority, and any other is below all
that do. -/
theorem Cond.Ok.condKey_eq (h : c.Ok) (hw : w ∈ c.waiters) :
    condKey prio (c.sema w) = if c.sleeps w then (prio (c.owner w) : WithBot Int) else ⊥ := by
  have hq := (h.call w (h.lt_next (.inl hw))).queue
  unfold condKey
  by_cases hp : c.place (c.owner w) = .asleep w
  · have hs : c.sleeps w := hp
    rw [hq, if_pos hs, if_pos hp]
  · have hs : ¬ c.sleeps w := hp
    rw [hq, if_neg hs, if_neg hp]

/-- The calls that have not been signalled are those on the list. -/
theorem Cond.Ok.mem_waiters (h : c.Ok) : w ∈ c.waiters ↔ w < c.next ∧ w ∉ c.signalled := by
  constructor
  · exact fun hw => ⟨h.lt_next (.inl hw), h.not_signalled hw⟩
  · rintro ⟨hlt, hns⟩
    exact (List.mem_append.mp (h.once.mem_iff.mpr (List.mem_range.mpr hlt))).resolve_right hns

/-- With the list in the order of its keys, the front one has the highest
priority of all in the two cases of `Reached`. -/
theorem Cond.Ok.top_iff {ws : List Nat} (h : c.Ok) (hw : c.waiters = w :: ws)
    (hd : Desc (fun v => condKey prio (c.sema v)) c.waiters) :
    c.Top prio w ↔ (∃ v ∈ c.waiters, c.sleeps v ∧ c.Top prio v) ∨
      (∀ v ∈ c.waiters, ¬ c.sleeps v) ∧ ∀ v ∈ c.waiters.head?, c.Top prio v := by
  have hmem : w ∈ c.waiters := by rw [hw]; exact List.mem_cons_self
  have hle : ∀ v ∈ c.waiters, condKey prio (c.sema v) ≤ condKey prio (c.sema w) := by
    intro v hv
    rw [hw] at hv hd
    obtain rfl | hv := List.mem_cons.mp hv
    · exact le_rfl
    · exact hd.head_max v hv
  -- when one sleeps, the front one does, and has at least its priority
  have hfront : ∀ v ∈ c.waiters, c.sleeps v → c.sleeps w ∧ prio (c.owner v) ≤ prio (c.owner w) := by
    intro v hv hsl
    have hk := hle v hv
    rw [h.condKey_eq hv, if_pos hsl, h.condKey_eq hmem] at hk
    split at hk
    · rename_i hsw
      exact ⟨hsw, WithBot.coe_le_coe.mp hk⟩
    · exact absurd hk (WithBot.not_coe_le_bot _)
  constructor
  · intro htop
    by_cases hs : ∃ v ∈ c.waiters, c.sleeps v
    · obtain ⟨v, hv, hsl⟩ := hs
      exact .inl ⟨w, hmem, (hfront v hv hsl).1, htop⟩
    · refine .inr ⟨fun v hv hsl => hs ⟨v, hv, hsl⟩, fun v hv => ?_⟩
      rw [hw] at hv
      obtain rfl := Option.some.inj hv
      exact htop
  · rintro (⟨v, hv, hsl, htop⟩ | ⟨-, htop⟩)
    · exact fun u hu => (htop u hu).trans (hfront v hv hsl).2
    · exact htop w (by rw [hw]; rfl)

theorem Signals.Ok.highest_iff (h : s.Ok) (hst : Steady s ev) : Highest s ev ↔ Reached s ev := by
  unfold Highest Reached
  refine forall_congr' fun ht => ?_
  obtain ⟨hsteady, hag⟩ := hst ht
  obtain ⟨prio, a⟩ := ev
  obtain ⟨t, rfl, b, hp⟩ : ∃ t, a = .up t ∧ ∃ b, s.cond.place t = .sorted b := by
    unfold Signals.takes at ht
    split at ht
    · rename_i t
      split at ht
      · rename_i b hp
        exact ⟨_, ‹_›, b, hp⟩
      · cases ht
    · cases ht
  have hd : Desc (fun v => condKey prio (s.cond.sema v)) s.cond.waiters := (h.sorted t b hp hsteady).congr hag
  have hne : s.cond.waiters ≠ [] := h.cond.found t (by rw [hp]; rfl)
  obtain ⟨w, ws, hw⟩ := List.exists_cons_of_ne_nil hne
  have htop : (∀ v < s.cond.next, v ∉ s.cond.signalled → prio (s.cond.owner v) ≤ prio (s.cond.owner w)) ↔
      s.cond.Top prio w := by
    unfold Cond.Top
    refine forall_congr' fun v => ?_
    rw [h.cond.mem_waiters, and_imp]
  rw [← h.cond.top_iff hw hd, ← htop, hw]
  simp only [List.head?_cons, Option.mem_def, Option.some.injEq, forall_eq']

/-! ## Runs -/

/-- Over every run of `cond_wait`, `cond_signal`, `cond_broadcast` and the lock
in which no waiter comes to compare otherwise while a `cond_signal` sorts, each
signal goes to a thread of the highest priority exactly when each finds one
that has reached `sema_down`, or none that has and the first of the highest
priority. -/
theorem signal_highest (hst : Run.Always Signals.step Steady .init es) :
    Run.Always Signals.step Highest .init es ↔ Run.Always Signals.step Reached .init es := by
  have hrun : ∀ {es : List ((Nat → Int) × CondAct)} {s : Signals}, s.Ok → Run.Always Signals.step Steady s es →
      (Run.Always Signals.step Highest s es ↔ Run.Always Signals.step Reached s es) := by
    intro es
    induction es with
    | nil => exact fun _ _ => Iff.rfl
    | cons e es ih =>
      intro s h hst
      rw [Run.always_cons, Run.always_cons, h.highest_iff hst.1]
      refine and_congr_right fun _ => forall_congr' fun s' => forall_congr' fun hs => ?_
      exact ih (step_signals h hs) (hst.2 s' hs)
  exact hrun init_signals hst

/-- Thread 1 at 10, thread 2 at 20, the others at 31. -/
def threePrio (t : Nat) : Int := if t = 1 then 10 else if t = 2 then 20 else 31

def enter (t : Nat) : List CondAct := [.lock (.acquire t), .lock (.down threePrio t), .lock (.hold t)]

def leave (t : Nat) : List CondAct := [.lock (.release t), .lock (.up threePrio t)]

/-- Thread `t` takes the lock, and is on `cond->waiters`. -/
def join (t : Nat) : List CondAct := enter t ++ [.wait t]

/-- Threads 2 and 1 wait, and thread 3 signals twice. -/
def signalTwice : List ((Nat → Int) × CondAct) :=
  let acts : List CondAct := join 2 ++ leave 2 ++ [CondAct.down 2] ++ join 1 ++ leave 1 ++
    [CondAct.down 1] ++ enter 3 ++ [CondAct.signal 3, .sort 3 [0, 1], .up 3, .signal 3, .sort 3 [1], .up 3]
  acts.map fun a => (threePrio, a)

theorem signal_highest_twice : (Run.run Signals.step .init signalTwice).any (fun s => s.cond.signalled = [1, 0]) = true ∧
    (Run.Always Signals.step Highest .init signalTwice ↔ Run.Always Signals.step Reached .init signalTwice) :=
  ⟨by decide +kernel, signal_highest (by decide +kernel)⟩

/-- Thread 2 is preempted in its `lock_release` by thread 3, which waits for the
lock, and signals while thread 2 is still before its `sema_down`. -/
def signalEarly : List ((Nat → Int) × CondAct) :=
  let acts : List CondAct := join 1 ++ leave 1 ++ [CondAct.down 1] ++ join 2 ++
    [CondAct.lock (.acquire 3), .lock (.down threePrio 3)] ++ leave 2 ++
    [CondAct.lock (.down threePrio 3), .lock (.hold 3), .signal 3, .sort 3 [0, 1], .up 3]
  acts.map fun a => (threePrio, a)

theorem not_signal_highest : (Run.run Signals.step .init signalEarly).any (fun s => s.cond.signalled = [0]) = true ∧
    Run.Always Signals.step Steady .init signalEarly ∧ ¬ Run.Always Signals.step Highest .init signalEarly :=
  ⟨by decide +kernel, by decide +kernel, by decide +kernel⟩

end PintosKaist.Synch
