/-
The runs of a condition variable: what each step does to the calls of
`cond_wait`.

Only the holder of the lock is in `cond_signal` or `cond_broadcast`, so the list
changes by its hand alone (`turn`, `up`); a thread in `cond_wait` changes its own
semaphore and nothing else (`inside`).
-/
import PintosKaist.Threads.Condition

namespace PintosKaist.Synch

open OrdList

variable {s s' : Cond} {t u w : Nat} {p q : Place} {prio : Nat → Int} {e : CondEvent}

/-! ## The lock -/

/-- Nobody takes the lock from its holder. -/
theorem Lock.Owned.holder_kept {l l' : Lock} {o : Option Nat} {e : LockEvent} (h : l.Owned o) (ht : l.holder = some t)
    (he : e.thread ≠ some t) (hs : l.step e = some l') : l'.holder = some t := by
  cases e with
  | acquire u | release u | hold u =>
    simp only [Lock.step, Option.ite_none_right_eq_some, Option.some.injEq] at hs
    obtain ⟨hg, rfl⟩ := hs
    first
    | exact ht
    | exact absurd (congrArg some (Option.some.inj (hg.2.symm.trans ht))) he
    | -- one thread at most is past its down
      have hu : o = some u := (h.critical u).mp (by rw [hg]; rfl)
      have ht' : o = some t := (h.critical t).mp (by rw [(h.inside t).mpr ht]; rfl)
      exact absurd (hu.symm.trans ht') he
  | down prio u =>
    simp only [Lock.step, Option.ite_none_right_eq_some, Option.some.injEq] at hs
    obtain ⟨-, rfl⟩ := hs
    exact ht
  | tryAcquire u =>
    simp only [Lock.step, Option.ite_none_right_eq_some, Option.some.injEq] at hs
    obtain ⟨-, rfl⟩ := hs
    split <;> exact ht
  | up prio u =>
    simp only [Lock.step, Option.ite_none_right_eq_some, Option.some.injEq] at hs
    obtain ⟨-, rfl⟩ := hs
    split <;> exact ht
  | sort prio => exact Option.some.inj hs ▸ ht

/-- A thread in `cond_signal` or `cond_broadcast` does nothing to the lock. -/
theorem Place.signals_allows {e : LockEvent} (hp : p.signals = true) (ha : p.allows e = true) : e.thread = none := by
  cases e <;> cases p <;> simp_all [Place.signals, Place.allows, LockEvent.thread]

theorem Cond.Ok.lock {l : Lock} {e : LockEvent} (h : s.Ok) (ha : e.thread.all fun t => (s.place t).allows e)
    (hl : s.lock.step e = some l) : Cond.Ok { s with lock := l } := by
  obtain ⟨o, ho⟩ := h.owned
  have hcall : ∀ w < s.next, Cond.CallOk { s with lock := l } w := fun w hw =>
    (h.call w hw).congr rfl rfl Iff.rfl Iff.rfl Iff.rfl Iff.rfl Iff.rfl
  refine ⟨⟨h.once, h.hits, hcall, h.passed, h.passedNodup, h.past, h.returned, h.broadcast, h.ended⟩,
    step_owned ⟨o, ho⟩ hl, fun t ht => ?_, h.found, h.own⟩
  refine ho.holder_kept (h.signaller t ht) (fun he => ?_) hl
  rw [he, Option.all_some] at ha
  have := Place.signals_allows ht ha
  rw [he] at this
  cases this

/-- `cond_wait` returns. -/
theorem Cond.Ok.leave (h : s.Ok) (hp : s.place t = .past w) :
    Cond.Ok { s.setPlace t .out with returned := w :: s.returned } := by
  have hkeep (u : Nat) {f : Place → Bool} (hf : f .out = f (.past w)) :
      f ((s.setPlace t .out).place u) = f (s.place u) := setPlace_flag (by rw [hf, hp]) u
  refine ⟨⟨h.once, ?_, fun v hv => ?_, h.passed, h.passedNodup, fun u v hu => ?_, fun v hv => ?_, fun u hu => ?_,
    fun u hu => ?_⟩, h.owned, fun u hu => ?_, fun u hu => ?_, fun u v hu => ?_⟩
  · simp only [hkeep _ (f := Place.takes) rfl]
    exact h.hits
  · have := (h.call v hv).setPlace (t := t) (q := .out) (by rw [hp]; rfl) rfl
    exact this.congr rfl rfl Iff.rfl Iff.rfl Iff.rfl Iff.rfl Iff.rfl
  · rw [setPlace_place] at hu
    split at hu
    · cases hu
    · exact h.past u v hu
  · obtain rfl | hv := List.mem_cons.mp hv
    · exact h.past t v hp
    · exact h.returned v hv
  · exact h.broadcast u (hkeep u (f := Place.broadcasts) rfl ▸ hu)
  · exact h.ended u (hkeep u (f := Place.broadcasts) rfl ▸ hu)
  · exact h.signaller u (hkeep u (f := Place.signals) rfl ▸ hu)
  · exact h.found u (hkeep u (f := Place.takes) rfl ▸ hu)
  · refine h.own u v ?_
    simp only [setPlace_place] at hu
    split at hu
    · simp at hu
    · exact hu

/-! ## `cond_wait` -/

theorem Cond.Ok.lt_next (h : s.Ok) (hw : w ∈ s.waiters ∨ w ∈ s.signalled) : w < s.next :=
  List.mem_range.mp (h.once.mem_iff.mp (List.mem_append.mpr hw))

theorem Cond.Ok.not_signalled (h : s.Ok) (hw : w ∈ s.waiters) : w ∉ s.signalled := by
  have hd := h.once.nodup_iff.mpr List.nodup_range
  exact fun hs => (List.nodup_append.mp hd).2.2 w hw w hs rfl

/-- While a thread signals, no other is in a call that changes the list. -/
theorem Cond.Ok.not_signals (h : s.Ok) (ht : s.holds t) (u : Nat) : (s.place u).signals = false := by
  by_contra hu
  obtain rfl := h.alone (by simpa using hu) ht.2.2
  simp [ht.1, Place.signals] at hu

/-- The others do not signal while the holder does. -/
theorem Cond.Ok.others (h : s.Ok) (ht : s.lock.holder = some t) (hu : u ≠ t) : (s.place u).signals = false := by
  by_contra hc
  exact hu (h.alone (by simpa using hc) ht).symm

/-- The holder is the only one that can be about to take a waiter off. -/
theorem Cond.Ok.hits_of (h : s.Ok) (ht : s.lock.holder = some t) :
    s.hits = s.signalled.length + (s.place t).takes.toNat := by
  obtain ⟨⟨u, hu⟩, hh⟩ | ⟨hn, hh⟩ := h.hits
  · by_cases hut : u = t
    · rw [hh, ← hut, hu]
      rfl
    · exact absurd ((Place.not_takes (h.others ht hut)).symm.trans hu) Bool.false_ne_true
  · rw [hh, hn t]
    rfl

theorem Cond.Ok.wait {r : Nat → Nat → Prop} [DecidableRel r] (h : s.Ok) (ht : s.holds t) :
    Cond.Ok { (s.setSema s.next ⟨0, []⟩).setPlace t (.joined s.next) with
      waiters := s.waiters.orderedInsert r s.next
      owner := Function.update s.owner s.next t
      next := s.next + 1 } := by
  have hnone := h.not_signals ht
  have hplace (u : Nat) : ((s.setSema s.next ⟨0, []⟩).setPlace t (.joined s.next)).place u =
      if u = t then .joined s.next else s.place u := setPlace_place
  have hsig (u : Nat) : (((s.setSema s.next ⟨0, []⟩).setPlace t (.joined s.next)).place u).signals = false := by
    rw [hplace]
    split
    · rfl
    · exact hnone u
  have hhits : s.hits = s.signalled.length := by
    have := h.hits_of ht.2.2
    rwa [ht.1] at this
  have hnew : s.next ∉ s.passed := fun hc => absurd (h.lt_next (.inr (h.passed _ hc))) (by omega)
  have hnews : s.next ∉ s.signalled := fun hc => absurd (h.lt_next (.inr hc)) (by omega)
  refine ⟨⟨?_, .inr ⟨fun u => Place.not_takes (hsig u), hhits⟩, fun v hv => ?_, h.passed, h.passedNodup,
    fun u v hu => ?_, h.returned, fun u hu => ?_, fun u _ => h.ended u (Place.not_broadcasts (hnone u))⟩,
    h.owned, fun u hu => ?_, fun u hu => ?_, fun u v hu => ?_⟩
  · show (s.waiters.orderedInsert r s.next ++ s.signalled).Perm (List.range (s.next + 1))
    rw [List.range_succ]
    have := ((List.perm_orderedInsert r s.next s.waiters).append_right s.signalled).trans (h.once.cons s.next)
    exact this.trans (List.perm_append_singleton _ _).symm
  · have hv : v < s.next + 1 := hv
    by_cases hvn : v = s.next
    · subst hvn
      refine ⟨?_, fun _ => ⟨?_, hnew, .inl ?_⟩, fun hc => absurd hc hnews, fun hc => absurd hc hnew⟩
      · simp [Cond.setSema, Cond.setPlace]
      · simp [Cond.setSema, Cond.setPlace]
      · simp [Cond.setPlace]
    · have hold := h.call v (by omega)
      refine hold.congr ?_ ?_ Iff.rfl Iff.rfl ?_ ?_ ?_
      · simp [Cond.setSema, Cond.setPlace, Function.update_of_ne hvn]
      · simp [Function.update_of_ne hvn]
      all_goals
        simp only [hplace]
        split
        · rename_i he
          rw [he, ht.1]
          simp [Ne.symm hvn]
        · exact Iff.rfl
  · simp only [hplace] at hu
    split at hu
    · cases hu
    · exact h.past u v hu
  · exact absurd ((Place.not_broadcasts (hsig u)).symm.trans hu) Bool.false_ne_true
  · exact absurd ((hsig u).symm.trans hu) Bool.false_ne_true
  · exact absurd ((Place.not_takes (hsig u)).symm.trans hu) Bool.false_ne_true
  · simp only [hplace] at hu
    split at hu
    · rename_i he
      obtain rfl : v = s.next := by simpa [eq_comm] using hu
      exact ⟨Nat.lt_succ_self _, by simp [he]⟩
    · obtain ⟨hlt, ho⟩ := h.own u v hu
      exact ⟨Nat.lt_succ_of_lt hlt, by simp [Function.update_of_ne (Nat.ne_of_lt hlt), ho]⟩

/-- The calls other than the thread's own, when its place changes within it. -/
theorem Cond.CallOk.other {v : Nat} (h : s.CallOk v) (hv : v ≠ w) (hp : s.place t = .joined w ∨ s.place t = .asleep w ∨
    s.place t = .awake w) (hq : q = .past w ∨ q = .asleep w ∨ q = .awake w) : (s.setPlace t q).CallOk v := by
  refine h.congr rfl rfl Iff.rfl Iff.rfl ?_ ?_ ?_ <;>
  · rw [setPlace_place]
    split
    · rename_i he
      rw [he]
      obtain hp | hp | hp := hp <;> obtain rfl | rfl | rfl := hq <;> simp [hp, Ne.symm hv]
    · exact Iff.rfl

theorem afterDown_sleep (hv : (s.sema w).value = 0) : s.afterDown prio t w =
    (s.setSema w { s.sema w with waiters := insertBy prio t (s.sema w).waiters }).setPlace t (.asleep w) := by
  simp [Cond.afterDown, semaDown, hv, Cond.setPlace, Cond.setSema]

theorem afterDown_pass (hv : (s.sema w).value ≠ 0) : s.afterDown prio t w =
    { (s.setSema w { s.sema w with value := (s.sema w).value - 1 }).setPlace t (.past w) with
      passed := w :: s.passed } := by
  simp [Cond.afterDown, semaDown, hv]

/-- Within its call of `cond_wait`, a thread does not touch the list. -/
theorem Cond.Ok.inside {sema : Semaphore} (h : s.Ok) (passed : List Nat)
    (hp : s.place t = .joined w ∨ s.place t = .asleep w ∨ s.place t = .awake w)
    (hq : q = .past w ∨ q = .asleep w ∨ q = .awake w)
    (hcall : Cond.CallOk { (s.setSema w sema).setPlace t q with passed := passed } w)
    (hpassed : ∀ v ≠ w, v ∈ passed ↔ v ∈ s.passed) (hsig : ∀ v ∈ passed, v ∈ s.signalled) (hn : passed.Nodup)
    (hpast : q = .past w → w ∈ passed) (hmono : ∀ v ∈ s.passed, v ∈ passed) :
    Cond.Ok { (s.setSema w sema).setPlace t q with passed := passed } := by
  have hflag (u : Nat) {f : Place → Bool} (hf : f q = f (s.place t)) :
      f (((s.setSema w sema).setPlace t q).place u) = f (s.place u) := setPlace_flag hf u
  have hsignals : q.signals = (s.place t).signals := by
    obtain hp | hp | hp := hp <;> obtain rfl | rfl | rfl := hq <;> rw [hp] <;> rfl
  have htakes : q.takes = (s.place t).takes := by
    obtain hp | hp | hp := hp <;> obtain rfl | rfl | rfl := hq <;> rw [hp] <;> rfl
  have hbroad : q.broadcasts = (s.place t).broadcasts := by
    obtain hp | hp | hp := hp <;> obtain rfl | rfl | rfl := hq <;> rw [hp] <;> rfl
  obtain ⟨hlt, hown⟩ := h.own t w hp
  refine ⟨⟨h.once, ?_, fun v hv => ?_, hsig, hn, fun u v hu => ?_, fun v hv => hmono v (h.returned v hv), fun u hu => ?_,
    fun u hu => ?_⟩, h.owned, fun u hu => ?_, fun u hu => ?_, fun u v hu => ?_⟩
  · simp only [hflag _ htakes]
    exact h.hits
  · by_cases hvw : v = w
    · exact hvw ▸ hcall
    · refine ((h.call v hv).other hvw hp hq).congr ?_ rfl Iff.rfl (hpassed v hvw) Iff.rfl Iff.rfl Iff.rfl
      simp [Cond.setSema, Cond.setPlace, Function.update_of_ne hvw]
  · simp only [setPlace_place] at hu
    split at hu
    · obtain rfl | rfl | rfl := hq
      · obtain rfl : w = v := by simpa using hu
        exact hpast rfl
      · cases hu
      · cases hu
    · exact hmono v (h.past u v hu)
  · exact h.broadcast u ((hflag u hbroad).symm.trans hu)
  · exact h.ended u ((hflag u hbroad).symm.trans hu)
  · exact h.signaller u ((hflag u hsignals).symm.trans hu)
  · exact h.found u ((hflag u htakes).symm.trans hu)
  · simp only [setPlace_place] at hu
    split at hu
    · rename_i he
      have hvw : w = v := by
        obtain rfl | rfl | rfl := hq <;> simp_all
      subst hvw he
      exact ⟨hlt, hown⟩
    · exact h.own u v hu

theorem Cond.Ok.down (h : s.Ok) (hp : s.place t = .joined w ∨ s.place t = .awake w) : (s.afterDown prio t w).Ok := by
  have hp' : s.place t = .joined w ∨ s.place t = .asleep w ∨ s.place t = .awake w := hp.imp_right .inr
  obtain ⟨hlt, hown⟩ := h.own t w hp'
  have hcall := h.call w hlt
  have hnot : w ∉ s.passed := by
    intro hc
    obtain ⟨-, hj, -, ha⟩ := hcall.gone hc
    rw [hown] at hj ha
    exact hp.elim hj ha
  have hempty : (s.sema w).waiters = [] := by
    rw [hcall.queue, hown, if_neg]
    obtain hp | hp := hp <;> simp [hp]
  by_cases hsig : w ∈ s.signalled
  · obtain ⟨hv, -⟩ := hcall.goes hsig hnot
    rw [afterDown_pass (by omega)]
    refine h.inside (w :: s.passed) hp' (.inl rfl)
      ⟨?_, fun hc => absurd hsig hc, fun _ hc => absurd List.mem_cons_self hc, fun _ => ?_⟩ (fun v hv => ?_)
      (fun v hv => ?_) (List.nodup_cons.mpr ⟨hnot, h.passedNodup⟩) (fun _ => List.mem_cons_self)
      fun v hv => List.mem_cons_of_mem w hv
    · simp [Cond.setSema, Cond.setPlace, hown, hempty]
    · simp [Cond.setSema, Cond.setPlace, hown, hv]
    · simp [hv]
    · obtain rfl | hv := List.mem_cons.mp hv
      · exact hsig
      · exact h.passed v hv
  · obtain ⟨hv, -, -⟩ := hcall.waits hsig
    rw [afterDown_sleep hv]
    refine h.inside s.passed hp' (.inr (.inl rfl)) ⟨?_, fun _ => ⟨?_, hnot, .inr ?_⟩,
      fun hc => absurd hc hsig, fun hc => absurd hc hnot⟩ (fun _ _ => Iff.rfl) h.passed h.passedNodup (by simp) fun _ hv => hv
    · simp [Cond.setSema, Cond.setPlace, hown, hempty, insertBy]
    · simp [Cond.setSema, Cond.setPlace, hv]
    · simp [Cond.setSema, Cond.setPlace, hown]

/-! ## `cond_signal` and `cond_broadcast` -/

/-- The holder of the lock moves on in `cond_signal` or `cond_broadcast`, and
sorts the list at most. -/
theorem Cond.Ok.turn (h : s.Ok) (q : Place) (waiters : List Nat) (hits : Nat) (start freed : Nat → List Nat)
    (ht : s.lock.holder = some t) (hp : (s.place t).inCall = false) (hq : q.signals = true ∨ q = .out)
    (hw : waiters.Perm s.waiters) (hfound : q.takes = true → waiters ≠ [])
    (hhits : hits = s.signalled.length + q.takes.toNat) (hrest : ∀ u ≠ t, start u = s.start u ∧ freed u = s.freed u)
    (hbroad : q.broadcasts = true → (freed t ++ waiters).Perm (start t))
    (hend : q.broadcasts = false → (freed t).Perm (start t)) :
    Cond.Ok { s.setPlace t q with waiters := waiters, hits := hits, start := start, freed := freed } := by
  have hcall : q.inCall = false := by
    obtain hq | rfl := hq
    · cases q <;> simp_all [Place.signals, Place.inCall]
    · rfl
  have hplace (u : Nat) : (s.setPlace t q).place u = if u = t then q else s.place u := setPlace_place
  have hne {u : Nat} (hu : u ≠ t) : (s.setPlace t q).place u = s.place u := (hplace u).trans (if_neg hu)
  have hself : (s.setPlace t q).place t = q := (hplace t).trans (if_pos rfl)
  refine ⟨⟨(hw.append_right _).trans h.once, ?_, fun v hv => ?_, h.passed, h.passedNodup, fun u v hu => ?_, h.returned,
    fun u hu => ?_, fun u hu => ?_⟩, h.owned, fun u hu => ?_, fun u hu => ?_, fun u v hu => ?_⟩
  · by_cases hq' : q.takes = true
    · exact .inl ⟨⟨t, (congrArg Place.takes hself).trans hq'⟩, by rw [hhits, hq']; rfl⟩
    · refine .inr ⟨fun u => ?_, by rw [hhits, Bool.eq_false_of_not_eq_true hq']; rfl⟩
      show ((s.setPlace t q).place u).takes = false
      by_cases hu : u = t
      · rw [hu, hself]
        simpa using hq'
      · rw [hne hu]
        exact Place.not_takes (h.others ht hu)
  · exact ((h.call v hv).setPlace hp hcall).congr rfl rfl Iff.rfl Iff.rfl Iff.rfl Iff.rfl Iff.rfl
  · by_cases hut : u = t
    · subst hut
      have hu : q = .past v := hself.symm.trans hu
      obtain hq | rfl := hq
      · simp [hu, Place.signals] at hq
      · cases hu
    · exact h.past u v ((hne hut).symm.trans hu)
  · by_cases hut : u = t
    · subst hut
      exact hbroad ((congrArg Place.broadcasts hself).symm.trans hu)
    · have hu := (congrArg Place.broadcasts (hne hut)).symm.trans hu
      exact absurd ((Place.not_broadcasts (h.others ht hut)).symm.trans hu) Bool.false_ne_true
  · by_cases hut : u = t
    · subst hut
      exact hend ((congrArg Place.broadcasts hself).symm.trans hu)
    · show (freed u).Perm (start u)
      rw [(hrest u hut).1, (hrest u hut).2]
      exact h.ended u (Place.not_broadcasts (h.others ht hut))
  · by_cases hut : u = t
    · exact hut ▸ ht
    · have hu := (congrArg Place.signals (hne hut)).symm.trans hu
      exact absurd ((h.others ht hut).symm.trans hu) Bool.false_ne_true
  · by_cases hut : u = t
    · subst hut
      exact hfound ((congrArg Place.takes hself).symm.trans hu)
    · have hu := (congrArg Place.takes (hne hut)).symm.trans hu
      exact absurd ((Place.not_takes (h.others ht hut)).symm.trans hu) Bool.false_ne_true
  · by_cases hut : u = t
    · subst hut
      have hin : q.inCall = true := by
        have hq' : q = .joined v ∨ q = .asleep v ∨ q = .awake v := by
          rw [← hself]
          exact hu
        obtain rfl | rfl | rfl := hq' <;> rfl
      exact absurd (hcall.symm.trans hin) Bool.false_ne_true
    · refine h.own u v ?_
      rw [← hne hut]
      exact hu

/-- Where the threads are after thread `t`, which ends at `q`, has upped the
semaphore of call `w`: the thread of the call is unblocked if it sleeps. -/
def Cond.placesAfterUp (s : Cond) (t w : Nat) (q : Place) (u : Nat) : Place :=
  if u = t then q else if u = s.owner w ∧ s.place u = .asleep w then .awake w else s.place u

theorem placesAfterUp_self : s.placesAfterUp t w q t = q := if_pos rfl

/-- The others are where they were, or awake. -/
theorem placesAfterUp_other {u : Nat} (hu : u ≠ t) : s.placesAfterUp t w q u = s.place u ∨
    u = s.owner w ∧ s.place u = .asleep w ∧ s.placesAfterUp t w q u = .awake w := by
  rw [Cond.placesAfterUp, if_neg hu]
  split
  · rename_i hc
    exact .inr ⟨hc.1, hc.2, rfl⟩
  · exact .inl rfl

/-- The state once the semaphore of call `w` has been upped. -/
def Cond.upped (s : Cond) (t w : Nat) (q : Place) (ws : List Nat) (freed : Nat → List Nat) : Cond :=
  { s with
    waiters := ws
    freed := freed
    sema := Function.update s.sema w ⟨1, []⟩
    signalled := w :: s.signalled
    place := s.placesAfterUp t w q }

/-- `sema_up` of the semaphore of a call unblocks its thread, and nobody else. -/
theorem afterUp_eq {ws : List Nat} {freed : Nat → List Nat} (hot : s.owner w ≠ t) (hv : (s.sema w).value = 0)
    (hqueue : (s.sema w).waiters = if s.place (s.owner w) = .asleep w then [s.owner w] else []) :
    { s.setPlace t q with waiters := ws, freed := freed }.afterUp prio w = s.upped t w q ws freed := by
  by_cases ha : s.place (s.owner w) = .asleep w
  · rw [if_pos ha] at hqueue
    have hplace : Function.update (Function.update s.place t q) (s.owner w) (.awake w) = s.placesAfterUp t w q := by
      funext u
      simp only [Cond.placesAfterUp, Function.update_apply]
      by_cases huo : u = s.owner w
      · simp [huo, hot, ha]
      · simp [huo]
    simp [Cond.upped, Cond.afterUp, semaUp, hv, hqueue, sortBy, inc, Cond.setSema, Cond.setPlace, hplace]
  · rw [if_neg ha] at hqueue
    have hplace : Function.update s.place t q = s.placesAfterUp t w q := by
      funext u
      simp only [Cond.placesAfterUp, Function.update_apply]
      have hn : ¬ (u = s.owner w ∧ s.place u = .asleep w) := fun hc => ha (hc.1 ▸ hc.2)
      rw [if_neg hn]
    simp [Cond.upped, Cond.afterUp, semaUp, hv, hqueue, sortBy, inc, Cond.setSema, Cond.setPlace, hplace]

/-- The call whose semaphore was upped: its thread will get through its down. -/
theorem Cond.CallOk.upped {ws : List Nat} {freed : Nat → List Nat} (hot : s.owner w ≠ t) (hnp : w ∉ s.passed)
    (hplace : s.place (s.owner w) = .joined w ∨ s.place (s.owner w) = .asleep w) :
    (s.upped t w q ws freed).CallOk w := by
  have hnasleep : s.placesAfterUp t w q (s.owner w) ≠ .asleep w := by
    intro hc
    obtain he | ⟨-, -, he⟩ := placesAfterUp_other hot
    · have ha := he.symm.trans hc
      rw [Cond.placesAfterUp, if_neg hot, if_pos ⟨rfl, ha⟩] at hc
      cases hc
    · cases he.symm.trans hc
  have hgo : s.placesAfterUp t w q (s.owner w) = .joined w ∨ s.placesAfterUp t w q (s.owner w) = .awake w := by
    obtain he | ⟨-, -, he⟩ := placesAfterUp_other hot
    · exact .inl (hplace.elim he.trans fun ha => absurd (he.trans ha) hnasleep)
    · exact .inr he
  have hsema : Function.update s.sema w ⟨1, []⟩ w = ⟨1, []⟩ := Function.update_self ..
  refine ⟨?_, fun hc => absurd List.mem_cons_self hc, fun _ _ => ⟨?_, hgo⟩, fun hc => absurd hc hnp⟩
  · show (Function.update s.sema w ⟨1, []⟩ w).waiters =
      if s.placesAfterUp t w q (s.owner w) = .asleep w then [s.owner w] else []
    rw [if_neg hnasleep, hsema]
  · exact congrArg Semaphore.value hsema

/-- The other calls are as they were. -/
theorem Cond.CallOk.upped_other {v : Nat} {b c : Bool} {ws : List Nat} {freed : Nat → List Nat} (h : s.CallOk v)
    (hvw : v ≠ w) (hp : s.place t = .sorted b) (hq : q = if c then .looping else .out) :
    (s.upped t w q ws freed).CallOk v := by
  have hsame (x : Place) (hx : x = .joined v ∨ x = .asleep v ∨ x = .awake v) :
      s.placesAfterUp t w q (s.owner v) = x ↔ s.place (s.owner v) = x := by
    by_cases hvt : s.owner v = t
    · rw [hvt, placesAfterUp_self, hp, hq]
      obtain rfl | rfl | rfl := hx <;> cases c <;> simp
    · obtain he | ⟨-, ha, he⟩ := placesAfterUp_other hvt
      · rw [he]
      · rw [ha, he]
        obtain rfl | rfl | rfl := hx <;> simp [Ne.symm hvw]
  refine h.congr ?_ rfl (by simp [Cond.upped, hvw]) Iff.rfl (hsame _ (.inl rfl)) (hsame _ (.inr (.inl rfl)))
    (hsame _ (.inr (.inr rfl)))
  exact Function.update_of_ne hvw ..

/-- The end of `cond_signal`: the first waiter is taken off, and its semaphore
upped. -/
theorem Cond.Ok.up {b : Bool} {ws : List Nat} (h : s.Ok) (hp : s.place t = .sorted b) (hw : s.waiters = w :: ws)
    (hq : q = if b then .looping else .out) :
    Cond.Ok ({ s.setPlace t q with
      waiters := ws
      freed := if b then Function.update s.freed t (s.freed t ++ [w]) else s.freed }.afterUp prio w) := by
  have hmem : w ∈ s.waiters := hw ▸ List.mem_cons_self
  have hlt := h.lt_next (.inl hmem)
  have hnot := h.not_signalled hmem
  have hcall := h.call w hlt
  obtain ⟨hv, hnp, hplace⟩ := hcall.waits hnot
  have hot : s.owner w ≠ t := by
    intro he
    rw [he, hp] at hplace
    simp at hplace
  have hholder := h.signaller t (by rw [hp]; rfl)
  rw [afterUp_eq hot hv hcall.queue]
  have hsig {u : Nat} (hu : u ≠ t) : (s.placesAfterUp t w q u).signals = false := by
    obtain he | ⟨-, -, he⟩ := placesAfterUp_other hu
    · rw [he]
      exact h.others hholder hu
    · rw [he]
      rfl
  have htakes (u : Nat) : (s.placesAfterUp t w q u).takes = false := by
    by_cases hu : u = t
    · rw [hu, placesAfterUp_self, hq]
      split <;> rfl
    · exact Place.not_takes (hsig hu)
  have hbroad : q.broadcasts = b := by
    rw [hq]
    cases b <;> rfl
  refine ⟨⟨?_, .inr ⟨htakes, ?_⟩, fun v hv' => ?_, fun v hv' => List.mem_cons_of_mem w (h.passed v hv'), h.passedNodup,
    fun u v hu => ?_, h.returned, fun u hu => ?_, fun u hu => ?_⟩, h.owned, fun u hu => ?_,
    fun u hu => absurd ((htakes u).symm.trans hu) Bool.false_ne_true, fun u v hu => ?_⟩
  · refine List.perm_middle.trans ?_
    have honce := h.once
    rwa [hw] at honce
  · obtain ⟨-, hh⟩ | ⟨hn, -⟩ := h.hits
    · exact hh
    · exact absurd ((hn t).symm.trans (by rw [hp]; rfl)) Bool.false_ne_true
  · by_cases hvw : v = w
    · rw [hvw]
      exact Cond.CallOk.upped hot hnp hplace
    · exact (h.call v hv').upped_other hvw hp hq
  · have hu : s.placesAfterUp t w q u = .past v := hu
    by_cases hut : u = t
    · rw [hut, placesAfterUp_self, hq] at hu
      split at hu <;> cases hu
    · obtain he | ⟨-, -, he⟩ := placesAfterUp_other hut
      · exact h.past u v (he.symm.trans hu)
      · cases he.symm.trans hu
  · have hu : (s.placesAfterUp t w q u).broadcasts = true := hu
    by_cases hut : u = t
    · subst hut
      rw [placesAfterUp_self, hbroad] at hu
      subst hu
      have hold := h.broadcast u (by rw [hp]; rfl)
      rw [hw] at hold
      simpa [Cond.upped] using hold
    · exact absurd ((Place.not_broadcasts (hsig hut)).symm.trans hu) Bool.false_ne_true
  · have hu : (s.placesAfterUp t w q u).broadcasts = false := hu
    by_cases hut : u = t
    · subst hut
      rw [placesAfterUp_self, hbroad] at hu
      subst hu
      exact h.ended u (by rw [hp]; rfl)
    · have hold := h.ended u (Place.not_broadcasts (h.others hholder hut))
      show (if b = true then _ else _ : Nat → List Nat) u |>.Perm _
      split
      · rwa [Function.update_of_ne hut]
      · exact hold
  · by_cases hut : u = t
    · exact hut ▸ hholder
    · exact absurd ((hsig hut).symm.trans hu) Bool.false_ne_true
  · have hu : s.placesAfterUp t w q u = .joined v ∨ s.placesAfterUp t w q u = .asleep v ∨
        s.placesAfterUp t w q u = .awake v := hu
    by_cases hut : u = t
    · rw [hut, placesAfterUp_self, hq] at hu
      cases b <;> simp at hu
    · obtain he | ⟨hown, ha, he⟩ := placesAfterUp_other hut
      · rw [he] at hu
        exact h.own u v hu
      · rw [he] at hu
        obtain rfl : w = v := by simpa using hu
        exact ⟨hlt, hown.symm⟩

/-! ## The runs -/

theorem Cond.Ok.afterLock {l : Lock} {e : LockEvent} (h : s.Ok) (ha : e.thread.all fun t => (s.place t).allows e)
    (hl : s.lock.step e = some l) : Cond.Ok ({ s with lock := l }.afterLock e) := by
  have h' := h.lock ha hl
  cases e with
  | hold t =>
    simp only [Cond.afterLock]
    split
    · rename_i w hp
      exact h'.leave hp
    · exact h'
  | _ => exact h'

theorem Cond.Ok.signal (h : s.Ok) (ht : s.holds t) (hw : s.waiters ≠ []) :
    Cond.Ok { s.setPlace t (.sorting false) with hits := s.hits + 1 } := by
  have hhits := h.hits_of ht.2.2
  rw [ht.1] at hhits
  exact h.turn (.sorting false) s.waiters (s.hits + 1) s.start s.freed ht.2.2
    (by rw [ht.1]; rfl) (.inl rfl) (.refl _) (fun _ => hw) (by rw [hhits]; rfl) (fun _ _ => ⟨rfl, rfl⟩) nofun
    fun _ => h.ended t (by rw [ht.1]; rfl)

theorem Cond.Ok.sort {b : Bool} {order : List Nat} (h : s.Ok) (hp : s.place t = .sorting b)
    (ho : order.Perm s.waiters) : Cond.Ok { s.setPlace t (.sorted b) with waiters := order } := by
  have ht := h.signaller t (by rw [hp]; rfl)
  have hhits := h.hits_of ht
  rw [hp] at hhits
  refine h.turn (.sorted b) order s.hits s.start s.freed ht (by rw [hp]; rfl) (.inl rfl) ho (fun _ hn => ?_) hhits
    (fun _ _ => ⟨rfl, rfl⟩) (fun hb => ?_) fun hb => ?_
  · subst hn
    exact h.found t (by rw [hp]; rfl) ho.symm.eq_nil
  · exact (ho.append_left _).trans (h.broadcast t (by rw [hp, ← hb]; cases b <;> rfl))
  · exact h.ended t (by rw [hp, ← hb]; cases b <;> rfl)

theorem Cond.Ok.startBroadcast (h : s.Ok) (ht : s.holds t) : Cond.Ok { s.setPlace t .looping with
    start := Function.update s.start t s.waiters
    freed := Function.update s.freed t [] } := by
  have hhits := h.hits_of ht.2.2
  rw [ht.1] at hhits
  refine h.turn .looping s.waiters s.hits (Function.update s.start t s.waiters) (Function.update s.freed t []) ht.2.2
    (by rw [ht.1]; rfl) (.inl rfl) (.refl _) nofun hhits
    (fun u hu => ⟨Function.update_of_ne hu .., Function.update_of_ne hu ..⟩) (fun _ => ?_) nofun
  simp only [Function.update_self, List.nil_append]
  exact .refl _

theorem Cond.Ok.test (h : s.Ok) (hp : s.place t = .looping) :
    (s.waiters = [] → (s.setPlace t .out).Ok) ∧
    (s.waiters ≠ [] → Cond.Ok { s.setPlace t (.sorting true) with hits := s.hits + 1 }) := by
  have ht := h.signaller t (by rw [hp]; rfl)
  have hhits := h.hits_of ht
  have hbroad := h.broadcast t (by rw [hp]; rfl)
  rw [hp] at hhits
  constructor
  · intro hw
    rw [hw, List.append_nil] at hbroad
    exact h.turn .out s.waiters s.hits s.start s.freed ht (by rw [hp]; rfl) (.inr rfl) (.refl _) nofun hhits
      (fun _ _ => ⟨rfl, rfl⟩) nofun fun _ => hbroad
  · intro hw
    exact h.turn (.sorting true) s.waiters (s.hits + 1) s.start s.freed ht (by rw [hp]; rfl) (.inl rfl) (.refl _)
      (fun _ => hw) (by rw [hhits]; rfl) (fun _ _ => ⟨rfl, rfl⟩) (fun _ => hbroad) nofun

theorem step_cond (h : s.Ok) (hs : s.step e = some s') : s'.Ok := by
  cases e with
  | lock e =>
    simp only [Cond.step, Option.ite_none_right_eq_some, Option.map_eq_some_iff] at hs
    obtain ⟨ha, l, hl, rfl⟩ := hs
    exact h.afterLock ha hl
  | wait prio t =>
    simp only [Cond.step, Option.ite_none_right_eq_some, Option.some.injEq] at hs
    exact hs.2 ▸ h.wait hs.1
  | down prio t =>
    simp only [Cond.step] at hs
    split at hs
    · rename_i w hp
      simp only [Option.ite_none_right_eq_some, Option.some.injEq] at hs
      exact hs.2 ▸ h.down (.inl hp)
    · rename_i w hp
      exact Option.some.inj hs ▸ h.down (.inr hp)
    · cases hs
  | signal t =>
    simp only [Cond.step, Option.ite_none_right_eq_some, Option.some.injEq] at hs
    obtain ⟨ht, rfl⟩ := hs
    split
    · exact h
    · rename_i hw
      exact h.signal ht hw
  | sort t order =>
    simp only [Cond.step] at hs
    split at hs
    · rename_i b hp
      simp only [Option.ite_none_right_eq_some, Option.some.injEq] at hs
      exact hs.2 ▸ h.sort hp hs.1
    · cases hs
  | up prio t =>
    simp only [Cond.step] at hs
    split at hs
    · rename_i b w ws hp hw
      exact Option.some.inj hs ▸ h.up hp hw rfl
    · cases hs
  | broadcast t =>
    simp only [Cond.step, Option.ite_none_right_eq_some, Option.some.injEq] at hs
    exact hs.2 ▸ h.startBroadcast hs.1
  | test t =>
    simp only [Cond.step, Option.ite_none_right_eq_some] at hs
    obtain ⟨hp, hs⟩ := hs
    split at hs
    · rename_i hw
      exact Option.some.inj hs ▸ (h.test hp).1 hw
    · rename_i hw
      simp only [Option.ite_none_right_eq_some, Option.some.injEq] at hs
      exact hs.2 ▸ (h.test hp).2 hw

theorem init_cond : Cond.init.Ok where
  once := .refl _
  hits := .inr ⟨fun _ => rfl, rfl⟩
  call _ hw := absurd hw (Nat.not_lt_zero _)
  passed := nofun
  passedNodup := List.nodup_nil
  past := nofun
  returned := nofun
  broadcast := nofun
  ended _ _ := .refl _
  owned := owned_of_run (show Run.run Lock.step Lock.init [] = _ from rfl)
  signaller := nofun
  found := nofun
  own t w hp := by simp [Cond.init] at hp

/-- A call that has been signalled goes past its semaphore, once its thread gets
to `sema_down` or back to it. -/
theorem Cond.Ok.goes_past (h : s.Ok) (hw : w ∈ s.signalled) (hn : w ∉ s.passed)
    (hp : s.place (s.owner w) = .joined w → s.lock.phase (s.owner w) = .out) (prio : Nat → Int) :
    ∃ s', s.step (.down prio (s.owner w)) = some s' ∧ w ∈ s'.passed := by
  obtain ⟨hv, hplace⟩ := (h.call w (h.lt_next (.inr hw))).goes hw hn
  have hpass : w ∈ (s.afterDown prio (s.owner w) w).passed := by
    rw [afterDown_pass (by omega)]
    exact List.mem_cons_self
  refine ⟨_, ?_, hpass⟩
  obtain hj | ha := hplace
  · simp [Cond.step, hj, hp hj]
  · simp [Cond.step, ha]

/-! ## `cond_broadcast` ends -/

/-- The thread that takes the step. -/
def CondEvent.thread : CondEvent → Option Nat
  | .lock e => e.thread
  | .wait _ t | .down _ t | .signal t | .sort t _ | .up _ t | .broadcast t | .test t => some t

/-- While a thread is in `cond_broadcast`, the others leave it and the list
alone. -/
theorem Cond.Ok.other_step (h : s.Ok) (ht : (s.place t).signals = true) (he : e.thread ≠ some t)
    (hs : s.step e = some s') : s'.place t = s.place t ∧ s'.waiters = s.waiters := by
  have hholder := h.signaller t ht
  have hne {u : Nat} (hu : some u ≠ some t) : t ≠ u := fun hc => hu (hc ▸ rfl)
  have hnot {u : Nat} (hu : s.lock.holder = some u) (hc : some u ≠ some t) : False := hc (hu.symm.trans hholder)
  cases e with
  | lock e =>
    simp only [Cond.step, Option.ite_none_right_eq_some, Option.map_eq_some_iff] at hs
    obtain ⟨-, l, -, rfl⟩ := hs
    cases e with
    | hold u =>
      simp only [Cond.afterLock]
      split
      · exact ⟨setPlace_place.trans (if_neg (hne he)), rfl⟩
      · exact ⟨rfl, rfl⟩
    | _ => exact ⟨rfl, rfl⟩
  | wait prio u =>
    simp only [Cond.step, Option.ite_none_right_eq_some] at hs
    exact (hnot hs.1.2.2 he).elim
  | down prio u =>
    have hdown (w : Nat) : (s.afterDown prio u w).place t = s.place t ∧ (s.afterDown prio u w).waiters = s.waiters :=
      ⟨setPlace_place.trans (if_neg (hne he)), rfl⟩
    simp only [Cond.step] at hs
    split at hs
    · simp only [Option.ite_none_right_eq_some, Option.some.injEq] at hs
      exact hs.2 ▸ hdown _
    · exact Option.some.inj hs ▸ hdown _
    · cases hs
  | signal u | broadcast u =>
    simp only [Cond.step, Option.ite_none_right_eq_some] at hs
    exact (hnot hs.1.2.2 he).elim
  | sort u order =>
    simp only [Cond.step] at hs
    split at hs
    · rename_i b hp
      exact (hnot (h.signaller u (by rw [hp]; rfl)) he).elim
    · cases hs
  | up prio u =>
    simp only [Cond.step] at hs
    split at hs
    · rename_i b w ws hp hw
      exact (hnot (h.signaller u (by rw [hp]; rfl)) he).elim
    · cases hs
  | test u =>
    simp only [Cond.step, Option.ite_none_right_eq_some] at hs
    exact (hnot (h.signaller u (by rw [hs.1]; rfl)) he).elim

/-- The steps `cond_broadcast` has left at most, when it is at `p` with `n`
waiters on the list: three for each. -/
def Place.left (p : Place) (n : Nat) : Nat :=
  match p with
  | .looping => 3 * n + 1
  | .sorting _ => 3 * n
  | .sorted _ => 3 * n - 1
  | _ => 0

/-- A step of the broadcast itself. -/
theorem Cond.Ok.broadcast_step (h : s.Ok) (ht : (s.place t).broadcasts = true) (he : e.thread = some t)
    (hs : s.step e = some s') : (s'.place t).left s'.waiters.length < (s.place t).left s.waiters.length := by
  have hnout {w : Nat} : s.place t ≠ .out ∧ s.place t ≠ .joined w ∧ s.place t ≠ .awake w := by
    refine ⟨?_, ?_, ?_⟩ <;>
    · intro hc
      rw [hc] at ht
      cases ht
  cases e with
  | lock e =>
    simp only [Cond.step, Option.ite_none_right_eq_some] at hs
    have ha := hs.1
    rw [show e.thread = some t from he, Option.all_some] at ha
    have hnone := Place.signals_allows (Place.broadcasts_signals ht) ha
    cases hnone.symm.trans he
  | wait prio u | signal u | broadcast u =>
    simp only [Cond.step, Option.ite_none_right_eq_some] at hs
    obtain rfl : u = t := Option.some.inj he
    exact absurd hs.1.1 (hnout (w := 0)).1
  | down prio u =>
    obtain rfl : u = t := Option.some.inj he
    simp only [Cond.step] at hs
    split at hs
    · rename_i w hp
      exact absurd hp hnout.2.1
    · rename_i w hp
      exact absurd hp hnout.2.2
    · cases hs
  | sort u order =>
    obtain rfl : u = t := Option.some.inj he
    simp only [Cond.step] at hs
    split at hs
    · rename_i b hp
      simp only [Option.ite_none_right_eq_some, Option.some.injEq] at hs
      obtain ⟨ho, rfl⟩ := hs
      have hpos := List.length_pos_iff.mpr (h.found u (by rw [hp]; rfl))
      have hself : (s.setPlace u (.sorted b)).place u = .sorted b := setPlace_place.trans (if_pos rfl)
      rw [hp, show (_ : Cond).place u = _ from hself, Place.left, Place.left, ho.length_eq]
      omega
    · cases hs
  | up prio u =>
    obtain rfl : u = t := Option.some.inj he
    simp only [Cond.step] at hs
    split at hs
    · rename_i b w ws hp hw
      obtain rfl := Option.some.inj hs
      obtain rfl : b = true := by
        rw [hp] at ht
        cases b
        · cases ht
        · rfl
      have hmem : w ∈ s.waiters := hw ▸ List.mem_cons_self
      have hcall := h.call w (h.lt_next (.inl hmem))
      obtain ⟨hv, -, hplace⟩ := hcall.waits (h.not_signalled hmem)
      have hot : s.owner w ≠ u := by
        intro hc
        rw [hc, hp] at hplace
        simp at hplace
      rw [afterUp_eq hot hv hcall.queue, hp, hw]
      show (s.placesAfterUp u w _ u).left ws.length < _
      rw [Cond.placesAfterUp, if_pos rfl]
      simp only [Place.left, if_true, List.length_cons]
      omega
    · cases hs
  | test u =>
    obtain rfl : u = t := Option.some.inj he
    simp only [Cond.step, Option.ite_none_right_eq_some] at hs
    obtain ⟨hp, hs⟩ := hs
    rw [hp]
    split at hs
    · obtain rfl := Option.some.inj hs
      rw [setPlace_place, if_pos rfl]
      exact Nat.zero_lt_succ _
    · simp only [Option.ite_none_right_eq_some, Option.some.injEq] at hs
      obtain ⟨-, rfl⟩ := hs
      show ((s.setPlace u (.sorting true)).place u).left s.waiters.length < _
      rw [setPlace_place, if_pos rfl]
      exact Nat.lt_succ_self _

end PintosKaist.Synch
