/-
A request that has its channel's lock comes to its end: however the threads,
the drives and the interrupts interleave, there is always one step that brings
it on, none that sets it back, and a bound on how many it takes.
-/
import PintosKaist.Devices.DiskRuns

namespace PintosKaist.Ata

variable {m : Store} {c₀ c c' : Channel} {op : Op} {n : Fin 2} {t : Nat} {k : Task} {pc : Pc} {dev : Fin 2}
  {s₀ s s' : Sys} {e : Event} {es : List Event}

/-- A thread that waits for an interrupt that is not asked for yet has set its
drive to work. -/
theorem stage_down (hs : Stage m c op .down) (hw : c.completionWait = 0) (hi : c.intrq = false) :
    0 < (c.phase op.dev).left := by
  cases hc : op.cmd with
  | read =>
    simp only [Stage, hc] at hs
    obtain ⟨hm, hk | hk⟩ := hs
    · rw [hk.dev]
      exact Nat.two_pos
    · have hsig := hk.signals
      simp [hw, hi] at hsig
  | write data =>
    simp only [Stage, hc] at hs
    obtain ⟨hm, hk⟩ | ⟨hm, hk⟩ := hs
    · rw [hk.dev]
      exact Nat.two_pos
    · have hsig := hk.signals
      simp [hw, hi] at hsig

/-! ## What brings a request on -/

/-- The drive of the request does what it does by itself. -/
theorem Holds.move_serves (h : Holds c₀ m c t k) (hleft : 0 < (c.phase k.op.dev).left) :
    Serves c (c.move k.op.dev) t k := by
  refine .inr (.inr ?_)
  have hb : c.intrq.toNat ≤ 1 := Bool.toNat_le _
  cases hp : c.phase k.op.dev with
  | idle => simp [hp, Phase.left] at hleft
  | ready ws => simp [hp, Phase.left] at hleft
  | wanting sec got => simp [hp, Phase.left] at hleft
  | fetching sec =>
    simp only [Channel.move, hp]
    refine ⟨h.lock, k, h.task, rfl, ?_⟩
    simp only [Channel.left, Channel.setPhase, Function.update_self, hp, Phase.left, Bool.toNat_true]
    omega
  | accepting sec =>
    simp only [Channel.move, hp]
    refine ⟨h.lock, k, h.task, rfl, ?_⟩
    simp only [Channel.left, Channel.setPhase, Function.update_self, hp, Phase.left]
    omega
  | storing sec data =>
    simp only [Channel.move, hp]
    refine ⟨h.lock, k, h.task, rfl, ?_⟩
    simp only [Channel.left, Channel.setPhase, Function.update_self, hp, Phase.left, Bool.toNat_true]
    omega

/-- The driver takes the drive's interrupt. -/
theorem Holds.handle_serves (h : Holds c₀ m c t k) (hi : c.intrq = true) : Serves c c.handle t k := by
  have hexp := (stage_handle h.stage hi).1
  simp only [Channel.handle, hexp, if_true]
  refine .inr (.inr ⟨h.lock, k, h.task, rfl, ?_⟩)
  simp only [Channel.left, Channel.ackStatus, hi, Bool.toNat_true, Bool.toNat_false]
  omega

/-- What a step of others leaves of a request. -/
structure SameRequest (c c' : Channel) (t : Nat) : Prop where
  lock : c'.lock = c.lock
  task : c'.task t = c.task t
  phase : c'.phase = c.phase
  intrq : c'.intrq = c.intrq
  wait : c'.completionWait = c.completionWait

theorem SameRequest.refl (c : Channel) (t : Nat) : SameRequest c c t := ⟨rfl, rfl, rfl, rfl, rfl⟩

/-- No step sets a request back. -/
theorem step_serves (hI : ∀ n, Inv (s₀ n) (s n)) (h : Holds (s₀ n) m (s n) t k) (hstep : step s e = some s') :
    SameRequest (s n) (s' n) t ∨ Serves (s n) (s' n) t k := by
  simp only [step] at hstep
  by_cases hp : panicked s = true
  · rw [if_pos hp] at hstep
    obtain rfl := Option.some.inj hstep
    exact .inl (.refl _ t)
  rw [if_neg hp] at hstep
  cases e with
  | call u i op intrOn =>
    simp only at hstep
    by_cases ho : out s u = true
    · rw [if_pos ho] at hstep
      obtain rfl := Option.some.inj hstep
      by_cases hi : n = i
      · subst hi
        have hu : t ≠ u := fun hu => by
          have hn : (s n).task u = none := by
            simp only [out, Bool.and_eq_true, beq_iff_eq] at ho
            obtain rfl | rfl : n = 0 ∨ n = 1 := by omega
            · exact ho.1
            · exact ho.2
          rw [← hu, h.task] at hn
          cases hn
        rw [Function.update_self]
        exact .inl ⟨rfl, Function.update_of_ne hu _ _, rfl, rfl, rfl⟩
      · rw [Function.update_of_ne hi]
        exact .inl (.refl _ t)
    · rw [if_neg ho] at hstep
      obtain rfl := Option.some.inj hstep
      exact .inl (.refl _ t)
  | run u i =>
    simp only [Option.map_eq_some_iff] at hstep
    obtain ⟨c', hc', rfl⟩ := hstep
    by_cases hi : n = i
    · subst hi
      rw [Function.update_self]
      cases hk : (s n).task u with
      | none =>
        simp only [Channel.run, hk] at hc'
        obtain rfl := Option.some.inj hc'
        exact .inl (.refl _ t)
      | some x =>
        simp only [Channel.run, hk] at hc'
        by_cases hx : x.pc = .acquire
        · -- the lock is taken
          have hu : u ≠ t := fun hu => by
            rw [hu, h.task] at hk
            obtain rfl := Option.some.inj hk
            have hst := h.stage
            rw [hx] at hst
            exact hst
          have hlu : ¬ some t = some u := fun hl => hu (Option.some.inj hl).symm
          simp only [Channel.runTask, hx, h.lock, if_neg hlu, if_neg (Option.some_ne_none t)] at hc'
          obtain rfl := Option.some.inj hc'
          exact .inl (.refl _ t)
        · obtain rfl : t = u := Option.some.inj (h.lock.symm.trans (((hI n).outside u x hk).resolve_left hx))
          obtain rfl := Option.some.inj (h.task.symm.trans hk)
          by_cases hw : k.pc = .down ∧ (s n).completionWait = 0
          · simp only [Channel.runTask, hw.1, hw.2, if_true] at hc'
            obtain rfl := Option.some.inj hc'
            exact .inl (.refl _ t)
          · obtain ⟨c'', hc'', hg⟩ := h.runTask fun hd h0 => hw ⟨hd, h0⟩
            obtain rfl := Option.some.inj (hc''.symm.trans hc')
            exact .inr hg.serves
    · rw [Function.update_of_ne hi]
      exact .inl (.refl _ t)
  | move i dev =>
    obtain rfl := Option.some.inj hstep
    by_cases hi : n = i
    · subst hi
      rw [Function.update_self]
      by_cases hstill : ((s n).phase dev).still = true
      · rw [move_still hstill]
        exact .inl (.refl _ t)
      · have hd : dev = k.op.dev := by
          by_contra hd
          rw [stage_other h.stage hd] at hstill
          exact hstill rfl
        subst hd
        refine .inr (h.move_serves ?_)
        cases hph : (s n).phase k.op.dev with
        | idle => simp [hph, Phase.still] at hstill
        | ready ws => simp [hph, Phase.still] at hstill
        | wanting sec got => simp [hph, Phase.still] at hstill
        | fetching sec => exact Nat.two_pos
        | accepting sec => exact Nat.one_pos
        | storing sec data => exact Nat.two_pos
    · rw [Function.update_of_ne hi]
      exact .inl (.refl _ t)
  | interrupt i =>
    simp only at hstep
    by_cases hq : (s i).intrq = true
    · rw [if_pos hq] at hstep
      have hs' : s' = Function.update s i (s i).handle := by
        obtain rfl | rfl : i = 0 ∨ i = 1 := by omega
        · exact (Option.some.inj hstep).symm
        · exact (Option.some.inj hstep).symm
      subst hs'
      by_cases hi : n = i
      · subst hi
        rw [Function.update_self]
        exact .inr (h.handle_serves hq)
      · rw [Function.update_of_ne hi]
        exact .inl (.refl _ t)
    · rw [if_neg hq] at hstep
      obtain rfl := Option.some.inj hstep
      exact .inl (.refl _ t)

/-- What brings a request on: a step of its thread, or what the thread waits
for. -/
def due (c : Channel) (n : Fin 2) (t : Nat) (k : Task) : Event :=
  if k.pc = .down ∧ c.completionWait = 0 then if c.intrq then .interrupt n else .move n k.op.dev
  else .run t n

theorem step_due (hp : panicked s = false) (h : Holds (s₀ n) m (s n) t k) (hstep : step s (due (s n) n t k) = some s') :
    Serves (s n) (s' n) t k := by
  simp only [step, hp, due] at hstep
  by_cases hw : k.pc = .down ∧ (s n).completionWait = 0
  · rw [if_pos hw] at hstep
    by_cases hi : (s n).intrq = true
    · simp only [if_pos hi] at hstep
      have hs' : s' = Function.update s n (s n).handle := by
        obtain rfl | rfl : n = 0 ∨ n = 1 := by omega
        · exact (Option.some.inj hstep).symm
        · exact (Option.some.inj hstep).symm
      rw [hs', Function.update_self]
      exact h.handle_serves hi
    · simp only [if_neg hi] at hstep
      obtain rfl := Option.some.inj hstep
      rw [Function.update_self]
      have hst := h.stage
      rw [hw.1] at hst
      exact h.move_serves (stage_down hst hw.2 (by simpa using hi))
  · simp only [if_neg hw] at hstep
    obtain ⟨c', hc', hg⟩ := h.runTask fun hd h0 => hw ⟨hd, h0⟩
    simp only [Channel.run, h.task, hc'] at hstep
    obtain rfl := Option.some.inj hstep
    rw [Function.update_self]
    exact hg.serves

/-! ## A request comes to its end -/

/-- A thread has panicked, the channel has done more than `done` requests, or
the one of thread `t` has at most `b` steps left. -/
def Within (n : Fin 2) (t done b : Nat) (s : Sys) : Prop :=
  panicked s = true ∨ done < (s n).log.length ∨
    (s n).lock = some t ∧ ∃ k, (s n).task t = some k ∧ (s n).left k.op k.pc ≤ b

variable {done b : Nat}

theorem panicked_of (h : (s n).panicked = true) : panicked s = true := by
  obtain rfl | rfl : n = 0 ∨ n = 1 := by omega
  · simp [panicked, h]
  · simp [panicked, h]

theorem Inv.holds_of_lock (hI : Inv c₀ c) (hl : c.lock = some t) (hk : c.task t = some k) :
    ∃ m, Holds c₀ m c t k := by
  refine hI.holds hk fun hp => ?_
  obtain ⟨k', m, hk', hcnt, hr, hst⟩ := hI.held t hl
  obtain rfl := Option.some.inj (hk.symm.trans hk')
  rw [hp] at hst
  exact hst

/-- A step that brings the request on takes one from what it has left. -/
theorem within_of_serves (h : Serves (s n) (s' n) t k) (hleft : (s n).left k.op k.pc ≤ b + 1)
    (hlog : done ≤ (s n).log.length) : Within n t done b s' := by
  obtain hp | hl | ⟨hl, k', hk', hop, hlt⟩ := h
  · exact .inl (panicked_of hp)
  · exact .inr (.inl (by omega))
  · exact .inr (.inr ⟨hl, k', hk', by omega⟩)

theorem within_step (hI : ∀ n, Inv (s₀ n) (s n)) (he : e.Proper s₀) (hstep : step s e = some s')
    (hdone : done ≤ (s n).log.length) (h : Within n t done b s) : Within n t done b s' := by
  obtain ⟨s'', hs'', hkeep⟩ := step_keeps hI he
  obtain rfl := Option.some.inj (hs''.symm.trans hstep)
  obtain hp | hl | ⟨hl, k, hk, hleft⟩ := h
  · simp only [step, hp, if_true, Option.some.injEq] at hstep
    exact .inl (hstep ▸ hp)
  · exact .inr (.inl (Nat.lt_of_lt_of_le hl (hkeep.log n).length_le))
  · obtain ⟨m, hh⟩ := (hI n).holds_of_lock hl hk
    obtain hsame | hserves := step_serves hI hh hstep
    · refine .inr (.inr ⟨hsame.lock.trans hl, k, hsame.task.trans hk, ?_⟩)
      simp only [Channel.left, hsame.phase, hsame.intrq]
      exact hleft
    · exact within_of_serves hserves (by omega) hdone

theorem within_run (hI : ∀ n, Inv (s₀ n) (s n)) (hes : ∀ e ∈ es, e.Proper s₀) (hrun : Run.run step s es = some s')
    (hdone : done ≤ (s n).log.length) (h : Within n t done b s) : Within n t done b s' := by
  induction es generalizing s with
  | nil =>
    obtain rfl := Option.some.inj hrun
    exact h
  | cons e es ih =>
    obtain ⟨u, hu, hrest⟩ := Run.run_cons.mp hrun
    obtain ⟨u', hu', hkeep⟩ := step_keeps hI (hes e List.mem_cons_self)
    obtain rfl := Option.some.inj (hu'.symm.trans hu)
    exact ih hkeep.inv (fun e he => hes e (List.mem_cons_of_mem _ he)) hrest
      (Nat.le_trans hdone (hkeep.log n).length_le) (within_step hI (hes e List.mem_cons_self) hu hdone h)

/-- The events of a round: each drive of the channel, the interrupt and the
thread have a turn in it. -/
structure Round (n : Fin 2) (t : Nat) (es : List Event) : Prop where
  run : .run t n ∈ es
  interrupt : .interrupt n ∈ es
  move : ∀ dev, .move n dev ∈ es

theorem Round.due (h : Round n t es) (c : Channel) (k : Task) : due c n t k ∈ es := by
  unfold Ata.due
  split
  · split
    · exact h.interrupt
    · exact h.move _
  · exact h.run

/-- The event that brings the request on is due until it comes. -/
theorem within_due (hI : ∀ n, Inv (s₀ n) (s n)) (hes : ∀ e ∈ es, e.Proper s₀) (hrun : Run.run step s es = some s')
    (hdone : done ≤ (s n).log.length) (hl : (s n).lock = some t) (hk : (s n).task t = some k)
    (hleft : (s n).left k.op k.pc ≤ b + 1) (hmem : due (s n) n t k ∈ es) : Within n t done b s' := by
  induction es generalizing s with
  | nil => cases hmem
  | cons e es ih =>
    obtain ⟨u, hu, hrest⟩ := Run.run_cons.mp hrun
    have he := hes e List.mem_cons_self
    have htail : ∀ e ∈ es, e.Proper s₀ := fun e he => hes e (List.mem_cons_of_mem _ he)
    obtain ⟨u', hu', hkeep⟩ := step_keeps hI he
    obtain rfl := Option.some.inj (hu'.symm.trans hu)
    have hdone' := Nat.le_trans hdone (hkeep.log n).length_le
    by_cases hp : panicked s = true
    · exact within_run hkeep.inv htail hrest hdone' (within_step hI he hu hdone (.inl hp))
    obtain ⟨m, hh⟩ := (hI n).holds_of_lock hl hk
    by_cases hd : e = due (s n) n t k
    · subst hd
      have hserves := step_due (by simpa using hp) hh hu
      exact within_run hkeep.inv htail hrest hdone' (within_of_serves hserves hleft hdone)
    · obtain hsame | hserves := step_serves hI hh hu
      · -- the event is still due
        have hdue : due (u' n) n t k = due (s n) n t k := by
          simp only [due, hsame.wait, hsame.intrq]
        refine ih hkeep.inv htail hrest hdone' (hsame.lock.trans hl) (hsame.task.trans hk) ?_ ?_
        · simp only [Channel.left, hsame.phase, hsame.intrq]
          exact hleft
        · rw [hdue]
          exact (List.mem_cons.mp hmem).resolve_left (Ne.symm hd)
      · exact within_run hkeep.inv htail hrest hdone' (within_of_serves hserves hleft hdone)

theorem Pc.left_pos (cmd : Cmd) (pc : Pc) : 0 < pc.left cmd := by
  cases pc with
  | down => cases cmd <;> simp [Pc.left]
  | idle again i => cases again <;> simp only [Pc.left] <;> omega
  | out r => cases r <;> simp [Pc.left, Reg.index]
  | busy i => simp only [Pc.left]; omega
  | drq => simp only [Pc.left]; omega
  | input got => simp only [Pc.left]; omega
  | output rest => simp only [Pc.left]; omega
  | _ => simp [Pc.left]

/-- A request that has just got the lock has the most steps left. -/
theorem Holds.left_le (h : Holds c₀ m c t k) : c.left k.op k.pc ≤ 5279 := by
  obtain ⟨op, intrOn, pc⟩ := k
  have hph : (c.phase op.dev).left ≤ 2 := by
    cases c.phase op.dev <;> simp [Phase.left]
  have hi : c.intrq.toNat ≤ 1 := Bool.toNat_le _
  have hst := h.stage
  have hpc : pc.left op.cmd ≤ 5276 := by
    cases pc with
    | acquire => exact hst.elim
    | idle again i => cases again <;> simp only [Pc.left] <;> omega
    | down => cases hc : op.cmd <;> simp [Pc.left]
    | busy i =>
      simp only [Pc.left]
      split <;> omega
    | drq =>
      simp only [Pc.left]
      split <;> omega
    | input got =>
      simp only [Pc.left, sectorWords]
      omega
    | output rest =>
      obtain ⟨data, got, hc, hg, hw⟩ := hst.2.2
      have hlen := data.property
      rw [← hg, List.length_append] at hlen
      simp only [Pc.left, sectorWords] at hlen ⊢
      omega
    | out r =>
      simp only [Pc.left]
      omega
    | _ => simp [Pc.left]
  simp only [Channel.left]
  omega

/-- Each round takes a step from what the request has left. -/
theorem within_rounds {rounds : List (List Event)} (hI : ∀ n, Inv (s₀ n) (s n))
    (hr : ∀ r ∈ rounds, Round n t r ∧ ∀ e ∈ r, e.Proper s₀) (hrun : Run.run step s rounds.flatten = some s')
    (hdone : done ≤ (s n).log.length) (h : Within n t done (b + rounds.length) s) : Within n t done b s' := by
  induction rounds generalizing s with
  | nil =>
    obtain rfl := Option.some.inj hrun
    exact h
  | cons r rounds ih =>
    obtain ⟨hround, hproper⟩ := hr r List.mem_cons_self
    rw [List.flatten_cons, Run.run_append, Option.bind_eq_some_iff] at hrun
    obtain ⟨u, hu, hrest⟩ := hrun
    obtain ⟨u', hu', hkeep⟩ := run_keeps hI hproper
    obtain rfl := Option.some.inj (hu'.symm.trans hu)
    refine ih hkeep.inv (fun r hmem => hr r (List.mem_cons_of_mem _ hmem)) hrest
      (Nat.le_trans hdone (hkeep.log n).length_le) ?_
    obtain hp | hl | ⟨hl, k, hk, hleft⟩ := h
    · exact within_run hI hproper hu hdone (.inl hp)
    · exact within_run hI hproper hu hdone (.inr (.inl hl))
    · rw [List.length_cons] at hleft
      exact within_due hI hproper hu hdone hl hk (by omega) (hround.due (s n) k)

/-- **Every request that gets its channel's lock comes to its end.** After 5279
rounds in which its thread, the drives of the channel and the interrupt have a
turn each, whatever else happens in them, it is done, unless a thread panicked. -/
theorem request_finishes {rounds : List (List Event)} (hs : ∀ n, Fresh (s₀ n)) (hes : ∀ e ∈ es, e.Proper s₀)
    (hrun : Run.run step s₀ es = some s) (hl : (s n).lock = some t)
    (hr : ∀ r ∈ rounds, Round n t r ∧ ∀ e ∈ r, e.Proper s₀) (hlen : 5279 ≤ rounds.length) :
    ∃ s', Run.run step s rounds.flatten = some s' ∧
      (panicked s' = true ∨ (s n).log.length < (s' n).log.length) := by
  obtain ⟨u, hu, hkeep⟩ := run_keeps (fun n => (hs n).inv) hes
  obtain rfl := Option.some.inj (hu.symm.trans hrun)
  have hall : ∀ e ∈ rounds.flatten, e.Proper s₀ := fun e he => by
    obtain ⟨r, hmem, her⟩ := List.mem_flatten.mp he
    exact (hr r hmem).2 e her
  obtain ⟨s', hs', hkeep'⟩ := run_keeps hkeep.inv hall
  refine ⟨s', hs', ?_⟩
  obtain ⟨k, m, hk, hcnt, hrep, hst⟩ := (hkeep.inv n).held t hl
  have hh : Holds (s₀ n) m (u n) t k := ⟨hkeep.inv n, hl, hk, hcnt, hrep, hst⟩
  have hw : Within n t (u n).log.length (0 + rounds.length) u :=
    .inr (.inr ⟨hl, k, hk, by have := hh.left_le; omega⟩)
  obtain hp | hlog | ⟨hl', k', hk', hleft⟩ := within_rounds hkeep.inv hr hs' (Nat.le_refl _) hw
  · exact .inl hp
  · exact .inr hlog
  · -- a request that goes on has a step left
    have hpos := Pc.left_pos k'.op.cmd k'.pc
    simp only [Channel.left] at hleft
    omega

theorem request_finishes_read :
    ∃ s, Run.run step (fun _ => blank 8) [.call 1 0 ⟨1, 3, .read⟩ true, .run 1 0] = some s ∧
      ∃ s', Run.run step s (List.replicate 5279 [.run 1 0, .interrupt 0, .move 0 0, .move 0 1]).flatten = some s' ∧
        (panicked s' = true ∨ (s 0).log.length < (s' 0).log.length) := by
  have hcall : Event.Proper (fun _ => blank 8) (.call 1 0 ⟨1, 3, .read⟩ true) := ⟨by decide, by decide, rfl⟩
  have hes : ∀ e ∈ [Event.call 1 0 ⟨1, 3, .read⟩ true, .run 1 0], e.Proper fun _ => blank 8 := fun e he => by
    simp only [List.mem_cons, List.not_mem_nil, or_false] at he
    obtain rfl | rfl := he
    · exact hcall
    · trivial
  have hlen : 5279 ≤ (List.replicate 5279 [Event.run 1 0, .interrupt 0, .move 0 0, .move 0 1]).length := by
    rw [List.length_replicate]
  refine ⟨_, rfl, request_finishes (fun _ => blank_fresh 8) hes rfl rfl (fun r hr => ?_) hlen⟩
  obtain rfl := List.eq_of_mem_replicate hr
  refine ⟨⟨by simp, by simp, fun dev => ?_⟩, fun e he => ?_⟩
  · obtain rfl | rfl : dev = 0 ∨ dev = 1 := by omega
    · simp
    · simp
  · simp only [List.mem_cons, List.not_mem_nil, or_false] at he
    obtain rfl | rfl | rfl | rfl := he <;> trivial

end PintosKaist.Ata
