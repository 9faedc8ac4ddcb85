/-
What holds of the two channels over any run of threads, drives and interrupts:
no assertion of the driver fails, and each disk is as if the requests on it had
been done one after the other.
-/
import PintosKaist.Devices.DiskStage

namespace PintosKaist.Ata

/-- A channel as `disk_init` leaves it. -/
structure Fresh (c : Channel) : Prop where
  quiet : Quiet c
  lock : c.lock = none
  readCnt : ∀ dev, c.readCnt dev = 0
  writeCnt : ∀ dev, c.writeCnt dev = 0
  task : ∀ t, c.task t = none
  log : c.log = []
  console : c.console = []

/-- The calls have sectors that are on their disks and have numbers of 28 bits,
and are made with interrupts on. -/
def Event.Proper (s₀ : Sys) : Event → Prop
  | .call _ n op intrOn => op.sec.toNat < (s₀ n).capacity op.dev ∧ op.sec.toNat < 2 ^ 28 ∧ intrOn = true
  | _ => True

variable {c₀ c c' : Channel} {op : Op} {t : Nat} {dev : Fin 2} {s₀ s s' : Sys} {e : Event} {es : List Event}

theorem Fresh.inv (h : Fresh c) : Inv c c := by
  refine ⟨rfl, fun t k hk => ?_, fun t k hk => ?_, fun _ => ⟨h.quiet, fun dev => ?_, ?_⟩, fun t hl => ?_,
    fun msg hm => ?_⟩
  · rw [h.task] at hk
    cases hk
  · rw [h.task] at hk
    cases hk
  · rw [h.log, h.readCnt, h.writeCnt]
    exact ⟨rfl, rfl⟩
  · rw [h.log]
    rfl
  · rw [h.lock] at hl
    cases hl
  · rw [h.console] at hm
    cases hm

theorem Inv.call {intrOn : Bool} (hI : Inv c₀ c) (ht : c.task t = none)
    (hp : op.sec.toNat < c.capacity op.dev ∧ op.sec.toNat < 2 ^ 28 ∧ intrOn = true) :
    Inv c₀ { c with task := Function.update c.task t (some ⟨op, intrOn, .acquire⟩) } := by
  refine ⟨hI.capacity, fun u x hx => ?_, fun u x hx => ?_, fun hl => ?_, fun u hl => ?_, hI.console⟩
  · by_cases hu : u = t
    · subst hu
      simp only [Function.update_self, Option.some.injEq] at hx
      subst hx
      exact ⟨hp.1, hp.2.1, hp.2.2⟩
    · simp only [Function.update_of_ne hu] at hx
      have hp := hI.proper _ _ hx
      exact ⟨hp.onDisk, hp.lt, hp.intrOn⟩
  · by_cases hu : u = t
    · subst hu
      simp only [Function.update_self, Option.some.injEq] at hx
      subst hx
      exact .inl rfl
    · simp only [Function.update_of_ne hu] at hx
      exact hI.outside _ _ hx
  · obtain ⟨hq, hcnt, hr⟩ := hI.free hl
    exact ⟨⟨hq.rest, hq.intrq, hq.wait⟩, hcnt, hr⟩
  · obtain ⟨k, m, hk, hcnt, hr, hs⟩ := hI.held u hl
    have hu : u ≠ t := fun hu => by
      rw [hu, ht] at hk
      cases hk
    refine ⟨k, m, ?_, hcnt, hr, ?_⟩
    · simp only [Function.update_of_ne hu, hk]
    · refine (stage_congr ?_ ?_ ?_ ?_ ?_ ?_).mpr hs <;> rfl

theorem move_log : (c.move dev).log = c.log := by
  unfold Channel.move
  split <;> rfl

theorem handle_log : c.handle.log = c.log := by
  unfold Channel.handle
  split <;> rfl

/-- What a step makes of the channels: what was done stays done. -/
structure Keeps (s₀ s s' : Sys) : Prop where
  inv : ∀ n, Inv (s₀ n) (s' n)
  log : ∀ n, (s n).log <+: (s' n).log

theorem Keeps.refl (hI : ∀ n, Inv (s₀ n) (s n)) : Keeps s₀ s s := ⟨hI, fun _ => List.prefix_rfl⟩

/-- One channel takes a step. -/
theorem keeps_update (hI : ∀ n, Inv (s₀ n) (s n)) {n : Fin 2} (hc : Inv (s₀ n) c') (hlog : (s n).log <+: c'.log) :
    Keeps s₀ s (Function.update s n c') := by
  refine ⟨fun i => ?_, fun i => ?_⟩
  · by_cases hi : i = n
    · subst hi
      rwa [Function.update_self]
    · rw [Function.update_of_ne hi]
      exact hI i
  · by_cases hi : i = n
    · subst hi
      rwa [Function.update_self]
    · rw [Function.update_of_ne hi]

theorem step_keeps (hI : ∀ n, Inv (s₀ n) (s n)) (he : e.Proper s₀) : ∃ s', step s e = some s' ∧ Keeps s₀ s s' := by
  simp only [step]
  by_cases hp : panicked s = true
  · rw [if_pos hp]
    exact ⟨s, rfl, .refl hI⟩
  rw [if_neg hp]
  cases e with
  | call t n op intrOn =>
    simp only
    by_cases ho : out s t = true
    · rw [if_pos ho]
      have ht : (s n).task t = none := by
        simp only [out, Bool.and_eq_true, beq_iff_eq] at ho
        obtain rfl | rfl : n = 0 ∨ n = 1 := by omega
        · exact ho.1
        · exact ho.2
      simp only [Event.Proper, ← (hI n).capacity] at he
      exact ⟨_, rfl, keeps_update hI ((hI n).call ht he) List.prefix_rfl⟩
    · rw [if_neg ho]
      exact ⟨s, rfl, .refl hI⟩
  | run t n =>
    simp only [Channel.run]
    cases hk : (s n).task t with
    | none => exact ⟨_, rfl, keeps_update hI (hI n) List.prefix_rfl⟩
    | some k =>
      obtain ⟨c', hc', hinv, hlog⟩ := (hI n).runTask hk
      simp only [hc']
      exact ⟨_, rfl, keeps_update hI hinv hlog⟩
  | move n dev => exact ⟨_, rfl, keeps_update hI ((hI n).move dev) (by rw [move_log])⟩
  | interrupt n =>
    simp only
    by_cases hi : (s n).intrq = true
    · rw [if_pos hi]
      have hh := keeps_update hI ((hI n).handle hi) (by rw [handle_log])
      obtain rfl | rfl : n = 0 ∨ n = 1 := by omega
      · exact ⟨_, rfl, hh⟩
      · exact ⟨_, rfl, hh⟩
    · rw [if_neg hi]
      exact ⟨s, rfl, .refl hI⟩

theorem run_keeps (hI : ∀ n, Inv (s₀ n) (s n)) (hes : ∀ e ∈ es, e.Proper s₀) :
    ∃ s', Run.run step s es = some s' ∧ Keeps s₀ s s' := by
  refine Run.run_progress (G := fun _ e => e.Proper s₀) (fun u e hu he => ?_) (Keeps.refl hI)
    (Run.always_of_mem s fun e he _ => hes e he)
  obtain ⟨u', hu', hk⟩ := step_keeps hu.inv he
  exact ⟨u', hu', hk.inv, fun n => (hu.log n).trans (hk.log n)⟩

/-- **The disk driver.** However the threads, the drives and the interrupts
interleave, no assertion fails and no register of a drive at work is touched.
The requests on a channel were done one after the other, each on the disk the
ones before it left; between requests the drives hold that disk, and the counts
are those of the requests. The driver complains of nothing but slow drives. -/
theorem disk_requests (hs : ∀ n, Fresh (s₀ n)) (hes : ∀ e ∈ es, e.Proper s₀) :
    ∃ s, Run.run step s₀ es = some s ∧ ∀ n,
      (∀ msg ∈ (s n).console, msg.slow = true) ∧
      (∀ t k, (s n).task t = some k → k.pc = .acquire ∨ (s n).lock = some t) ∧
      ∃ d, Run.run Done.step (fun dev => disk ((s₀ n).sectors dev)) (s n).log = some d ∧
        ((s n).lock = none → ∀ dev, disk ((s n).sectors dev) = d dev ∧
          (s n).readCnt dev = (s n).log.countP (Done.reads dev) ∧
          (s n).writeCnt dev = (s n).log.countP (Done.writes dev)) := by
  obtain ⟨s, hrun, hI, hlog⟩ := run_keeps (fun n => (hs n).inv) hes
  refine ⟨s, hrun, fun n => ⟨(hI n).console, (hI n).outside, ?_⟩⟩
  cases hl : (s n).lock with
  | none =>
    obtain ⟨hq, hcnt, hr⟩ := (hI n).free hl
    exact ⟨_, hr, fun _ dev => ⟨rfl, hcnt dev⟩⟩
  | some t =>
    obtain ⟨k, m, hk, hcnt, hr, hst⟩ := (hI n).held t hl
    exact ⟨_, hr, fun h => by cases h⟩

/-- A channel at rest with two blank disks of `n` sectors. -/
def blank (n : Nat) : Channel where
  regs _ := 0
  phase _ := .idle
  sectors _ _ := ⟨List.replicate sectorWords 0, List.length_replicate⟩
  intrq := false
  lock := none
  expectingInterrupt := false
  completionWait := 0
  capacity _ := n
  readCnt _ := 0
  writeCnt _ := 0
  task _ := none
  log := []
  console := []
  panicked := false

theorem blank_fresh (n : Nat) : Fresh (blank n) :=
  ⟨⟨fun _ => rfl, rfl, rfl⟩, rfl, fun _ => rfl, fun _ => rfl, fun _ => rfl, rfl, rfl⟩

/-- Thread 1 writes sector 3 of a disk while thread 2 is about to read it, and
the drive is as fast as it can be. -/
def writeAndRead (n dev : Fin 2) : List Event :=
  [.call 1 n ⟨dev, 3, .write ⟨List.replicate sectorWords 0xbeef, List.length_replicate⟩⟩ true,
    .call 2 n ⟨dev, 3, .read⟩ true] ++
    (List.replicate 600 [Event.run 1 n, .run 2 n, .move n dev, .interrupt n]).flatten

theorem disk_requests_writeAndRead :
    ∃ s, Run.run step (fun _ => blank 8) (writeAndRead 0 1) = some s ∧ ∀ n,
      (∀ msg ∈ (s n).console, msg.slow = true) ∧
      (∀ t k, (s n).task t = some k → k.pc = .acquire ∨ (s n).lock = some t) ∧
      ∃ d, Run.run Done.step (fun dev => disk ((blank 8).sectors dev)) (s n).log = some d ∧
        ((s n).lock = none → ∀ dev, disk ((s n).sectors dev) = d dev ∧
          (s n).readCnt dev = (s n).log.countP (Done.reads dev) ∧
          (s n).writeCnt dev = (s n).log.countP (Done.writes dev)) := by
  refine disk_requests (fun _ => blank_fresh 8) fun e he => ?_
  obtain he | he := List.mem_append.mp he
  · simp only [List.mem_cons, List.not_mem_nil, or_false] at he
    obtain rfl | rfl := he
    · exact ⟨by decide, by decide, rfl⟩
    · exact ⟨by decide, by decide, rfl⟩
  · obtain ⟨l, hl, he⟩ := List.mem_flatten.mp he
    obtain rfl := List.eq_of_mem_replicate hl
    simp only [List.mem_cons, List.not_mem_nil, or_false] at he
    obtain rfl | rfl | rfl | rfl := he <;> trivial

end PintosKaist.Ata
