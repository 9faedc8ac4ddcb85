/-
What holds of an interrupt queue over any run of threads and interrupt
handlers: it is a bounded queue of bytes, and `wait` finds its condition true
when a thread that slept in `lock_acquire` finds it as it was before.
-/
import PintosKaist.Devices.Intq

namespace PintosKaist.Devices

variable {s s' : Sys} {t : Nat} {c : Call} {w : Waiter} {p : Pc} {e : Event} {es : List Event}

/-- The thread holds the queue's lock. -/
def Pc.holds : Pc → Bool
  | .blocked _ => true
  | .woken _ => true
  | _ => false

/-- The thread is asleep in `wait` on this member. -/
def Pc.waits (w : Waiter) : Pc → Bool
  | .blocked c => c.waiter == w
  | _ => false

/-- What holds between two steps: the bytes that were put and not got are
those in the buffer, and the lock and the waiters are where the threads are. -/
structure Inv (s : Sys) : Prop where
  head_lt : s.q.head < bufSize
  tail_lt : s.q.tail < bufSize
  bytes : s.got ++ s.q.contents = s.put
  lock : ∀ t, s.q.lock = some t ↔ (s.pc t).holds = true
  waiter : ∀ w t, w.get s.q = some t ↔ (s.pc t).waits w = true

theorem Pc.holds_of_waits (h : p.waits w = true) : p.holds = true := by
  cases p with
  | blocked c => rfl
  | _ => cases h

theorem init_inv : Inv init := by
  refine ⟨by decide, by decide, rfl, fun t => ?_, fun w t => ?_⟩
  · constructor <;> exact nofun
  · cases w <;> constructor <;> exact nofun

/-! ## The members -/

theorem get_set {q : Intq} {o : Option Nat} (w w' : Waiter) :
    w'.get (w.set q o) = if w' = w then o else w'.get q := by
  cases w <;> cases w' <;> rfl

@[simp] theorem set_lock {q : Intq} {o : Option Nat} : (w.set q o).lock = q.lock := by cases w <;> rfl

@[simp] theorem set_head {q : Intq} {o : Option Nat} : (w.set q o).head = q.head := by cases w <;> rfl

@[simp] theorem set_tail {q : Intq} {o : Option Nat} : (w.set q o).tail = q.tail := by cases w <;> rfl

@[simp] theorem set_contents {q : Intq} {o : Option Nat} : (w.set q o).contents = q.contents := by cases w <;> rfl

/-- A thread that goes where it holds and waits for what it did. -/
theorem Inv.goto (hI : Inv s) (hp : p.holds = (s.pc t).holds) (hw : ∀ w, p.waits w = (s.pc t).waits w) :
    Inv (s.goto t p) := by
  refine ⟨hI.head_lt, hI.tail_lt, hI.bytes, fun u => ?_, fun w u => ?_⟩
  · by_cases hu : u = t
    · subst hu
      simp only [Sys.goto, Function.update_self, hp]
      exact hI.lock u
    · simp only [Sys.goto, Function.update_of_ne hu]
      exact hI.lock u
  · by_cases hu : u = t
    · subst hu
      simp only [Sys.goto, Function.update_self, hw]
      exact hI.waiter w u
    · simp only [Sys.goto, Function.update_of_ne hu]
      exact hI.waiter w u

/-! ## `lock_acquire`, `wait` and `lock_release` -/

/-- The condition holds when the lock is there to be taken. -/
theorem lockAndWait_inv (hI : Inv s) (hh : (s.pc t).holds = false) (hc : s.q.lock = none → c.mustWait s.q = true) :
    ∃ s', lockAndWait s t c = some s' ∧ Inv s' := by
  have hw : ∀ w, (s.pc t).waits w = false := fun w => by
    cases hx : (s.pc t).waits w with
    | false => rfl
    | true => exact absurd (Pc.holds_of_waits hx) (by simp [hh])
  unfold lockAndWait
  by_cases hl : s.q.lock = none
  · rw [if_pos hl]
    have hcond : c.waiter.mustWait { s.q with lock := some t } = true := hc hl
    refine ⟨_, by unfold wait; rw [if_pos hcond], ?_⟩
    have hnone : ∀ u, (s.pc u).holds = false := fun u => by
      cases hx : (s.pc u).holds with
      | false => rfl
      | true => exact absurd ((hI.lock u).mpr hx) (by simp [hl])
    have hget : ∀ w : Waiter, w.get s.q = none := fun w => Option.eq_none_iff_forall_ne_some.mpr fun u hu =>
      absurd (Pc.holds_of_waits ((hI.waiter w u).mp hu)) (by simp [hnone u])
    refine ⟨by simpa [Sys.goto] using hI.head_lt, by simpa [Sys.goto] using hI.tail_lt, ?_, fun u => ?_, fun w u => ?_⟩
    · simp only [Sys.goto, set_contents]
      exact hI.bytes
    · by_cases hu : u = t
      · subst hu
        simp [Sys.goto, Pc.holds]
      · simp [Sys.goto, Function.update_of_ne hu, hnone u, Ne.symm hu]
    · have hg : w.get { s.q with lock := some t } = none := by
        have h := hget w
        cases w <;> exact h
      simp only [Sys.goto, get_set, hg]
      by_cases hu : u = t
      · subst hu
        simp only [Function.update_self, Pc.waits, beq_iff_eq]
        split
        · simp_all
        · rename_i hne
          simp [Ne.symm hne]
      · rw [Function.update_of_ne hu]
        have hwu : (s.pc u).waits w = false := by
          cases hx : (s.pc u).waits w with
          | false => rfl
          | true => exact absurd (Pc.holds_of_waits hx) (by simp [hnone u])
        rw [hwu]
        split <;> simp [Ne.symm hu]
  · rw [if_neg hl]
    exact ⟨_, rfl, hI.goto (by rw [hh]; rfl) fun w => by rw [hw]; rfl⟩

theorem lockRelease_inv (hI : Inv s) (hpc : s.pc t = .woken c) : ∃ s', lockRelease s t c = some s' ∧ Inv s' := by
  have hl : s.q.lock = some t := (hI.lock t).mpr (by rw [hpc]; rfl)
  unfold lockRelease
  rw [if_pos hl]
  refine ⟨_, rfl, hI.head_lt, hI.tail_lt, hI.bytes, fun u => ?_, fun w u => ?_⟩
  · by_cases hu : u = t
    · subst hu
      simp [Sys.goto, Pc.holds]
    · have hne : (s.pc u).holds = false := by
        cases hx : (s.pc u).holds with
        | false => rfl
        | true => exact absurd (Option.some.inj (hl.symm.trans ((hI.lock u).mpr hx))) (Ne.symm hu)
      simp [Sys.goto, Function.update_of_ne hu, hne]
  · have hg : w.get { s.q with lock := none } = w.get s.q := by cases w <;> rfl
    simp only [Sys.goto, hg, hI.waiter]
    by_cases hu : u = t
    · subst hu
      rw [Function.update_self, hpc]
      rfl
    · rw [Function.update_of_ne hu]

/-! ## `signal` -/

/-- A thread that does not hold the lock is where it was. -/
def OthersStay (s s' : Sys) : Prop := ∀ t, (s.pc t).holds = false → s'.pc t = s.pc t

theorem signal_inv (hI : Inv s) (hw : w.mustWait s.q = false) :
    ∃ s', signal s w = some s' ∧ Inv s' ∧ OthersStay s s' := by
  unfold signal
  simp only [hw, Bool.false_eq_true, if_false]
  cases hg : w.get s.q with
  | none => exact ⟨s, rfl, hI, fun t _ => rfl⟩
  | some t =>
    have hwt := (hI.waiter w t).mp hg
    -- the thread that waits is the one `thread_unblock` finds blocked
    cases hpc : s.pc t with
    | blocked c =>
      rw [hpc] at hwt
      have hcw : c.waiter = w := by simpa [Pc.waits] using hwt
      have hrun : threadUnblock s t = some (s.goto t (.woken c)) := by
        unfold threadUnblock
        rw [hpc]
      simp only [hrun, Option.map_some]
      refine ⟨_, rfl, ⟨by simpa [Sys.goto] using hI.head_lt, by simpa [Sys.goto] using hI.tail_lt, ?_,
        fun u => ?_, fun w' u => ?_⟩, fun u hu => ?_⟩
      · simp only [Sys.goto, set_contents]
        exact hI.bytes
      · simp only [Sys.goto, set_lock, hI.lock]
        by_cases hu : u = t
        · subst hu
          rw [Function.update_self, hpc]
          simp [Pc.holds]
        · rw [Function.update_of_ne hu]
      · simp only [Sys.goto, get_set]
        by_cases hu : u = t
        · subst hu
          rw [Function.update_self]
          split
          · simp [Pc.waits]
          · rename_i hne
            rw [hI.waiter, hpc]
            simp [Pc.waits, hcw, Ne.symm hne]
        · rw [Function.update_of_ne hu, ← hI.waiter]
          split
          · rename_i he
            subst he
            rw [hg]
            simp [Ne.symm hu]
          · rfl
      · refine Function.update_of_ne ?_ ..
        rintro rfl
        rw [hpc] at hu
        cases hu
    | _ => rw [hpc] at hwt; cases hwt

/-! ## The bytes -/

theorem takeByte_inv (hI : Inv s) (he : intqEmpty s.q = false) :
    ∃ s', takeByte s = some s' ∧ Inv s' ∧ OthersStay s s' := by
  have hne : s.q.head ≠ s.q.tail := by simpa [intqEmpty] using he
  have hcontents : s.q.contents = s.q.buf s.q.tail :: { s.q with tail := next s.q.tail }.contents :=
    Ring.contents_get hI.tail_lt hI.head_lt hne
  refine signal_inv (s := { s with q := { s.q with tail := next s.q.tail }, got := s.got ++ [s.q.buf s.q.tail] })
    ⟨hI.head_lt, Ring.next_lt hI.tail_lt, ?_, hI.lock, fun w => ?_⟩ ?_
  · rw [List.append_assoc, List.singleton_append, ← hcontents]
    exact hI.bytes
  · cases w
    · exact hI.waiter .notFull
    · exact hI.waiter .notEmpty
  · have hfull := Ring.not_full_next hI.tail_lt hI.head_lt hne
    simpa [Waiter.mustWait, intqFull, next] using hfull

theorem storeByte_inv {byte : UInt8} (hI : Inv s) (hf : intqFull s.q = false) :
    ∃ s', storeByte s byte = some s' ∧ Inv s' ∧ OthersStay s s' := by
  have hne : Ring.next bufSize s.q.head ≠ s.q.tail := by simpa [intqFull, next] using hf
  have hcontents : { s.q with buf := Function.update s.q.buf s.q.head byte, head := next s.q.head }.contents =
      s.q.contents ++ [byte] := Ring.contents_put hI.tail_lt hI.head_lt hne
  refine signal_inv (s := { s with
    q := { s.q with buf := Function.update s.q.buf s.q.head byte, head := next s.q.head }
    put := s.put ++ [byte] }) ⟨Ring.next_lt hI.head_lt, hI.tail_lt, ?_, hI.lock, fun w => ?_⟩ ?_
  · rw [hcontents, ← List.append_assoc, hI.bytes]
  · cases w
    · exact hI.waiter .notFull
    · exact hI.waiter .notEmpty
  · simpa [Waiter.mustWait, intqEmpty, next] using hne

theorem finish_inv (hI : Inv s) (hc : c.mustWait s.q = false) :
    ∃ s', finish s c = some s' ∧ Inv s' ∧ OthersStay s s' := by
  cases c with
  | getc => exact takeByte_inv hI hc
  | putc byte => exact storeByte_inv hI hc

/-! ## Steps -/

/-- A thread that slept in `lock_acquire` and gets the lock in this step finds
the queue as empty, or as full, as it was at the test before. -/
def StillWaits (s : Sys) (e : Event) : Prop :=
  ∀ t c, e = .resume t → s.pc t = .acquiring c → s.q.lock = none → c.mustWait s.q = true

theorem resume_inv (hI : Inv s) (hG : StillWaits s (.resume t)) : ∃ s', resume s t = some s' ∧ Inv s' := by
  unfold resume
  cases hpc : s.pc t with
  | out => exact ⟨s, rfl, hI⟩
  | test c =>
    have hh : (s.pc t).holds = false := by rw [hpc]; rfl
    simp only
    cases hc : c.mustWait s.q with
    | true => exact lockAndWait_inv hI hh fun _ => hc
    | false =>
      obtain ⟨s', hs', hI', hstay⟩ := finish_inv hI hc
      have hpc' : s'.pc t = .test c := (hstay t hh).trans hpc
      refine ⟨s'.goto t .out, by simp [hs'], hI'.goto ?_ fun w => ?_⟩
      · rw [hpc']; rfl
      · rw [hpc']; rfl
  | acquiring c => exact lockAndWait_inv hI (by rw [hpc]; rfl) (hG t c rfl hpc)
  | blocked c => exact ⟨s, rfl, hI⟩
  | woken c => exact lockRelease_inv hI hpc

theorem step_inv (hI : Inv s) (hG : StillWaits s e) : ∃ s', step s e = some s' ∧ Inv s' := by
  cases e with
  | call t c =>
    unfold step
    simp only
    split
    · rename_i ho
      exact ⟨_, rfl, hI.goto (by rw [ho]; rfl) fun w => by rw [ho]; rfl⟩
    · exact ⟨s, rfl, hI⟩
  | resume t => exact resume_inv hI hG
  | interrupt c =>
    unfold step
    simp only
    cases hc : c.mustWait s.q with
    | true => exact ⟨s, rfl, hI⟩
    | false =>
      obtain ⟨s', hs', hI', -⟩ := finish_inv hI hc
      exact ⟨s', hs', hI'⟩

/-- A step that goes through meets the condition: without it `wait` fails. -/
theorem stillWaits_of_step (h : step s e = some s') : StillWaits s e := by
  rintro t c rfl hpc hl
  simp only [step, resume, hpc, lockAndWait, hl, if_true, wait] at h
  split at h
  · rename_i hc
    exact hc
  · cases h

theorem step_keeps (hI : Inv s) (h : step s e = some s') : Inv s' := by
  obtain ⟨t, ht, hI'⟩ := step_inv hI (stillWaits_of_step h)
  exact Option.some.inj (ht.symm.trans h) ▸ hI'

/-! ## Runs -/

theorem run_always (h : Run.run step s es = some s') : Run.Always step StillWaits s es := by
  induction es generalizing s with
  | nil => trivial
  | cons e es ih =>
    obtain ⟨t, ht, hr⟩ := Run.run_cons.mp h
    exact ⟨stillWaits_of_step ht, fun u hu => Option.some.inj (ht.symm.trans hu) ▸ ih hr⟩

theorem always_run (hI : Inv s) (hG : Run.Always step StillWaits s es) : ∃ s', Run.run step s es = some s' := by
  induction es generalizing s with
  | nil => exact ⟨s, rfl⟩
  | cons e es ih =>
    obtain ⟨t, ht, hI'⟩ := step_inv hI hG.1
    obtain ⟨s', hs'⟩ := ih hI' (hG.2 t ht)
    exact ⟨s', Run.run_cons.mpr ⟨t, ht, hs'⟩⟩

/-- A run of any threads and interrupt handlers goes through without a failed
assertion exactly when each thread that slept in `lock_acquire` finds, once it
has the lock, what it waits for still not there. -/
theorem intq_asserts : (∃ s, Run.run step init es = some s) ↔ Run.Always step StillWaits init es := by
  constructor
  · rintro ⟨s, hs⟩
    exact run_always hs
  · exact always_run init_inv

/-- Two readers find the queue empty, and the second sleeps in `lock_acquire`;
a byte comes, the first reader wakes and lets go of the lock, and the second
takes it. -/
def twoReaders : List Event :=
  [.call 1 .getc, .resume 1, .call 2 .getc, .resume 2, .interrupt (.putc 65), .resume 1, .resume 2]

theorem not_intq_asserts : Run.run step init twoReaders = none := by decide +kernel

/-- Over every run that goes through, the bytes got and the bytes in the queue
are, in this order, the bytes put; the queue leaves one place free. -/
theorem intq_fifo (h : Run.run step init es = some s) :
    s.got ++ s.q.contents = s.put ∧ s.got <+: s.put ∧ s.q.contents.length ≤ bufSize - 1 := by
  have hI : Inv s := Run.run_invariant (G := fun _ _ => True) (fun _ _ _ hI _ hs => step_keeps hI hs) init_inv h
    (Run.always_of_mem _ fun _ _ _ => trivial)
  refine ⟨hI.bytes, ⟨_, hI.bytes⟩, ?_⟩
  have hlen : s.q.contents.length = Ring.held bufSize s.q.head s.q.tail := Ring.length_contents
  have hlt := Ring.held_lt s.q.tail hI.head_lt
  omega

theorem intq_fifo_readers : ∃ s, Run.run step init (twoReaders.take 6 ++ [.resume 1, .interrupt (.putc 66)]) = some s ∧
    s.got = [65] ∧ s.q.contents = [66] ∧ s.got <+: s.put ∧ s.q.contents.length ≤ bufSize - 1 := by
  obtain ⟨s, hs, hb⟩ := (Option.any_eq_true _ _).mp (show
    (Run.run step init (twoReaders.take 6 ++ [.resume 1, .interrupt (.putc 66)])).any (fun s =>
      decide (s.got = [65] ∧ s.q.contents = [66])) = true by decide +kernel)
  obtain ⟨-, hp, hl⟩ := intq_fifo hs
  exact ⟨s, hs, (of_decide_eq_true hb).1, (of_decide_eq_true hb).2, hp, hl⟩

end PintosKaist.Devices
