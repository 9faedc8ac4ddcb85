/-
What the serial driver does with the threads that are in `serial_putc`: it
moves them from one place in their call to the next, and no other function
than theirs gets them out of it.
-/
import PintosKaist.Devices.Serial

namespace PintosKaist.Devices

variable {s s' s'' : Serial} {q q' : Sys} {t u : Nat} {b : UInt8} {c : Call} {w : Waiter} {bs xs ys : List UInt8}

/-- No thread is asleep in the queue's `lock_acquire`. -/
def NoneAcquires (q : Sys) : Prop := ∀ u c, q.pc u ≠ .acquiring c

theorem signal_acquires (hn : NoneAcquires q) (h : signal q w = some q') : NoneAcquires q' := by
  unfold signal at h
  split at h
  · cases h
  split at h
  · cases h
    exact hn
  · rename_i t hg
    obtain ⟨q₁, h₁, rfl⟩ := Option.map_eq_some_iff.mp h
    unfold threadUnblock at h₁
    split at h₁
    · cases h₁
      intro u c hu
      by_cases hut : u = t
      · subst hut
        simp [Sys.goto] at hu
      · simp only [Sys.goto, Function.update_of_ne hut] at hu
        exact hn u c hu
    · cases h₁

theorem finish_acquires (hn : NoneAcquires q) (h : finish q c = some q') : NoneAcquires q' := by
  cases c with
  | getc =>
    refine signal_acquires ?_ h
    exact hn
  | putc byte =>
    refine signal_acquires ?_ h
    exact hn

theorem goto_acquires {p : Pc} (hn : NoneAcquires q) (hp : ∀ c, p ≠ .acquiring c) : NoneAcquires (q.goto t p) := by
  intro u c hu
  by_cases hut : u = t
  · subst hut
    simp only [Sys.goto, Function.update_self] at hu
    exact hp c hu
  · simp only [Sys.goto, Function.update_of_ne hut] at hu
    exact hn u c hu

/-- A thread that has the queue for itself finds the lock free. -/
theorem resume_alone (hI : Devices.Inv q) (halone : ∀ u, q.pc u ≠ .out → u = t) (hn : NoneAcquires q)
    (h : resume q t = some q') : NoneAcquires q' := by
  unfold resume at h
  split at h
  · cases h
    exact hn
  · rename_i c hc
    split at h
    · have hl : q.q.lock = none := by
        rw [Option.eq_none_iff_forall_ne_some]
        intro u hu
        have hh := (hI.lock u).mp hu
        have hut := halone u fun ho => by rw [ho] at hh; cases hh
        rw [hut, hc] at hh
        cases hh
      unfold lockAndWait at h
      rw [if_pos hl] at h
      unfold wait at h
      split at h
      · cases h
        exact goto_acquires (q := { q with q := _ }) hn fun c h => by cases h
      · cases h
    · obtain ⟨q'', hq, rfl⟩ := Option.map_eq_some_iff.mp h
      exact goto_acquires (finish_acquires hn hq) fun c h => by cases h
  · rename_i c hc
    exact absurd hc (hn t c)
  · cases h
    exact hn
  · unfold lockRelease at h
    split at h
    · cases h
      exact goto_acquires (q := { q with q := _ }) hn fun c h => by cases h
    · cases h

/-- Every thread stays in its call, and these bytes are handed over. -/
structure Serial.Still (s s' : Serial) (bs : List UInt8) : Prop where
  calls : ∀ u, (s'.tx.pc u).call = (s.tx.pc u).call
  acquires : NoneAcquires s.tx → NoneAcquires s'.tx
  handed : s'.handed = s.handed ++ bs

theorem Serial.Still.refl : s.Still s [] := ⟨fun _ => rfl, id, (List.append_nil _).symm⟩

theorem Serial.Still.trans (h : s.Still s' xs) (h' : s'.Still s'' ys) : s.Still s'' (xs ++ ys) :=
  ⟨fun u => (h'.calls u).trans (h.calls u), fun hn => h'.acquires (h.acquires hn),
    by rw [h'.handed, h.handed, List.append_assoc]⟩

/-- What leaves the transmit queue alone. -/
theorem Serial.Still.of_tx (h : s'.tx = s.tx) (he : s'.early = s.early) : s.Still s' [] := by
  refine ⟨fun u => by rw [h], fun hn => by rw [h]; exact hn, ?_⟩
  unfold Serial.handed
  rw [h, he, List.append_nil]

theorem writeIer_still : s.Still (writeIer s) [] := .of_tx rfl rfl

theorem serialNotify_still : s.Still (serialNotify s) [] := by
  unfold serialNotify
  split
  · exact writeIer_still
  · exact .refl

theorem sendByte_still (h : sendByte s = some s') : s.Still s' [] := by
  unfold sendByte at h
  split at h
  · cases h
  · rename_i he
    obtain ⟨tx, htx, rfl⟩ := Option.map_eq_some_iff.mp h
    have hM := takeByte_moved (Bool.eq_false_iff.mpr he) htx
    refine ⟨hM.calls, fun hn => finish_acquires (c := .getc) hn htx, ?_⟩
    simp [Serial.handed, putcPoll, hM.put]

theorem transmit_still : ∀ (n : Nat) {s : Serial}, transmit n s = some s' → s.Still s' []
  | 0, s, h => by
    cases h
    exact .refl
  | n + 1, s, h => by
    unfold transmit at h
    split at h
    · cases h
      exact .refl
    · obtain ⟨s₁, h₁, hr⟩ := Option.bind_eq_some_iff.mp h
      exact (sendByte_still h₁).trans (transmit_still n hr)

theorem flushLoop_still : ∀ (n : Nat) {s : Serial}, flushLoop n s = some s' → s.Still s' []
  | 0, s, h => by
    unfold flushLoop at h
    split at h
    · cases h
      exact .refl
    · cases h
  | n + 1, s, h => by
    unfold flushLoop at h
    split at h
    · cases h
      exact .refl
    · obtain ⟨s₁, h₁, hr⟩ := Option.bind_eq_some_iff.mp h
      exact (sendByte_still h₁).trans (flushLoop_still n hr)

theorem inputPutc_still (h : inputPutc s b = some s') : s.Still s' [] := by
  unfold inputPutc at h
  split at h
  · cases h
  · obtain ⟨input, -, rfl⟩ := Option.map_eq_some_iff.mp h
    have hin : s.Still { s with input := input } [] := .of_tx rfl rfl
    exact hin.trans serialNotify_still

theorem receive_still : ∀ (rx : List UInt8) {s : Serial}, receive rx s = some s' → s.Still s' []
  | [], s, h => by
    cases h
    exact .refl
  | b :: rx, s, h => by
    unfold receive at h
    split at h
    · cases h
      exact .refl
    · obtain ⟨s₁, h₁, hr⟩ := Option.bind_eq_some_iff.mp h
      exact (inputPutc_still h₁).trans (receive_still rx hr)

theorem initPoll_still (hI : s.Inv) (hm : s.mode ≠ .queue) : s.Still (initPoll s) [] :=
  .of_tx (hI.unused hm).symm rfl

theorem putcEarly_still (hI : s.Inv) (hm : s.mode ≠ .queue) : s.Still (putcEarly s b) [b] := by
  have htx := hI.unused hm
  unfold putcEarly
  split
  · exact (initPoll_still hI hm).trans ⟨fun _ => rfl, id, by simp [Serial.handed, putcPoll, initPoll, init]⟩
  · exact ⟨fun _ => rfl, id, by simp [Serial.handed, putcPoll, htx, init]⟩

theorem store_still {tx : Sys} (hf : intqFull s.tx.q = false) (h : storeByte s.tx b = some tx) :
    s.Still (writeIer { s with tx := tx }) [b] := by
  have hM := storeByte_moved hf h
  exact ⟨hM.calls, fun hn => finish_acquires (c := .putc b) hn h, by simp [Serial.handed, writeIer, hM.put, ← List.append_assoc]⟩

theorem serialPutcOff_still (hI : s.Inv) (h : serialPutcOff s b = some s') : s.Still s' [b] := by
  unfold serialPutcOff at h
  split at h
  · obtain ⟨s₁, h₁, hr⟩ := Option.bind_eq_some_iff.mp h
    have hs₁ : s.Still s₁ [] := by
      split at h₁
      · exact sendByte_still h₁
      · cases h₁
        exact .refl
    split at hr
    · cases hr
    · rename_i hf
      obtain ⟨tx, htx, rfl⟩ := Option.map_eq_some_iff.mp hr
      exact hs₁.trans (store_still (Bool.eq_false_iff.mpr hf) htx)
  · cases h
    exact putcEarly_still hI ‹_›

/-- The steps of the driver that are no thread's in `serial_putc`. -/
def SerialEvent.outside : SerialEvent → Bool
  | .putcOn _ _ => false
  | .putcOff _ => false
  | .resumePutc _ => false
  | _ => true

theorem outside_still {e : SerialEvent} (hI : s.Inv) (he : e.outside = true) (h : serialStep s e = some s') :
    s.Still s' [] := by
  cases e with
  | initQueue =>
    simp only [serialStep, serialInitQueue] at h
    have hm : s.mode ≠ .queue := by
      intro hm
      simp [hm] at h
    split at h
    · split at h
      · cases h
        exact (initPoll_still hI hm).trans (.of_tx rfl rfl)
      · cases h
    · split at h
      · cases h
        exact .of_tx rfl rfl
      · cases h
  | putcOn t byte => cases he
  | putcOff byte => cases he
  | resumePutc t => cases he
  | flush => exact flushLoop_still bufSize h
  | getc t =>
    obtain ⟨input, -, rfl⟩ := Option.map_eq_some_iff.mp h
    exact .of_tx rfl rfl
  | resumeGetc t =>
    obtain ⟨input, -, rfl⟩ := Option.map_eq_some_iff.mp h
    have hin : s.Still { s with input := input } [] := .of_tx rfl rfl
    split
    · exact hin.trans serialNotify_still
    · exact hin
  | key c =>
    simp only [serialStep] at h
    split at h
    · cases h
      exact .refl
    · exact inputPutc_still h
  | interrupt rx ready =>
    simp only [serialStep] at h
    split at h
    · obtain ⟨s₁, h₁, hr⟩ := Option.bind_eq_some_iff.mp h
      obtain ⟨s₂, h₂, hs'⟩ := Option.bind_eq_some_iff.mp hr
      cases hs'
      exact ((receive_still rx h₁).trans (transmit_still ready h₂)).trans writeIer_still
    · cases h
      exact .refl

/-- Such a step is there to be taken when the driver has not been set up twice,
and a reader that slept in `lock_acquire` finds the buffer empty still. -/
theorem outside_runs {e : SerialEvent} (hI : s.Inv) (he : e.outside = true)
    (hinit : e = .initQueue → s.mode ≠ .queue)
    (hget : ∀ t, e = .resumeGetc t → StillWaits s.input (.resume t)) : ∃ s', serialStep s e = some s' := by
  cases e with
  | initQueue =>
    obtain ⟨s₁, h₁, hpoll, -⟩ := initFirst_leads hI (hinit rfl)
    exact Option.isSome_iff_exists.mp (by simp [serialStep, serialInitQueue, h₁, hpoll])
  | putcOn t byte => cases he
  | putcOff byte => cases he
  | resumePutc t => cases he
  | flush =>
    obtain ⟨s', h', -⟩ := serialFlush_leads hI
    exact ⟨s', h'⟩
  | getc t =>
    simp only [serialStep, step]
    split
    · exact ⟨_, rfl⟩
    · exact ⟨_, rfl⟩
  | resumeGetc t =>
    obtain ⟨input, hin, -⟩ := resume_inv hI.input (hget t rfl)
    exact Option.isSome_iff_exists.mp (by simp [serialStep, resumeGetc, hin])
  | key c =>
    simp only [serialStep]
    split
    · exact ⟨s, rfl⟩
    · rename_i hf
      obtain ⟨s', h', -⟩ := inputPutc_leads hI (Bool.eq_false_iff.mpr hf) c
      exact ⟨s', h'⟩
  | interrupt rx ready =>
    simp only [serialStep]
    split
    · obtain ⟨s', h', -⟩ := serialInterrupt_leads hI rx ready
      exact ⟨s', h'⟩
    · exact ⟨s, rfl⟩

theorem stillWaits_of_serialStep {e : SerialEvent} (h : serialStep s e = some s') :
    (e = .initQueue → s.mode ≠ .queue) ∧ ∀ t, e = .resumeGetc t → StillWaits s.input (.resume t) := by
  refine ⟨fun he hm => ?_, fun t he => ?_⟩
  · subst he
    simp [serialStep, serialInitQueue, hm] at h
  · subst he
    obtain ⟨input, hin, -⟩ := Option.map_eq_some_iff.mp h
    exact stillWaits_of_step hin

/-! ## A thread in `serial_putc` -/

theorem resumePutc_runs (hI : s.Inv) (hn : NoneAcquires s.tx) (t : Nat) : ∃ s', resumePutc s t = some s' := by
  obtain ⟨tx, htx, -⟩ := resume_inv (t := t) hI.tx fun u c he hc => absurd hc (hn u c)
  exact Option.isSome_iff_exists.mp (by simp [resumePutc, htx])

/-- The thread goes on, and is still in its call or has handed over its byte. -/
theorem resumePutc_cases (hb : (s.tx.pc t).call = some (.putc b)) (h : resumePutc s t = some s') :
    (∀ u, u ≠ t → (s'.tx.pc u).call = (s.tx.pc u).call) ∧
      (s.tx.done s'.tx t = false ∧ (s'.tx.pc t).call = some (.putc b) ∧ s'.handed = s.handed ∨
        s.tx.done s'.tx t = true ∧ (s'.tx.pc t).call = none ∧ s'.handed = s.handed ++ [b]) := by
  unfold resumePutc at h
  obtain ⟨tx, htx, hs⟩ := Option.map_eq_some_iff.mp h
  have hs' : s'.tx = tx ∧ s'.early = s.early := by
    split at hs <;> subst hs <;> exact ⟨rfl, rfl⟩
  rw [Serial.handed, Serial.handed, hs'.1, hs'.2]
  rcases resume_cases htx with hq | ⟨c, tx', hc, hw, hfin, rfl⟩
  · exact ⟨fun u _ => hq.calls u, .inl ⟨hq.not_done, (hq.calls t).trans hb, by rw [hq.put]⟩⟩
  · have hcb : c = .putc b := by
      rw [hc] at hb
      exact Option.some.inj hb
    subst hcb
    have hM := storeByte_moved hw hfin
    have hself : ((tx'.goto t .out).pc t) = .out := Function.update_self ..
    refine ⟨fun u hu => ?_, .inr ⟨done_of_test hc, by rw [hself]; rfl, ?_⟩⟩
    · simp only [Sys.goto, Function.update_of_ne hu]
      exact hM.calls u
    · show s.early ++ tx'.put = s.early ++ s.tx.put ++ [b]
      rw [hM.put, List.append_assoc]

theorem resumePutc_acquires (hI : Devices.Inv s.tx) (halone : ∀ u, s.tx.pc u ≠ .out → u = t) (hn : NoneAcquires s.tx)
    (h : resumePutc s t = some s') : NoneAcquires s'.tx := by
  unfold resumePutc at h
  obtain ⟨tx, htx, hs⟩ := Option.map_eq_some_iff.mp h
  have hs' : s'.tx = tx := by
    split at hs <;> subst hs <;> rfl
  exact hs' ▸ resume_alone hI halone hn htx

end PintosKaist.Devices
