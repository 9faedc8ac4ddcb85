/-
Who is left behind at `sema_down (&curr->free_sema)`. Only the parent's
`process_wait` releases a process that has exited, and `process_exit` does
nothing about the children of the process: they are stuck once it is gone.
-/
import PintosKaist.Userprog.Wait

namespace PintosKaist.Wait

variable {s s' : Procs} {e : ProcEvent} {p c : Nat}

/-- A process blocked at `sema_down (&curr->free_sema)` has a parent that is
alive and has it on its list. -/
def Procs.NoOrphan (s : Procs) : Prop :=
  ∀ c < s.next, s.phase c = .exiting → s.freeSema c = 0 →
    ∃ p, s.parent c = some p ∧ s.phase p ≠ .dying ∧ c ∈ s.childrenList p

/-- Nobody dies with children on its list, and the initial thread, which has
no parent, does not exit. -/
def Procs.LeavesNone (s : Procs) : ProcEvent → Prop
  | .free p => s.childrenList p = []
  | .exit p => s.parent p ≠ none
  | _ => True

instance : DecidablePred s.LeavesNone
  | .free p => inferInstanceAs (Decidable (s.childrenList p = []))
  | .exit p => inferInstanceAs (Decidable (s.parent p ≠ none))
  | .create _ | .store _ _ | .wait _ _ | .down _ | .read _ | .reap _ => .isTrue trivial

structure Procs.Tidy (s : Procs) : Prop where
  dead : ∀ p < s.next, s.phase p = .dying → s.childrenList p = []
  exited : ∀ c < s.next, s.phase c = .exiting → s.parent c ≠ none

/-- A step by which nobody exits or dies, and no list of a dead process grows. -/
theorem Procs.Tidy.congr (h : s.Tidy) (hn : s'.next = s.next) (hp : s'.parent = s.parent)
    (hd : ∀ p, s'.phase p = .dying → s.phase p = .dying) (he : ∀ p, s'.phase p = .exiting → s.phase p = .exiting)
    (hl : ∀ p, s.childrenList p = [] → s'.childrenList p = []) : s'.Tidy where
  dead p hlt hph := hl p (h.dead p (hn ▸ hlt) (hd p hph))
  exited c hlt hph := by
    rw [hp]
    exact h.exited c (hn ▸ hlt) (he c hph)

theorem setPhase_dying {ph : Phase} (hne : ph ≠ .dying) {q : Nat} (h : (s.setPhase p ph).phase q = .dying) :
    s.phase q = .dying := by
  simp only [Procs.setPhase, Function.update_apply] at h
  split at h
  · exact absurd h hne
  · exact h

theorem setPhase_exiting {ph : Phase} (hne : ph ≠ .exiting) {q : Nat} (h : (s.setPhase p ph).phase q = .exiting) :
    s.phase q = .exiting := by
  simp only [Procs.setPhase, Function.update_apply] at h
  split at h
  · exact absurd h hne
  · exact h

theorem Procs.Tidy.setPhase {ph : Phase} (h : s.Tidy) (h₁ : ph ≠ .dying) (h₂ : ph ≠ .exiting) :
    (s.setPhase p ph).Tidy :=
  h.congr rfl rfl (fun _ => setPhase_dying h₁) (fun _ => setPhase_exiting h₂) fun _ hl => hl

theorem Procs.Tidy.ret {tid : Nat} {w : Waited} (h : s.Tidy) : (s.ret p tid w).Tidy := by
  simp only [Procs.ret]
  split
  · exact h.congr rfl rfl (fun _ => id) (fun _ => id) fun _ => id
  · exact h

theorem tidy_create (h : s.Tidy) (hr : s.phase p = .running) : (s.create p).Tidy where
  dead q hlt hph := by
    have hd := h.dead q
    simp only [Procs.create, Function.update_apply] at hlt hph ⊢
    grind
  exited c hlt hph := by
    have he := h.exited c
    simp only [Procs.create, Function.update_apply] at hlt hph ⊢
    grind

theorem step_tidy (h : s.Tidy) (hg : s.LeavesNone e) (hs : s.step e = some s') : s'.Tidy := by
  cases e with
  | create p =>
    simp only [Procs.step, Option.ite_none_right_eq_some, Option.some.injEq] at hs
    exact hs.2 ▸ tidy_create h hs.1.2
  | store p st =>
    simp only [Procs.step, Option.ite_none_right_eq_some, Option.some.injEq] at hs
    exact hs.2 ▸ h.congr rfl rfl (fun _ => id) (fun _ => id) fun _ => id
  | exit p =>
    simp only [Procs.step, Option.ite_none_right_eq_some, Option.some.injEq] at hs
    obtain ⟨-, rfl⟩ := hs
    refine ⟨fun q hlt hph => h.dead q hlt (setPhase_dying (by simp) hph), fun c hlt hph => ?_⟩
    by_cases hc : c = p
    · exact hc ▸ hg
    · simp only [Procs.setPhase, Function.update_apply, if_neg hc] at hph
      exact h.exited c hlt hph
  | free p =>
    simp only [Procs.step, Option.ite_none_right_eq_some, Option.some.injEq] at hs
    obtain ⟨-, rfl⟩ := hs
    refine ⟨fun q hlt hph => ?_, fun c hlt hph => h.exited c hlt (setPhase_exiting (by simp) hph)⟩
    by_cases hq : q = p
    · exact hq ▸ hg
    · simp only [Procs.setPhase, Function.update_apply, if_neg hq] at hph
      exact h.dead q hlt hph
  | wait p tid =>
    simp only [Procs.step, Option.ite_none_right_eq_some, Option.some.injEq] at hs
    obtain ⟨-, rfl⟩ := hs
    rcases wait_cases s p tid with ⟨-, he⟩ | ⟨-, he⟩
    · exact he ▸ h.ret
    · exact he ▸ h.setPhase (by simp) (by simp)
  | down p =>
    simp only [Procs.step] at hs
    split at hs
    · rename_i c hp
      simp only [Option.ite_none_right_eq_some, Option.some.injEq] at hs
      have h' : (s.setPhase p (.reading c)).Tidy := h.setPhase (by simp) (by simp)
      exact hs.2 ▸ h'.congr rfl rfl (fun _ => id) (fun _ => id) fun _ => id
    · cases hs
  | read p =>
    simp only [Procs.step] at hs
    split at hs
    · exact Option.some.inj hs ▸ h.setPhase (by simp) (by simp)
    · cases hs
  | reap p =>
    simp only [Procs.step] at hs
    split at hs
    · rename_i c st hp
      refine Option.some.inj hs ▸ Procs.Tidy.ret (Procs.Tidy.setPhase ?_ (by simp) (by simp))
      refine h.congr rfl rfl (fun _ => id) (fun _ => id) fun q hl => ?_
      simp only [Function.update_apply]
      grind
    · cases hs

/-- When nobody dies with children on its list, no process is left at its
`free_sema` without a parent that can still release it. -/
theorem noOrphan_of_run (es : List ProcEvent) (hr : Run.run Procs.step Procs.boot es = some s)
    (hg : Run.Always Procs.step Procs.LeavesNone Procs.boot es) : s.NoOrphan := by
  have h := run_ok hr
  have h₀ : Procs.boot.Tidy := by constructor <;> simp [Procs.boot]
  have ht : s.Tidy := Run.run_invariant (fun _ _ _ h hg hs => step_tidy h hg hs) h₀ hr hg
  intro c hc he hf
  obtain ⟨p, hp⟩ := Option.ne_none_iff_exists'.mp (ht.exited c hc he)
  have hmem : c ∈ s.childrenList p := by
    cases h.handshake p c hp with
    | unwaited mem => exact mem
    | answering mem => exact mem
    | answered mem waited wait exited => simp [he, hf] at exited
  refine ⟨p, hp, fun hd => ?_, hmem⟩
  have hlt := h.old p c hp
  rw [ht.dead p (Nat.lt_trans hlt.1 hlt.2) hd] at hmem
  exact absurd hmem (by simp)

theorem noOrphan_waitTwice : ∃ s, Run.run Procs.step Procs.boot (waitTwice.take 4) = some s ∧
    s.phase 1 = .exiting ∧ s.NoOrphan := by
  obtain ⟨s, hs, hd⟩ := (Option.any_eq_true ..).mp
    (show (Run.run Procs.step Procs.boot (waitTwice.take 4)).any (·.phase 1 = .exiting) = true by decide +kernel)
  exact ⟨s, hs, of_decide_eq_true hd, noOrphan_of_run _ hs (by decide +kernel)⟩

/-- A process exits without waiting for its child, which has exited before,
and is waited for itself. -/
def orphanRun : List ProcEvent :=
  [.create 0, .create 1, .exit 2, .exit 1, .wait 0 1, .down 0, .read 0, .reap 0, .free 1]

theorem not_noOrphan_of_exit : ∃ s, Run.run Procs.step Procs.boot orphanRun = some s ∧ s.phase 2 = .exiting ∧
    s.freeSema 2 = 0 ∧ s.parent 2 = some 1 ∧ s.phase 1 = .dying ∧ ¬ s.NoOrphan := by
  obtain ⟨s, hs, hd⟩ := (Option.any_eq_true ..).mp
    (show (Run.run Procs.step Procs.boot orphanRun).any (fun s => 2 < s.next ∧ s.phase 2 = .exiting ∧
      s.freeSema 2 = 0 ∧ s.parent 2 = some 1 ∧ s.phase 1 = .dying) = true by decide +kernel)
  obtain ⟨hn, he, hf, hp, hd⟩ := of_decide_eq_true hd
  refine ⟨s, hs, he, hf, hp, hd, fun h => ?_⟩
  obtain ⟨p, hp', hal, -⟩ := h 2 hn he hf
  obtain rfl := Option.some.inj (hp'.symm.trans hp)
  exact hal hd

end PintosKaist.Wait
