/-
A C `while` loop as a function: its body is a turn that may fail, leave the loop
or go round once more.

A loop with an invariant and a measure that every turn lowers ends, and what
holds where it is left holds of its result (`whileLoop_ends`). The invariant
holds at the head of the loop every time (`Visits.inv`). A loop whose turns may
fail goes through when none of them does (`whileLoop_count`), and what its turns
keep holds of its result if there is one (`whileLoop_post`). Two loops whose
turns do the same to related states end alike (`whileLoop_alike`).
-/
import Mathlib.Data.Option.Basic

namespace PintosKaist.While

variable {σ τ : Type*}

/-- The loop, for `fuel` turns at most. -/
def whileLoop (turn : σ → Option (ForInStep σ)) : Nat → σ → Option σ
  | 0, _ => none
  | fuel + 1, s =>
    match turn s with
    | none => none
    | some (.done s') => some s'
    | some (.yield s') => whileLoop turn fuel s'

variable {turn : σ → Option (ForInStep σ)} {Inv Post : σ → Prop} {m : σ → Nat} {fuel : Nat} {s s' : σ}

theorem whileLoop_done (h : turn s = some (.done s')) : whileLoop turn (fuel + 1) s = some s' := by
  simp only [whileLoop, h]

theorem whileLoop_yield (h : turn s = some (.yield s')) :
    whileLoop turn (fuel + 1) s = whileLoop turn fuel s' := by
  simp only [whileLoop, h]

/-- What a turn does to a state of the invariant: it leaves the loop, or it
keeps the invariant and comes closer to the end. -/
def Turns (turn : σ → Option (ForInStep σ)) (Inv Post : σ → Prop) (m : σ → Nat) (s : σ) : Prop :=
  (∃ s', turn s = some (.done s') ∧ Post s') ∨ ∃ s', turn s = some (.yield s') ∧ Inv s' ∧ m s' < m s

/-- **A loop whose turns keep an invariant and lower a measure ends.** -/
theorem whileLoop_ends (hturn : ∀ s, Inv s → Turns turn Inv Post m s) (hs : Inv s) (hf : m s < fuel) :
    ∃ s', whileLoop turn fuel s = some s' ∧ Post s' := by
  induction fuel generalizing s with
  | zero => exact absurd hf (Nat.not_lt_zero _)
  | succ fuel ih =>
    rcases hturn s hs with ⟨s', hd, hp⟩ | ⟨s', hy, hi, hm⟩
    · exact ⟨s', whileLoop_done hd, hp⟩
    · obtain ⟨t, ht, hp⟩ := ih hi (by omega)
      exact ⟨t, (whileLoop_yield hy).trans ht, hp⟩

/-- The states a loop comes by at its head. -/
inductive Visits (turn : σ → Option (ForInStep σ)) (s : σ) : σ → Prop
  | start : Visits turn s s
  | turn {t u : σ} (ht : Visits turn s t) (h : turn t = some (.yield u)) : Visits turn s u

theorem Visits.head {t u : σ} (h : turn s = some (.yield u)) (ht : Visits turn u t) : Visits turn s t := by
  induction ht with
  | start => exact .turn .start h
  | turn _ hy ih => exact .turn ih hy

/-- The invariant holds at the head of the loop every time. -/
theorem Visits.inv (hturn : ∀ s, Inv s → Turns turn Inv Post m s) (hs : Inv s) (h : Visits turn s s') : Inv s' := by
  induction h with
  | start => exact hs
  | turn _ hy ih =>
    rcases hturn _ ih with ⟨u, hd, -⟩ | ⟨u, hy', hi, -⟩
    · rw [hd] at hy
      cases hy
    · rw [hy'] at hy
      obtain rfl := ForInStep.yield.inj (Option.some.inj hy)
      exact hi

/-- **A loop that counts to `n`** goes through when each of its turns can be
taken, and fails at the first that cannot: `At k` are its states before turn
`k`. -/
theorem whileLoop_count {At : Nat → σ → Prop} {Ok : Nat → Prop} {n k : Nat}
    (hturn : ∀ k < n, ∀ s, At k s → Ok k ∧ (∃ s', turn s = some (.yield s') ∧ At (k + 1) s') ∨ ¬ Ok k ∧ turn s = none)
    (hdone : ∀ s, At n s → turn s = some (.done s)) (hk : k ≤ n) (hs : At k s) (hf : n - k < fuel) :
    (∀ j, k ≤ j → j < n → Ok j) ∧ (∃ s', whileLoop turn fuel s = some s' ∧ At n s') ∨
      (¬ ∀ j, k ≤ j → j < n → Ok j) ∧ whileLoop turn fuel s = none := by
  induction fuel generalizing s k with
  | zero => exact absurd hf (Nat.not_lt_zero _)
  | succ fuel ih =>
    rcases Nat.lt_or_eq_of_le hk with hlt | rfl
    · rcases hturn k hlt s hs with ⟨hok, s', hy, hat⟩ | ⟨hbad, hnone⟩
      · rw [whileLoop_yield hy]
        rcases ih hlt hat (by omega) with ⟨hall, hres⟩ | ⟨hnot, hres⟩
        · refine .inl ⟨fun j hj hjn => ?_, hres⟩
          rcases Nat.lt_or_eq_of_le hj with hj | rfl
          · exact hall j hj hjn
          · exact hok
        · exact .inr ⟨fun hall => hnot fun j hj hjn => hall j (by omega) hjn, hres⟩
      · exact .inr ⟨fun hall => hbad (hall k (Nat.le_refl k) hlt), by simp only [whileLoop, hnone]⟩
    · exact .inl ⟨fun j hj hjn => by omega, s, whileLoop_done (hdone s hs), hs⟩

/-- A turn that is not said to go through: if it does, it keeps the invariant,
or leaves the loop with what is wanted. -/
def Keeps (turn : σ → Option (ForInStep σ)) (Inv Post : σ → Prop) (s : σ) : Prop :=
  match turn s with
  | none => True
  | some (.done s') => Post s'
  | some (.yield s') => Inv s'

/-- What the turns of a loop keep holds of what it returns. -/
theorem whileLoop_post (hturn : ∀ s, Inv s → Keeps turn Inv Post s) (hs : Inv s)
    (h : whileLoop turn fuel s = some s') : Post s' := by
  induction fuel generalizing s with
  | zero => nomatch h
  | succ fuel ih =>
    have hkeep := hturn s hs
    simp only [Keeps, whileLoop] at hkeep h
    cases hstep : turn s with
    | none =>
      rw [hstep] at h
      cases h
    | some r =>
      rw [hstep] at hkeep h
      cases r with
      | done t =>
        obtain rfl := Option.some.inj h
        exact hkeep
      | yield t => exact ih hkeep h

/-! ## Two loops -/

/-- A turn of each of two loops: both do the same, and what they leave is
related. -/
inductive Alike (R : σ → τ → Prop) : Option (ForInStep σ) → Option (ForInStep τ) → Prop
  | fail : Alike R none none
  | done {s : σ} {t : τ} (h : R s t) : Alike R (some (.done s)) (some (.done t))
  | yield {s : σ} {t : τ} (h : R s t) : Alike R (some (.yield s)) (some (.yield t))

/-- **Two loops whose turns do the same to related states** end in related
states, or neither ends. -/
theorem whileLoop_alike {turn' : τ → Option (ForInStep τ)} {R : σ → τ → Prop} {t : τ}
    (hturn : ∀ s t, R s t → Alike R (turn s) (turn' t)) (h : R s t) :
    Option.Rel R (whileLoop turn fuel s) (whileLoop turn' fuel t) := by
  induction fuel generalizing s t with
  | zero => exact .none
  | succ fuel ih =>
    have hst := hturn s t h
    simp only [whileLoop]
    cases hs : turn s <;> cases ht : turn' t <;> rw [hs, ht] at hst <;> cases hst
    case none.none.fail => exact .none
    case some.some.done hr => exact .some hr
    case some.some.yield hr => exact ih hr

end PintosKaist.While
