/-
Priority inheritance, for any set of threads and any relation "w waits for t".

A thread's priority is *exact* when it is the greatest of its own base
priority and the priorities of the threads that wait for it. Blocking at
priority `p` is paid for by walking from waiter to waited-for thread and
raising each thread to `p`, until one is above `p`. Along that walk every
thread is exact but the one the last raised thread waits for, which is still
*due*: `Owing` is that loop invariant, `Owing.raise` its step.
-/
import Mathlib.Order.Bounds.Basic
import Mathlib.Order.Defs.LinearOrder

namespace Inherit

variable {T P : Type*} [LinearOrder P] {base base' prio prio' : T → P} {waits waits' : T → T → Prop}
  {p : P} {t u x : T}

/-- `t` runs at the greatest of its base priority and its waiters' priorities. -/
def Exact (base prio : T → P) (waits : T → T → Prop) (t : T) : Prop :=
  IsGreatest (insert (base t) (prio '' {w | waits w t})) (prio t)

theorem exact_iff : Exact base prio waits t ↔ base t ≤ prio t ∧ (∀ w, waits w t → prio w ≤ prio t) ∧
    (prio t = base t ∨ ∃ w, waits w t ∧ prio w = prio t) := by
  simp only [Exact, IsGreatest, mem_upperBounds, Set.mem_insert_iff, Set.mem_image, Set.mem_ofPred_eq,
    forall_eq_or_imp, forall_exists_index, and_imp, forall_apply_eq_imp_iff₂]
  exact ⟨fun ⟨h, hb, hw⟩ => ⟨hb, hw, h⟩, fun ⟨hb, hw, h⟩ => ⟨h, hb, hw⟩⟩

/-- Exactness of `t` only looks at `t` and at its waiters. -/
theorem Exact.congr (h : Exact base prio waits t) (hb : base' t = base t) (hp : prio' t = prio t)
    (hw : ∀ w, waits' w t ↔ waits w t) (hpw : ∀ w, waits w t → prio' w = prio w) :
    Exact base' prio' waits' t := by
  rw [exact_iff] at h ⊢
  obtain ⟨h₁, h₂, h₃⟩ := h
  rw [hb, hp]
  refine ⟨h₁, fun w hwt => ?_, ?_⟩
  · have hwt := (hw w).mp hwt
    exact hpw w hwt ▸ h₂ w hwt
  · rcases h₃ with h₃ | ⟨w, hwt, he⟩
    · exact .inl h₃
    · exact .inr ⟨w, (hw w).mpr hwt, by rw [hpw w hwt, he]⟩

/-- A further waiter that is not above `t` changes nothing for `t`. -/
theorem Exact.grow (h : Exact base prio waits t) (hsub : ∀ w, waits w t → waits' w t)
    (hle : ∀ w, waits' w t → prio w ≤ prio t) : Exact base prio waits' t := by
  rw [exact_iff] at h ⊢
  obtain ⟨h₁, -, h₃⟩ := h
  exact ⟨h₁, hle, h₃.imp_right fun ⟨w, hw, he⟩ => ⟨w, hsub w hw, he⟩⟩

/-- `t` is exact up to the waiter `u`, which stands at `p`: `t` has not been
paid for it yet, and may still run at what an older priority of `u` gave it. -/
def Due (base prio : T → P) (waits : T → T → Prop) (p : P) (u t : T) : Prop :=
  base t ≤ prio t ∧ (∀ w, waits w t → w ≠ u → prio w ≤ prio t) ∧
    (prio t ≤ p ∨ prio t = base t ∨ ∃ w, waits w t ∧ prio w = prio t)

/-- Everyone is exact, but the thread `u` waits for is due for `u`. -/
def Owing (base prio : T → P) (waits : T → T → Prop) (p : P) (u : T) : Prop :=
  ∀ x, (waits u x → Due base prio waits p u x) ∧ (¬ waits u x → Exact base prio waits x)

/-- Nobody is waited for by `u`: the walk is over. -/
theorem Owing.of_no_wait (h : Owing base prio waits p u) (hu : ∀ x, ¬ waits u x) (x : T) :
    Exact base prio waits x :=
  (h x).2 (hu x)

/-- The thread `u` waits for is above `u`: the walk is over. -/
theorem Owing.of_above (h : Owing base prio waits p u) (hu : prio u = p)
    (hone : ∀ x, waits u x → x = t) (ht : p < prio t) (x : T) : Exact base prio waits x := by
  by_cases hx : waits u x
  · obtain ⟨h₁, h₂, h₃⟩ := (h x).1 hx
    obtain rfl := hone x hx
    refine exact_iff.mpr ⟨h₁, fun w hw => ?_, ?_⟩
    · by_cases hwu : w = u
      · subst hwu
        exact hu ▸ le_of_lt ht
      · exact h₂ w hw hwu
    · rcases h₃ with h₃ | h₃
      · exact absurd ht (not_lt.mpr h₃)
      · exact h₃
  · exact (h x).2 hx

/-- `u` begins to wait for `t`. -/
theorem Owing.start (h : ∀ x, Exact base prio waits x)
    (hwait : ∀ w x, waits' w x ↔ waits w x ∨ w = u ∧ x = t) : Owing base prio waits' p u := by
  intro x
  have hx := exact_iff.mp (h x)
  refine ⟨fun _ => ⟨hx.1, fun w hw hwu => ?_, .inr ?_⟩, fun hn => ?_⟩
  · rcases (hwait w x).mp hw with hw | ⟨rfl, -⟩
    · exact hx.2.1 w hw
    · exact absurd rfl hwu
  · rcases hx.2.2 with he | ⟨w, hw, he⟩
    · exact .inl he
    · exact .inr ⟨w, (hwait w x).mpr (.inl hw), he⟩
  · refine (h x).congr rfl rfl (fun w => ?_) fun w _ => rfl
    rw [hwait]
    refine ⟨fun hw => hw.resolve_right ?_, .inl⟩
    rintro ⟨rfl, rfl⟩
    exact hn ((hwait w x).mpr (.inr ⟨rfl, rfl⟩))

/-- **One turn of the walk.** `t`, which `u` waits for and which is not above
`p`, is raised to `p`; the thread that `t` waits for is due next. -/
theorem Owing.raise (h : Owing base prio waits p u) (hu : prio u = p) (hut : waits u t)
    (hone : ∀ x, waits u x → x = t) (ht : prio t ≤ p) (hp : prio' t = p)
    (hother : ∀ x, x ≠ t → prio' x = prio x) : Owing base prio' waits p t := by
  have hmono : ∀ x, prio x ≤ prio' x := fun x => by
    by_cases hx : x = t
    · rw [hx, hp]
      exact ht
    · rw [hother x hx]
  have hu' : prio' u = p := by
    by_cases hx : u = t
    · rw [hx, hp]
    · rw [hother u hx, hu]
  have hexact : Exact base prio' waits t := by
    obtain ⟨h₁, h₂, -⟩ := (h t).1 hut
    refine exact_iff.mpr ⟨le_trans h₁ (hmono t), fun w hw => ?_, .inr ⟨u, hut, by rw [hu', hp]⟩⟩
    by_cases hwu : w = u
    · rw [hwu, hu', hp]
    · by_cases hwt : w = t
      · rw [hwt]
      · rw [hother w hwt]
        exact le_trans (h₂ w hw hwu) (hmono t)
  intro x
  by_cases hxt : x = t
  · subst hxt
    refine ⟨fun _ => ?_, fun _ => hexact⟩
    obtain ⟨h₁, h₂, h₃⟩ := exact_iff.mp hexact
    exact ⟨h₁, fun w hw _ => h₂ w hw, .inr h₃⟩
  · have hx := (h x).2 fun hux => hxt (hone x hux)
    have hpx := hother x hxt
    obtain ⟨h₁, h₂, h₃⟩ := exact_iff.mp hx
    refine ⟨fun htx => ⟨by rw [hpx]; exact h₁, fun w hw hwt => ?_, ?_⟩, fun htx => ?_⟩
    · rw [hother w hwt, hpx]
      exact h₂ w hw
    · rw [hpx]
      rcases h₃ with h₃ | ⟨w, hw, he⟩
      · exact .inr (.inl h₃)
      · by_cases hwt : w = t
        -- `x` ran at what `t` had before: not above `p`
        · subst hwt
          exact .inl (he ▸ ht)
        · exact .inr (.inr ⟨w, hw, by rw [hother w hwt, he]⟩)
    · refine hx.congr rfl hpx (fun _ => Iff.rfl) fun w hw => hother w ?_
      rintro rfl
      exact htx hw

end Inherit
