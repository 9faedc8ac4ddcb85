/-
Runs of a partial step function. A run is a list of events, each taken in
the state the one before it left; `none` is a step that cannot be taken.

`Always` says that every step of a run meets a condition on the state before
it and its event. `run_invariant` is the rule the developments use: what a
step that meets the condition keeps, a run of such steps keeps.
-/
import Mathlib.Data.Option.Basic
import Mathlib.Data.List.Basic

namespace Run

variable {σ ε : Type*} {step : σ → ε → Option σ}

/-- The state the events lead to, when every one of them can be taken. -/
def run (step : σ → ε → Option σ) : σ → List ε → Option σ
  | s, [] => some s
  | s, e :: es => (step s e).bind fun s' => run step s' es

/-- Along the run, every step meets `G`, a condition on the state before the
step and its event. -/
def Always (step : σ → ε → Option σ) (G : σ → ε → Prop) : σ → List ε → Prop
  | _, [] => True
  | s, e :: es => G s e ∧ ∀ s', step s e = some s' → Always step G s' es

@[simp] theorem run_nil {s : σ} : run step s [] = some s := rfl

theorem run_cons {s s' : σ} {e : ε} {es : List ε} :
    run step s (e :: es) = some s' ↔ ∃ t, step s e = some t ∧ run step t es = some s' := by
  simp only [run, Option.bind_eq_some_iff]

theorem run_append {s : σ} {xs ys : List ε} :
    run step s (xs ++ ys) = (run step s xs).bind fun t => run step t ys := by
  induction xs generalizing s with
  | nil => rfl
  | cons x xs ih =>
    simp only [List.cons_append, run, Option.bind_assoc]
    exact congrArg _ (funext fun t => ih)

theorem always_cons {G : σ → ε → Prop} {s : σ} {e : ε} {es : List ε} :
    Always step G s (e :: es) ↔ G s e ∧ ∀ s', step s e = some s' → Always step G s' es := Iff.rfl

/-- Along a run that can be taken, the condition holds of what follows it. -/
theorem always_append {G : σ → ε → Prop} {xs ys : List ε} :
    ∀ {s s' : σ}, run step s xs = some s' → Always step G s (xs ++ ys) →
      Always step G s xs ∧ Always step G s' ys := by
  induction xs with
  | nil =>
    intro s s' h hG
    simp only [run_nil, Option.some.injEq] at h
    exact ⟨trivial, h ▸ hG⟩
  | cons x xs ih =>
    intro s s' h hG
    obtain ⟨t, ht, hr⟩ := run_cons.mp h
    obtain ⟨h₁, h₂⟩ := hG
    refine ⟨⟨h₁, fun u hu => ?_⟩, (ih hr (h₂ t ht)).2⟩
    obtain rfl := Option.some.inj (ht.symm.trans hu)
    exact (ih hr (h₂ t ht)).1

/-- A condition that can be decided at each step can be decided along a run. -/
instance decidableAlways {G : σ → ε → Prop} [∀ s e, Decidable (G s e)] :
    ∀ (s : σ) (es : List ε), Decidable (Always step G s es)
  | _, [] => .isTrue trivial
  | s, e :: es =>
    match hs : step s e with
    | none => decidable_of_iff (G s e) (by simp [always_cons, hs])
    | some s' =>
      have := decidableAlways (G := G) s' es
      decidable_of_iff (G s e ∧ Always step G s' es) (by simp [always_cons, hs])

/-- A condition that every event of the list meets in every state is met
along the run. -/
theorem always_of_mem {G : σ → ε → Prop} :
    ∀ {es : List ε} (s : σ), (∀ e ∈ es, ∀ s, G s e) → Always step G s es
  | [], _, _ => trivial
  | e :: es, s, h =>
    ⟨h e (by simp) s, fun s' _ => always_of_mem s' fun e' he' => h e' (by simp [he'])⟩

theorem always_and {G H : σ → ε → Prop} : ∀ {es : List ε} {s : σ}, Always step G s es → Always step H s es →
    Always step (fun s e => G s e ∧ H s e) s es
  | [], _, _, _ => trivial
  | _ :: _, _, hG, hH => ⟨⟨hG.1, hH.1⟩, fun s' hs => always_and (hG.2 s' hs) (hH.2 s' hs)⟩

/-- A condition that every step that can be taken meets is met along a run. -/
theorem always_of_run {G : σ → ε → Prop} (hstep : ∀ s e s', step s e = some s' → G s e) :
    ∀ {es : List ε} {s s' : σ}, run step s es = some s' → Always step G s es
  | [], _, _, _ => trivial
  | e :: es, s, s', h => by
    obtain ⟨t, ht, hr⟩ := run_cons.mp h
    exact ⟨hstep s e t ht, fun u hu => Option.some.inj (ht.symm.trans hu) ▸ always_of_run hstep hr⟩

/-- **The invariant rule.** What holds at the start and is kept by every step
that meets `G` holds at the end of every run whose steps all meet `G`. -/
theorem run_invariant {G : σ → ε → Prop} {I : σ → Prop}
    (keep : ∀ s e s', I s → G s e → step s e = some s' → I s') :
    ∀ {es : List ε} {s s' : σ}, I s → run step s es = some s' → Always step G s es → I s'
  | [], s, s', hI, h, _ => by
    simp only [run_nil, Option.some.injEq] at h
    exact h ▸ hI
  | e :: es, s, s', hI, h, hG => by
    obtain ⟨t, ht, hr⟩ := run_cons.mp h
    exact run_invariant keep (keep s e t hI hG.1 ht) hr (hG.2 t ht)

/-- **The progress rule.** Where every step that meets `G` can be taken and
keeps `I`, every run of such steps can be taken and keeps it. -/
theorem run_progress {G : σ → ε → Prop} {I : σ → Prop}
    (keep : ∀ s e, I s → G s e → ∃ s', step s e = some s' ∧ I s') :
    ∀ {es : List ε} {s : σ}, I s → Always step G s es → ∃ s', run step s es = some s' ∧ I s'
  | [], s, hI, _ => ⟨s, rfl, hI⟩
  | e :: es, s, hI, hG => by
    obtain ⟨t, ht, hIt⟩ := keep s e hI hG.1
    obtain ⟨s', hs', hI'⟩ := run_progress keep hIt (hG.2 t ht)
    exact ⟨s', run_cons.mpr ⟨t, ht, hs'⟩, hI'⟩

/-- **Two conditions that come to the same** in the states of an invariant come
to the same along a run. -/
theorem always_iff {G H L : σ → ε → Prop} {I : σ → Prop}
    (keep : ∀ s e s', I s → L s e → step s e = some s' → I s' ∧ (G s e ↔ H s e)) :
    ∀ {es : List ε} {s s' : σ}, I s → run step s es = some s' → Always step L s es →
      (Always step G s es ↔ Always step H s es)
  | [], _, _, _, _, _ => Iff.rfl
  | e :: es, s, s', hI, h, hL => by
    obtain ⟨t, ht, hr⟩ := run_cons.mp h
    obtain ⟨hIt, hiff⟩ := keep s e t hI hL.1 ht
    have ih := always_iff keep hIt hr (hL.2 t ht)
    simp only [always_cons, ht, Option.some.injEq, forall_eq', hiff, ih]

/-- **The simulation rule.** A second machine that takes the same events and
is related to the first by every step that meets `G` is related to it at the
end of every such run. -/
theorem run_simulation {τ : Type*} {G : σ → ε → Prop} {R : σ → τ → Prop} {f : τ → ε → τ}
    (keep : ∀ s e s' t, R s t → G s e → step s e = some s' → R s' (f t e)) :
    ∀ {es : List ε} {s s' : σ} {t : τ}, R s t → run step s es = some s' → Always step G s es → R s' (es.foldl f t)
  | [], s, s', t, hR, h, _ => by
    simp only [run_nil, Option.some.injEq] at h
    exact h ▸ hR
  | e :: es, s, s', t, hR, h, hG => by
    obtain ⟨u, hu, hr⟩ := run_cons.mp h
    rw [List.foldl_cons]
    exact run_simulation keep (keep s e u t hR hG.1 hu) hr (hG.2 u hu)

/-- **The marking rule.** A mark that stays, and that a step sets exactly when
it does not meet `G`, is set at the end of a run exactly when it was set
before or some step did not meet `G`. -/
theorem run_mark {G : σ → ε → Prop} {I M : σ → Prop}
    (keep : ∀ s e s', I s → step s e = some s' → I s' ∧ (M s' ↔ M s ∨ ¬ G s e)) :
    ∀ {es : List ε} {s s' : σ}, I s → run step s es = some s' → I s' ∧ (M s' ↔ M s ∨ ¬ Always step G s es)
  | [], s, s', hI, h => by
    simp only [run_nil, Option.some.injEq] at h
    subst h
    exact ⟨hI, by simp [Always]⟩
  | e :: es, s, s', hI, h => by
    obtain ⟨t, ht, hr⟩ := run_cons.mp h
    obtain ⟨hIt, hMt⟩ := keep s e t hI ht
    obtain ⟨hI', hM'⟩ := run_mark keep hIt hr
    refine ⟨hI', ?_⟩
    rw [hM', hMt, always_cons, ht]
    simp only [Option.some.injEq, forall_eq', not_and_or, or_assoc]

/-- A run that passes over some of its events is a run of the others. -/
theorem run_filter_map {ε' : Type*} {step' : σ → ε' → Option σ} {p : ε → Bool} {f : ε → ε'} :
    ∀ {es : List ε} {s : σ}, (∀ e ∈ es, ∀ s, step s e = if p e then step' s (f e) else some s) →
      run step s es = run step' s ((es.filter p).map f)
  | [], _, _ => rfl
  | e :: es, s, h => by
    have he := h e List.mem_cons_self s
    have hes := fun s => run_filter_map (s := s) fun e' he' => h e' (List.mem_cons_of_mem e he')
    cases hp : p e <;> rw [hp] at he
    · rw [List.filter_cons_of_neg (by simp [hp]), ← hes s, run, he]
      rfl
    · rw [List.filter_cons_of_pos hp, List.map_cons, run, run, he, if_pos rfl]
      exact congrArg _ (funext hes)

/-- **The counting loop.** `I k` holds before turn `k` of a loop over
`0, …, n - 1`, so `I n` holds after it. -/
theorem run_range {step : σ → Nat → Option σ} {I : Nat → σ → Prop} {n : Nat} {s s' : σ}
    (keep : ∀ k s s', k < n → I k s → step s k = some s' → I (k + 1) s')
    (h0 : I 0 s) (h : run step s (List.range n) = some s') : I n s' := by
  induction n generalizing s' with
  | zero =>
    simp only [List.range_zero, run_nil, Option.some.injEq] at h
    exact h ▸ h0
  | succ n ih =>
    rw [List.range_succ, run_append, Option.bind_eq_some_iff] at h
    obtain ⟨t, ht, hr⟩ := h
    obtain ⟨u, hu, hr⟩ := run_cons.mp hr
    simp only [run_nil, Option.some.injEq] at hr
    subst hr
    exact keep n t u (by omega) (ih (fun k s s' hk => keep k s s' (by omega)) ht) hu

end Run
