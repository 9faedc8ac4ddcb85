/-
Visiting the elements of a list with a callback that may call it off.

The visit goes on while the callback returns true, and returns false where it
first returns false (`visit_ends`). A visit whose turns are visits themselves
is one visit of all their elements in a row (`visit_flatMap`), where what the
turns go by is kept by the callback.
-/
import Mathlib.Data.List.Basic

namespace PintosKaist.Visit

variable {α β σ : Type*}

/-- The elements in order, up to the first for which `f` returns false. -/
def visit (f : α → σ → Bool × σ) : List α → σ → Bool × σ
  | [], s => (true, s)
  | a :: l, s =>
    match f a s with
    | (true, s') => visit f l s'
    | (false, s') => (false, s')

variable {f : α → σ → Bool × σ} {l l₁ l₂ : List α} {a : α} {s s' s₁ s₂ : σ} {Inv : σ → Prop}

/-- Calling `f` for each element of `l` leads from `s` to `s'`, and all calls
return true. -/
inductive Calls (f : α → σ → Bool × σ) : List α → σ → σ → Prop
  | nil {s : σ} : Calls f [] s s
  | cons {a : α} {l : List α} {s s₁ s₂ : σ} (h : f a s = (true, s₁)) (hl : Calls f l s₁ s₂) : Calls f (a :: l) s s₂

/-- How a visit ends: with true after the last element, or with false at the
first for which `f` returns false. -/
inductive Ends (f : α → σ → Bool × σ) (l : List α) (s : σ) : Bool × σ → Prop
  | all {s' : σ} (h : Calls f l s s') : Ends f l s (true, s')
  | stop {l₁ l₂ : List α} {a : α} {s₁ s₂ : σ} (hl : l = l₁ ++ a :: l₂) (h : Calls f l₁ s s₁)
      (ha : f a s₁ = (false, s₂)) : Ends f l s (false, s₂)

theorem Ends.cons {r : Bool × σ} (h : f a s = (true, s₁)) (he : Ends f l s₁ r) : Ends f (a :: l) s r := by
  cases he with
  | all hc => exact .all (.cons h hc)
  | stop hl hc ha => exact .stop (by rw [hl]; rfl) (.cons h hc) ha

theorem visit_ends (f : α → σ → Bool × σ) (l : List α) (s : σ) : Ends f l s (visit f l s) := by
  induction l generalizing s with
  | nil => exact .all .nil
  | cons a l ih =>
    unfold visit
    split
    · rename_i s₁ h
      exact .cons h (ih s₁)
    · rename_i s₁ h
      exact .stop rfl .nil h

theorem visit_singleton : visit f [a] s = f a s := by
  unfold visit
  cases f a s with
  | mk b s₁ => cases b <;> rfl

theorem visit_append : visit f (l₁ ++ l₂) s =
    match visit f l₁ s with
    | (true, s') => visit f l₂ s'
    | (false, s') => (false, s') := by
  induction l₁ generalizing s with
  | nil => rfl
  | cons a l₁ ih =>
    simp only [List.cons_append, visit]
    cases f a s with
    | mk b s₁ =>
      cases b
      · rfl
      · exact ih

/-- What the callback keeps, the visit keeps. -/
theorem visit_inv (hf : ∀ a s, Inv s → Inv (f a s).2) (hs : Inv s) : Inv (visit f l s).2 := by
  induction l generalizing s with
  | nil => exact hs
  | cons a l ih =>
    have hi := hf a s hs
    unfold visit
    split
    · rename_i s₁ h
      rw [h] at hi
      exact ih hi
    · rename_i s₁ h
      rw [h] at hi
      exact hi

/-- **A visit of visits** is one visit. -/
theorem visit_flatMap {turn : β → σ → Bool × σ} {g : β → List α} {l : List β}
    (hturn : ∀ b ∈ l, ∀ s, Inv s → turn b s = visit f (g b) s) (hf : ∀ a s, Inv s → Inv (f a s).2) (hs : Inv s) :
    visit turn l s = visit f (l.flatMap g) s := by
  induction l generalizing s with
  | nil => rfl
  | cons b l ih =>
    have hi := visit_inv (l := g b) hf hs
    rw [List.flatMap_cons, visit_append, visit, hturn b List.mem_cons_self s hs]
    split
    · rename_i s₁ h
      rw [h] at hi
      exact ih (fun b hb => hturn b (List.mem_cons_of_mem _ hb)) hi
    · rfl

end PintosKaist.Visit
