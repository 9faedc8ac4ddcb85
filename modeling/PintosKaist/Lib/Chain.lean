/-
Following a partial function: from a point, to where the function sends it, and
so on until it is undefined.

Over finitely many points the chain ends exactly when it does not run into a
cycle, and then it is no longer than there are points.
-/
import Mathlib.Data.List.Perm.Subperm
import Mathlib.Logic.Relation

namespace Chain

open Relation

variable {α : Type*} {f : α → Option α} {o : Option α} {a b : α} {n : Nat}

/-- The points come by from `o` on, `n` of them at most. -/
def chain (f : α → Option α) : Nat → Option α → List α
  | n + 1, some a => a :: chain f n (f a)
  | _, _ => []

@[simp] theorem chain_none : chain f n none = [] := by cases n <;> rfl

@[simp] theorem chain_zero : chain f 0 o = [] := rfl

@[simp] theorem chain_succ : chain f (n + 1) (some a) = a :: chain f n (f a) := rfl

/-- `a` is sent to `b`. -/
def Next (f : α → Option α) (a b : α) : Prop := f a = some b

/-- From `o` the chain gets to a point that it comes back to. -/
def Circular (f : α → Option α) (o : Option α) : Prop :=
  ∃ a ∈ o, ∃ b, ReflTransGen (Next f) a b ∧ TransGen (Next f) b b

theorem reaches_of_mem : ∀ {n : Nat} {o : Option α}, b ∈ chain f n o → ∃ a ∈ o, ReflTransGen (Next f) a b
  | 0, _, h => by cases h
  | _ + 1, none, h => by cases h
  | n + 1, some a, h => by
    refine ⟨a, rfl, ?_⟩
    obtain rfl | h := List.mem_cons.mp h
    · exact .refl
    · obtain ⟨c, hc, hr⟩ := reaches_of_mem h
      exact .head (show Next f a c from hc) hr

theorem Circular.tail (h : Circular f (f a)) : Circular f (some a) := by
  obtain ⟨c, hc, b, hr, hb⟩ := h
  exact ⟨a, rfl, b, .head (show Next f a c from hc) hr, hb⟩

/-- A chain in a circle goes on in a circle. -/
theorem Circular.next (h : Circular f (some a)) : Circular f (f a) := by
  obtain ⟨_, ha, b, hr, hb⟩ := h
  obtain rfl := Option.some.inj ha
  rcases hr.cases_head with rfl | ⟨c, hac, hr⟩
  · obtain ⟨c, hac, hca⟩ := TransGen.head'_iff.mp hb
    exact ⟨c, hac, a, hca, hb⟩
  · exact ⟨c, hac, b, hr, hb⟩

/-- A chain that comes by a point twice is in a circle. -/
theorem circular_of_not_nodup (h : ¬ (chain f n o).Nodup) : Circular f o := by
  induction n generalizing o with
  | zero => exact absurd List.nodup_nil h
  | succ n ih =>
    cases o with
    | none => exact absurd List.nodup_nil h
    | some a =>
      rw [chain_succ, List.nodup_cons, not_and_or, not_not] at h
      rcases h with h | h
      · obtain ⟨c, hc, hr⟩ := reaches_of_mem h
        exact ⟨a, rfl, a, .refl, .head' (show Next f a c from hc) hr⟩
      · exact (ih h).tail

/-- A chain in a circle is as long as it is let. -/
theorem Circular.length (h : Circular f o) (n : Nat) : (chain f n o).length = n := by
  induction n generalizing o with
  | zero => rfl
  | succ n ih =>
    obtain ⟨a, rfl, -⟩ := id h
    rw [chain_succ, List.length_cons, ih h.next]

/-- One that is in no circle ends, among finitely many points. -/
theorem length_le_of_not_circular {xs : List α} (h : ¬ Circular f o) (hin : chain f n o ⊆ xs) :
    (chain f n o).length ≤ xs.length :=
  (List.subperm_of_subset (not_not.mp fun hn => h (circular_of_not_nodup hn)) hin).length_le

end Chain
