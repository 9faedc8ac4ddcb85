/-
Copying values from places to places of one memory, one after the other, where
a place that is written may still have to be read.

When no write comes before a read of its place, every value arrives
(`copyAlong_at`); the places that are not written keep theirs (`copyAlong_off`).
-/
import Mathlib.Data.List.Nodup
import Mathlib.Logic.Function.Basic

namespace PintosKaist.Overlap

variable {ι A V : Type*} [DecidableEq A] {d s : ι → A} {ks : List ι} {m : A → V} {k : ι} {a : A}

/-- The value at `s k` goes to `d k`, for each `k` of the list in turn. -/
def copyAlong (d s : ι → A) : List ι → (A → V) → A → V
  | [], m => m
  | k :: ks, m => copyAlong d s ks (Function.update m (d k) (m (s k)))

theorem copyAlong_off (h : ∀ k ∈ ks, a ≠ d k) : copyAlong d s ks m a = m a := by
  induction ks generalizing m with
  | nil => rfl
  | cons k ks ih =>
    rw [copyAlong, ih fun j hj => h j (List.mem_cons_of_mem _ hj)]
    exact Function.update_of_ne (h k List.mem_cons_self) ..

/-- **Every value arrives**, when no place is written before it is read. -/
theorem copyAlong_at (hread : ks.Pairwise fun j k => d j ≠ s k) (honce : ks.Pairwise fun j k => d j ≠ d k)
    (hk : k ∈ ks) : copyAlong d s ks m (d k) = m (s k) := by
  induction ks generalizing m with
  | nil => exact absurd hk List.not_mem_nil
  | cons j ks ih =>
    obtain ⟨hj, hread⟩ := List.pairwise_cons.mp hread
    obtain ⟨hj', honce⟩ := List.pairwise_cons.mp honce
    rw [copyAlong]
    cases hk with
    | head =>
      rw [copyAlong_off hj']
      exact Function.update_self ..
    | tail _ hk =>
      rw [ih hread honce hk]
      exact Function.update_of_ne (hj k hk).symm ..

end PintosKaist.Overlap
