/-
Elements kept in numbered lists: what all the lists together hold, and what
putting an element into its list, or taking it out, does to that.
-/
import Mathlib.Data.List.Perm.Basic
import Mathlib.Data.List.Nodup
import Mathlib.Logic.Function.Basic

namespace PintosKaist.Buckets

variable {α : Type*} {n i : Nat} {b b' : Nat → List α} {x : α} {idx : α → Nat} {xs : List α}

/-- The first `n` lists, one after the other. -/
def all (n : Nat) (b : Nat → List α) : List α := (List.range n).flatMap b

@[simp] theorem all_zero : all 0 b = [] := rfl

theorem all_succ : all (n + 1) b = all n b ++ b n := by
  unfold all
  rw [List.range_succ, List.flatMap_append, List.flatMap_singleton]

theorem mem_all : x ∈ all n b ↔ ∃ i < n, x ∈ b i := by
  unfold all
  simp only [List.mem_flatMap, List.mem_range]

theorem all_congr (h : ∀ i < n, b' i = b i) : all n b' = all n b := by
  induction n with
  | zero => rfl
  | succ n ih =>
    rw [all_succ, all_succ, ih fun i hi => h i (Nat.lt_succ_of_lt hi), h n (Nat.lt_succ_self n)]

theorem all_nil (h : ∀ i < n, b i = []) : all n b = [] := by
  induction n with
  | zero => rfl
  | succ n ih => rw [all_succ, ih fun i hi => h i (Nat.lt_succ_of_lt hi), h n (Nat.lt_succ_self n), List.append_nil]

/-- One list has one element more. -/
theorem all_perm (hi : i < n) (hb : ∀ j < n, j ≠ i → b' j = b j) (hx : (b' i).Perm (x :: b i)) :
    (all n b').Perm (x :: all n b) := by
  induction n with
  | zero => exact absurd hi (Nat.not_lt_zero i)
  | succ n ih =>
    rw [all_succ, all_succ]
    by_cases hn : i = n
    · subst hn
      have he : all i b' = all i b := all_congr fun j hj => hb j (Nat.lt_succ_of_lt hj) (Nat.ne_of_lt hj)
      rw [he]
      exact (hx.append_left (all i b)).trans List.perm_middle
    · have hlt : i < n := by omega
      have hlast : b' n = b n := hb n (Nat.lt_succ_self n) fun h => hn h.symm
      rw [hlast, ← List.cons_append]
      exact (ih hlt fun j hj hji => hb j (Nat.lt_succ_of_lt hj) hji).append_right (b n)

/-- Puts an element at the front of its list. -/
def put (idx : α → Nat) (b : Nat → List α) (x : α) : Nat → List α := Function.update b (idx x) (x :: b (idx x))

theorem all_put (hi : idx x < n) : (all n (put idx b x)).Perm (x :: all n b) := by
  refine all_perm hi (fun j _ hj => Function.update_of_ne hj ..) ?_
  unfold put
  rw [Function.update_self]

/-- Every element is in the list that it belongs to. -/
def Placed (idx : α → Nat) (n : Nat) (b : Nat → List α) : Prop := ∀ i < n, ∀ x ∈ b i, idx x = i

theorem Placed.put (h : Placed idx n b) : Placed idx n (put idx b x) := by
  intro i hi y hy
  unfold Buckets.put at hy
  by_cases hix : i = idx x
  · subst hix
    rw [Function.update_self, List.mem_cons] at hy
    obtain rfl | hy := hy
    · rfl
    · exact h _ hi y hy
  · rw [Function.update_of_ne hix] at hy
    exact h i hi y hy

theorem Placed.mem_iff (h : Placed idx n b) (hi : idx x < n) : x ∈ all n b ↔ x ∈ b (idx x) := by
  rw [mem_all]
  constructor
  · intro ⟨i, hi, hx⟩
    rwa [h i hi x hx]
  · exact fun hx => ⟨_, hi, hx⟩

/-- Takes an element out of the list that it is in. -/
def take [DecidableEq α] (b : Nat → List α) (x : α) (i : Nat) : List α := (b i).erase x

theorem Placed.take [DecidableEq α] (h : Placed idx n b) : Placed idx n (take b x) :=
  fun i hi y hy => h i hi y (List.mem_of_mem_erase hy)

theorem all_take [DecidableEq α] (h : Placed idx n b) (hi : idx x < n) (hx : x ∈ b (idx x)) :
    (all n b).Perm (x :: all n (take b x)) := by
  refine all_perm hi (fun j hj hji => ?_) (List.perm_cons_erase hx)
  exact (List.erase_of_not_mem fun hm => hji (h j hj x hm).symm).symm

/-- Elements put in one after the other. -/
theorem putAll (hidx : ∀ x, idx x < n) (h : Placed idx n b) :
    Placed idx n (xs.foldl (put idx) b) ∧ (all n (xs.foldl (put idx) b)).Perm (xs ++ all n b) := by
  induction xs generalizing b with
  | nil => exact ⟨h, List.Perm.refl _⟩
  | cons x xs ih =>
    obtain ⟨hp, hperm⟩ := ih h.put
    refine ⟨hp, hperm.trans ?_⟩
    exact ((all_put (hidx x)).append_left xs).trans List.perm_middle

end PintosKaist.Buckets
