/-
Binary heaps in an array that is numbered from 1, and sorting by them.

An element that is exchanged with the greatest of its children leaves the order
broken below itself only (`But.sift`); so it floats down to where the order
holds (`But.done`). The first element of a heap is a greatest one
(`From.le_first`); put behind the others it is in its place (`Sorted.extract`).
-/
import Mathlib.Data.List.Nodup
import Mathlib.Data.List.Perm.Subperm
import Mathlib.Data.List.Range
import Mathlib.Logic.Equiv.Basic
import Mathlib.Order.Defs.Unbundled

namespace PintosKaist.BinHeap

variable {α : Type*} {R : α → α → Prop} {a a' a'' : Nat → α} {n k i m : Nat}

/-- `c` is a child of `p`. -/
def Child (p c : Nat) : Prop := c = 2 * p ∨ c = 2 * p + 1

/-- The array with two elements exchanged. -/
def swap (a : Nat → α) (i j : Nat) : Nat → α := a ∘ Equiv.swap i j

@[simp] theorem swap_left (a : Nat → α) (i j : Nat) : swap a i j i = a j := by simp [swap]

@[simp] theorem swap_right (a : Nat → α) (i j : Nat) : swap a i j j = a i := by simp [swap]

theorem swap_other {j x : Nat} (a : Nat → α) (hi : x ≠ i) (hj : x ≠ j) : swap a i j x = a x := by
  rw [swap, Function.comp_apply, Equiv.swap_apply_of_ne_of_ne hi hj]

/-! ## The order of a heap -/

/-- From `k` on, no child among the first `n` elements is greater than its
parent. -/
def From (R : α → α → Prop) (a : Nat → α) (n k : Nat) : Prop := ∀ p c, k ≤ p → c ≤ n → Child p c → R (a c) (a p)

/-- No child is, but for those of `i`, and these are not greater than the parent
of `i`. -/
structure But (R : α → α → Prop) (a : Nat → α) (n k i : Nat) : Prop where
  other : ∀ p c, k ≤ p → p ≠ i → c ≤ n → Child p c → R (a c) (a p)
  skip : ∀ p c, k ≤ p → Child p i → c ≤ n → Child i c → R (a c) (a p)

theorem from_of_lt (h : n < 2 * k) : From R a n k := by
  intro p c hk hn hc
  rcases hc with rfl | rfl <;> omega

theorem From.but (h : From R a n (k + 1)) (hk : 0 < k) : But R a n k k := by
  refine ⟨fun p c hp hne hc => h p c (by omega) hc, fun p c hp hpk => ?_⟩
  rcases hpk with hpk | hpk <;> omega

theorem But.done (h : But R a n k i) (hi : ∀ c ≤ n, Child i c → R (a c) (a i)) : From R a n k := by
  intro p c hk hn hc
  by_cases hp : p = i
  · subst hp
    exact hi c hn hc
  · exact h.other p c hk hp hn hc

/-- **One step of floating down.** -/
theorem But.sift (h : But R a n k i) (hk : k ≤ i) (hi : 0 < i) (hm : Child i m) (hn : m ≤ n) (hle : R (a i) (a m))
    (hmax : ∀ c ≤ n, Child i c → R (a c) (a m)) : But R (swap a i m) n k m := by
  have hlt {p c : Nat} (hp : 0 < p) (hc : Child p c) : p < c := by
    rcases hc with rfl | rfl <;> omega
  have hparent {p q c : Nat} (hp : Child p c) (hq : Child q c) : p = q := by
    rcases hp with rfl | rfl <;> rcases hq with hq | hq <;> omega
  have him := hlt hi hm
  constructor
  · intro p c hp hne hc hchild
    by_cases hpi : p = i
    · subst hpi
      rw [swap_left]
      by_cases hcm : c = m
      · subst hcm
        rw [swap_right]
        exact hle
      · have hpc := hlt hi hchild
        rw [swap_other a (by omega) hcm]
        exact hmax c hc hchild
    · rw [swap_other a hpi hne]
      by_cases hci : c = i
      · subst hci
        rw [swap_left]
        exact h.skip p m hp hchild hn hm
      · by_cases hcm : c = m
        · subst hcm
          exact absurd (hparent hchild hm) hpi
        · rw [swap_other a hci hcm]
          exact h.other p c hp hpi hc hchild
  · intro p c hp hpm hc hchild
    obtain rfl := hparent hpm hm
    have hmc := hlt (by omega) hchild
    rw [swap_left, swap_other a (by omega) (by omega)]
    exact h.other m c (by omega) (by omega) hc hchild

/-- The first element of a heap is a greatest one. -/
theorem From.le_first [Std.Refl R] [IsTrans α R] (h : From R a n 1) (h1 : 1 ≤ i) (hi : i ≤ n) : R (a i) (a 1) := by
  induction i using Nat.strong_induction_on with
  | h i ih =>
    by_cases hone : i = 1
    · subst hone
      exact Std.Refl.refl _
    · have hchild : Child (i / 2) i := by
        rw [Child]
        omega
      have hle := h (i / 2) i (by omega) hi hchild
      exact IsTrans.trans _ _ _ hle (ih (i / 2) (by omega) (by omega) (by omega))

/-- The last element in the place of the first leaves the order broken there
only. -/
theorem From.remove (h : From R a (n + 1) 1) : But R (swap a 1 (n + 1)) n 1 1 := by
  constructor
  · intro p c hp hne hc hchild
    have hpc : p < c := by
      rcases hchild with rfl | rfl <;> omega
    rw [swap_other a (by omega) (by omega), swap_other a hne (by omega)]
    exact h p c hp (by omega) hchild
  · intro p c hp hp1
    rcases hp1 with hp1 | hp1 <;> omega

/-! ## Rearrangements -/

/-- `a'` is `a` with the first `n` elements in another order. -/
def Rearranged (n : Nat) (a a' : Nat → α) : Prop :=
  ∃ σ : Equiv.Perm Nat, (∀ x, x = 0 ∨ n < x → σ x = x) ∧ a' = a ∘ σ

theorem Rearranged.refl (n : Nat) (a : Nat → α) : Rearranged n a a := ⟨Equiv.refl _, fun _ _ => rfl, rfl⟩

theorem Rearranged.trans (h : Rearranged n a a') (h' : Rearranged n a' a'') : Rearranged n a a'' := by
  obtain ⟨σ, hσ, rfl⟩ := h
  obtain ⟨τ, hτ, rfl⟩ := h'
  exact ⟨τ.trans σ, fun x hx => by rw [Equiv.trans_apply, hτ x hx, hσ x hx], rfl⟩

theorem Rearranged.mono (h : Rearranged n a a') (hm : n ≤ m) : Rearranged m a a' := by
  obtain ⟨σ, hσ, rfl⟩ := h
  exact ⟨σ, fun x hx => hσ x (by omega), rfl⟩

theorem rearranged_swap {j : Nat} (a : Nat → α) (hi : 0 < i) (hin : i ≤ n) (hj : 0 < j) (hjn : j ≤ n) :
    Rearranged n a (swap a i j) :=
  ⟨Equiv.swap i j, fun x hx => Equiv.swap_apply_of_ne_of_ne (by omega) (by omega), rfl⟩

/-- The elements of an array. -/
def elems (n : Nat) (a : Nat → α) : List α := (List.range' 1 n).map a

theorem Rearranged.perm (h : Rearranged n a a') : (elems n a').Perm (elems n a) := by
  obtain ⟨σ, hσ, rfl⟩ := h
  have hin {x : Nat} (hx : x ∈ List.range' 1 n) : σ x ∈ List.range' 1 n := by
    rw [List.mem_range'_1] at hx ⊢
    by_contra hout
    have hfix := hσ (σ x) (by omega)
    rw [σ.injective hfix] at hout
    omega
  have hrange : ((List.range' 1 n).map σ).Perm (List.range' 1 n) := by
    refine (List.subperm_of_subset (List.Nodup.map σ.injective List.nodup_range') ?_).perm_of_length_le (by simp)
    intro y hy
    obtain ⟨x, hx, rfl⟩ := List.mem_map.mp hy
    exact hin hx
  rw [elems, elems, ← List.map_map]
  exact hrange.map a

/-! ## Sorting -/

/-- The elements behind the first `k` are sorted, and none of these is greater. -/
def Sorted (R : α → α → Prop) (a : Nat → α) (n k : Nat) : Prop :=
  ∀ x y, 0 < x → x < y → k < y → y ≤ n → R (a x) (a y)

theorem sorted_self (R : α → α → Prop) (a : Nat → α) (n : Nat) : Sorted R a n n := fun _ _ _ _ hn hy => by omega

theorem Sorted.rearranged (h : Sorted R a n k) (hre : Rearranged k a a') : Sorted R a' n k := by
  obtain ⟨σ, hσ, rfl⟩ := hre
  intro x y hx hxy hk hy
  rw [Function.comp_apply, Function.comp_apply, hσ y (.inr hk)]
  by_cases hxk : k < x
  · rw [hσ x (.inr hxk)]
    exact h x y hx hxy hk hy
  · have hin : 0 < σ x ∧ σ x ≤ k := by
      by_contra hout
      have hfix := hσ (σ x) (by omega)
      rw [σ.injective hfix] at hout
      omega
    exact h (σ x) y hin.1 (by omega) hk hy

/-- **The first element of a heap goes behind the others.** -/
theorem Sorted.extract [Std.Refl R] [IsTrans α R] (h : Sorted R a n (k + 1)) (hheap : From R a (k + 1) 1) (hk : 0 < k) :
    Sorted R (swap a 1 (k + 1)) n k := by
  have hsorted := h.rearranged (rearranged_swap (j := k + 1) a Nat.one_pos (Nat.succ_le_succ (Nat.zero_le k))
    (Nat.succ_pos k) (Nat.le_refl _))
  intro x y hx hxy hky hy
  by_cases hlast : y = k + 1
  · subst hlast
    rw [swap_right]
    by_cases hx1 : x = 1
    · subst hx1
      rw [swap_left]
      exact hheap.le_first (by omega) (Nat.le_refl _)
    · rw [swap_other a hx1 (by omega)]
      exact hheap.le_first hx (by omega)
  · exact hsorted x y hx hxy (by omega) hy

theorem Sorted.pairwise (h : Sorted R a n k) (hk : k ≤ 1) : (elems n a).Pairwise R := by
  rw [elems, List.pairwise_map]
  refine List.Pairwise.imp_of_mem (fun {x y} hx hy hxy => ?_) List.pairwise_lt_range'
  rw [List.mem_range'_1] at hx hy
  exact h x y hx.1 hxy (by omega) (by omega)

end PintosKaist.BinHeap
