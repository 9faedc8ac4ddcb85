/-
Counting the places that hold a value: a table `g` over a finite set of
places, and how many of them hold `b`. The lemmas say how the count moves
when one place is written, and when places are added or dropped.
-/
import Mathlib.Data.Finset.Card
import Mathlib.Data.Finset.Union

namespace Count

variable {ι β : Type*} [DecidableEq β] {S T : Finset ι} {g g' : ι → β} {b c : β} {i : ι}

/-- The number of places of `S` that hold `b`. -/
def count (S : Finset ι) (g : ι → β) (b : β) : Nat := (S.filter fun i => g i = b).card

theorem count_congr_iff (h : ∀ i ∈ S, g i = b ↔ g' i = b) : count S g b = count S g' b := by
  unfold count
  congr 1
  exact Finset.filter_congr h

theorem count_congr (h : ∀ i ∈ S, g i = g' i) : count S g b = count S g' b :=
  count_congr_iff fun i hi => by rw [h i hi]

theorem count_eq_zero : count S g b = 0 ↔ ∀ i ∈ S, g i ≠ b := by
  simp [count, Finset.filter_eq_empty_iff]

/-- No more places hold `b`. -/
theorem count_le (h : ∀ i ∈ T, g' i = b → i ∈ S ∧ g i = b) : count T g' b ≤ count S g b :=
  Finset.card_le_card fun i hi => Finset.mem_filter.mpr (h i (Finset.mem_filter.mp hi).1 (Finset.mem_filter.mp hi).2)

/-- One less: `i` held it. -/
theorem count_lt (h : ∀ j ∈ T, g' j = b → j ∈ S ∧ g j = b) (hi : i ∈ S) (hb : g i = b)
    (hn : i ∈ T → g' i ≠ b) : count T g' b < count S g b := by
  refine Finset.card_lt_card (Finset.ssubset_iff_of_subset (fun j hj => ?_) |>.mpr ⟨i, ?_, ?_⟩)
  · exact Finset.mem_filter.mpr (h j (Finset.mem_filter.mp hj).1 (Finset.mem_filter.mp hj).2)
  · exact Finset.mem_filter.mpr ⟨hi, hb⟩
  · exact fun hm => hn (Finset.mem_filter.mp hm).1 (Finset.mem_filter.mp hm).2

/-- At most one place holds `b`. -/
theorem count_le_one (h : ∀ j ∈ S, g j = b → j = i) : count S g b ≤ 1 :=
  Finset.card_le_one.mpr fun j hj k hk =>
    (h j (Finset.mem_filter.mp hj).1 (Finset.mem_filter.mp hj).2).trans
      (h k (Finset.mem_filter.mp hk).1 (Finset.mem_filter.mp hk).2).symm

theorem count_pos (hi : i ∈ S) (hb : g i = b) : 0 < count S g b :=
  Finset.card_pos.mpr ⟨i, Finset.mem_filter.mpr ⟨hi, hb⟩⟩

/-- The only place that holds `b`. -/
theorem eq_of_count_le_one {j : ι} (h : count S g b ≤ 1) (hi : i ∈ S) (hb : g i = b) (hj : j ∈ S) (hb' : g j = b) :
    i = j :=
  Finset.card_le_one.mp h i (Finset.mem_filter.mpr ⟨hi, hb⟩) j (Finset.mem_filter.mpr ⟨hj, hb'⟩)

variable [DecidableEq ι]

theorem count_insert (hi : i ∉ S) : count (insert i S) g b = count S g b + if g i = b then 1 else 0 := by
  unfold count
  rw [Finset.filter_insert]
  split
  · rw [Finset.card_insert_of_notMem (by simp [hi])]
  · simp

/-- Writing `c` at a place of `S`: the count of what was there goes down by
one, that of `c` goes up by one. -/
theorem count_update (hi : i ∈ S) :
    count S (Function.update g i c) b + (if g i = b then 1 else 0) =
      count S g b + if c = b then 1 else 0 := by
  have hn : i ∉ S.erase i := Finset.notMem_erase i S
  have hrest : count (S.erase i) (Function.update g i c) b = count (S.erase i) g b :=
    count_congr fun j hj => by rw [Function.update_of_ne (Finset.ne_of_mem_erase hj)]
  rw [← Finset.insert_erase hi, count_insert hn, count_insert hn, hrest, Function.update_self]
  omega

end Count
