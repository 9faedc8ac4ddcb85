/-
A bitmap: bits `0, …, size - 1`, the scan that takes the lowest clear one, and
the scan for a run of clear ones. The lemmas say which bits a scan finds, that
it takes one whenever one is clear, and how the number of clear bits moves.
-/
import Mathlib.Data.Finset.Card
import Mathlib.Data.Finset.Range
import Mathlib.Logic.Function.Basic

structure Bitmap where
  size : Nat
  bit : Nat → Bool

namespace Bitmap

variable {b b' : Bitmap} {i j : Nat}

def set (b : Bitmap) (i : Nat) (v : Bool) : Bitmap := { b with bit := Function.update b.bit i v }

/-- The lowest clear bit, and the bitmap with it set. -/
def scanAndFlip (b : Bitmap) : Option (Nat × Bitmap) :=
  ((List.range b.size).find? fun i => !b.bit i).map fun i => (i, b.set i true)

/-- `cnt` bits from `i` on are set to `v`. -/
def setMultiple (b : Bitmap) (i cnt : Nat) (v : Bool) : Bitmap :=
  { b with bit := fun x => if i ≤ x ∧ x < i + cnt then v else b.bit x }

/-- `cnt` bits from `i` on are there and are set. -/
def all (b : Bitmap) (i cnt : Nat) : Bool :=
  decide (i + cnt ≤ b.size) && (List.range cnt).all fun k => b.bit (i + k)

/-- Where the lowest run of `cnt` clear bits starts. -/
def scan (b : Bitmap) (cnt : Nat) : Option Nat :=
  if cnt ≤ b.size then
    (List.range (b.size - cnt + 1)).find? fun i => (List.range cnt).all fun k => !b.bit (i + k)
  else none

/-- The `cnt` bits from `i` on are there and are `v`. -/
def Holds (b : Bitmap) (i cnt : Nat) (v : Bool) : Prop := i + cnt ≤ b.size ∧ ∀ x, i ≤ x → x < i + cnt → b.bit x = v

/-- The number of clear bits. -/
def free (b : Bitmap) : Nat := ((Finset.range b.size).filter fun i => b.bit i = false).card

@[simp] theorem set_size {v : Bool} : (b.set i v).size = b.size := rfl

@[simp] theorem set_bit_self {v : Bool} : (b.set i v).bit i = v := Function.update_self ..

theorem set_bit_ne {v : Bool} (h : j ≠ i) : (b.set i v).bit j = b.bit j := Function.update_of_ne h ..

theorem set_bit {v : Bool} : (b.set i v).bit j = if j = i then v else b.bit j := Function.update_apply ..

theorem setMultiple_bit {cnt : Nat} {v : Bool} :
    (b.setMultiple i cnt v).bit j = if i ≤ j ∧ j < i + cnt then v else b.bit j := rfl

theorem all_iff {cnt : Nat} : b.all i cnt = true ↔ i + cnt ≤ b.size ∧ ∀ x, i ≤ x → x < i + cnt → b.bit x = true := by
  simp only [all, Bool.and_eq_true, decide_eq_true_eq, List.all_eq_true, List.mem_range]
  refine and_congr_right fun _ => ⟨fun h x hi hx => ?_, fun h k hk => h (i + k) (by omega) (by omega)⟩
  have := h (x - i) (by omega)
  rwa [Nat.add_sub_cancel' hi] at this

/-- The run that is found is clear and in range. -/
theorem scan_some {cnt : Nat} (h : b.scan cnt = some i) :
    i + cnt ≤ b.size ∧ ∀ x, i ≤ x → x < i + cnt → b.bit x = false := by
  simp only [scan, Option.ite_none_right_eq_some] at h
  obtain ⟨hc, hf⟩ := h
  have hmem := List.mem_range.mp (List.mem_of_find?_eq_some hf)
  have hall := List.find?_some hf
  simp only [List.all_eq_true, List.mem_range, Bool.not_eq_true'] at hall
  refine ⟨by omega, fun x hi hx => ?_⟩
  have := hall (x - i) (by omega)
  rwa [Nat.add_sub_cancel' hi] at this

theorem scanAndFlip_some (h : b.scanAndFlip = some (i, b')) :
    i < b.size ∧ b.bit i = false ∧ b' = b.set i true := by
  simp only [scanAndFlip, Option.map_eq_some_iff, Prod.mk.injEq] at h
  obtain ⟨j, hj, rfl, rfl⟩ := h
  refine ⟨List.mem_range.mp (List.mem_of_find?_eq_some hj), ?_, rfl⟩
  simpa using List.find?_some hj

theorem scanAndFlip_none (h : b.scanAndFlip = none) : ∀ i < b.size, b.bit i = true := by
  intro i hi
  simp only [scanAndFlip, Option.map_eq_none_iff, List.find?_eq_none, List.mem_range] at h
  simpa using h i hi

theorem free_pos : 0 < b.free ↔ ∃ i < b.size, b.bit i = false := by
  simp [free, Finset.card_pos, Finset.Nonempty]

/-- With a clear bit the scan takes one. -/
theorem exists_scanAndFlip (h : 0 < b.free) : ∃ i b', b.scanAndFlip = some (i, b') := by
  obtain ⟨i, hi, hb⟩ := free_pos.mp h
  cases hs : b.scanAndFlip with
  | none => exact absurd (scanAndFlip_none hs i hi) (by simp [hb])
  | some r => exact ⟨r.1, r.2, rfl⟩

theorem free_eq_zero (h : b.scanAndFlip = none) : b.free = 0 := by
  by_contra hf
  obtain ⟨i, b', hs⟩ := exists_scanAndFlip (Nat.pos_of_ne_zero hf)
  exact absurd (h.symm.trans hs) (by simp)

/-- A scan takes one clear bit. -/
theorem free_scanAndFlip (h : b.scanAndFlip = some (i, b')) : b'.free + 1 = b.free := by
  obtain ⟨hi, hb, rfl⟩ := scanAndFlip_some h
  have hmem : i ∈ (Finset.range b.size).filter fun j => b.bit j = false := by simp [hi, hb]
  have : ((Finset.range b.size).filter fun j => (b.set i true).bit j = false) =
      ((Finset.range b.size).filter fun j => b.bit j = false).erase i := by
    ext j
    simp only [Finset.mem_filter, Finset.mem_range, Finset.mem_erase, set_bit]
    split <;> simp_all
  unfold free
  rw [set_size, this, Finset.card_erase_add_one hmem]

end Bitmap
