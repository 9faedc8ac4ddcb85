/-
A queue in an array that is used round and round: `head` is where the next
element goes, `tail` is the oldest one, and one place stays free, so that the
two are equal only when the queue is empty.
-/
import Mathlib.Data.List.Basic
import Mathlib.Logic.Function.Basic

namespace PintosKaist.Ring

variable {α : Type*} {n head tail i : Nat} {buf : Nat → α} {x : α}

/-- The place after `pos`. -/
def next (n pos : Nat) : Nat := (pos + 1) % n

/-- How many elements the queue holds. -/
def held (n head tail : Nat) : Nat := (head + n - tail) % n

/-- The elements, the oldest first. -/
def contents (n : Nat) (buf : Nat → α) (head tail : Nat) : List α :=
  (List.range (held n head tail)).map fun i => buf ((tail + i) % n)

theorem next_eq (h : head < n) : next n head = if head + 1 = n then 0 else head + 1 := by
  unfold next
  split
  · rename_i he
    rw [he, Nat.mod_self]
  · exact Nat.mod_eq_of_lt (by omega)

theorem next_lt (h : head < n) : next n head < n := Nat.mod_lt _ (by omega)

theorem held_eq (hh : head < n) (ht : tail < n) :
    held n head tail = if tail ≤ head then head - tail else head + n - tail := by
  unfold held
  split
  · have he : head + n - tail = head - tail + n := by omega
    rw [he, Nat.add_mod_right, Nat.mod_eq_of_lt (by omega)]
  · exact Nat.mod_eq_of_lt (by omega)

theorem place_eq (ht : tail < n) (hi : i < n) : (tail + i) % n = if tail + i < n then tail + i else tail + i - n := by
  split
  · exact Nat.mod_eq_of_lt ‹_›
  · rw [Nat.mod_eq_sub_mod (by omega)]
    exact Nat.mod_eq_of_lt (by omega)

theorem held_lt (tail : Nat) (hh : head < n) : held n head tail < n := Nat.mod_lt _ (by omega)

theorem length_contents : (contents n buf head tail).length = held n head tail := by
  unfold contents
  rw [List.length_map, List.length_range]

/-- Once an element is in, the queue is not empty. -/
theorem not_empty_next (ht : tail < n) (hh : head < n) (hfull : next n head ≠ tail) :
    held n (next n head) tail = held n head tail + 1 := by
  rw [held_eq (next_lt hh) ht, held_eq hh ht, next_eq hh]
  rw [next_eq hh] at hfull
  split at hfull <;> split <;> split <;> split <;> omega

/-- Once an element is out, the queue is not full. -/
theorem not_full_next (ht : tail < n) (hh : head < n) (hempty : head ≠ tail) : next n head ≠ next n tail := by
  rw [next_eq hh, next_eq ht]
  split <;> split <;> omega

theorem contents_put (ht : tail < n) (hh : head < n) (hfull : next n head ≠ tail) :
    contents n (Function.update buf head x) (next n head) tail = contents n buf head tail ++ [x] := by
  unfold contents
  rw [not_empty_next ht hh hfull, List.range_succ, List.map_append, List.map_singleton]
  have hlt := held_lt tail hh
  have hlast : (tail + held n head tail) % n = head := by
    rw [place_eq ht hlt, held_eq hh ht]
    split <;> split <;> omega
  rw [hlast, Function.update_self]
  congr 1
  refine List.map_congr_left fun i hi => ?_
  have hi' : i < held n head tail := List.mem_range.mp hi
  refine Function.update_of_ne ?_ ..
  rw [place_eq ht (by omega)]
  rw [held_eq hh ht] at hi'
  split at hi' <;> split <;> omega

theorem contents_get (ht : tail < n) (hh : head < n) (hempty : head ≠ tail) :
    contents n buf head tail = buf tail :: contents n buf head (next n tail) := by
  have hsucc : held n head tail = held n head (next n tail) + 1 := by
    rw [held_eq hh ht, held_eq hh (next_lt ht), next_eq ht]
    split <;> split <;> split <;> omega
  have hlt := held_lt (next n tail) hh
  unfold contents
  rw [hsucc, List.range_succ_eq_map, List.map_cons, List.map_map, Nat.add_zero, Nat.mod_eq_of_lt ht]
  congr 1
  refine List.map_congr_left fun i hi => ?_
  have hi' : i < held n head (next n tail) := List.mem_range.mp hi
  simp only [Function.comp_apply]
  congr 1
  unfold next
  rw [Nat.mod_add_mod, Nat.succ_eq_add_one]
  congr 1
  omega

end PintosKaist.Ring
