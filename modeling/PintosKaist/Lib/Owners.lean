/-
Exclusive ownership: owners hold resources, no resource is held by two of
them, and what is held is in use. The lemmas are for the moves of an allocator:
mark what nobody holds, hand it to a new owner, take it back from one that is
gone.
-/
import Mathlib.Logic.Basic

namespace Owners

variable {ι κ : Type*} {L L' : ι → Prop} {R R' : ι → κ → Prop} {U U' : κ → Prop} {n : ι}

/-- The owners `L` hold the resources `R` one at a time, out of those in use. -/
structure Exclusive (L : ι → Prop) (R : ι → κ → Prop) (U : κ → Prop) : Prop where
  unique : ∀ {n m x}, L n → L m → R n x → R m x → n = m
  used : ∀ {n x}, L n → R n x → U x

/-- Nobody holds `x`. -/
def Unowned (L : ι → Prop) (R : ι → κ → Prop) (x : κ) : Prop := ∀ n, L n → ¬ R n x

/-- What is not in use is not held. -/
theorem Exclusive.unowned {x : κ} (h : Exclusive L R U) (hx : ¬ U x) : Unowned L R x := fun _ hn hr => hx (h.used hn hr)

/-- Fewer owners that hold no more than before. -/
theorem Exclusive.mono (h : Exclusive L R U) (hL : ∀ n, L' n → L n) (hR : ∀ n x, L' n → R' n x → R n x)
    (hU : ∀ n x, L' n → R' n x → U' x) : Exclusive L' R' U' where
  unique hn hm hx hy := h.unique (hL _ hn) (hL _ hm) (hR _ _ hn hx) (hR _ _ hm hy)
  used hn hx := hU _ _ hn hx

/-- A new owner of what nobody held. -/
theorem Exclusive.add (h : Exclusive L R U) (hnew : ∀ x, R n x → Unowned L R x) (hU : ∀ x, R n x → U x) :
    Exclusive (fun m => L m ∨ m = n) R U where
  unique := by
    rintro m k x (hm | rfl) (hk | rfl) hx hy
    · exact h.unique hm hk hx hy
    · exact (hnew x hy m hm hx).elim
    · exact (hnew x hx k hk hy).elim
    · rfl
  used := by
    rintro m x (hm | rfl) hx
    · exact h.used hm hx
    · exact hU x hx

/-- What an owner that is gone held is free to be taken back. -/
theorem Exclusive.unowned_of_drop {x : κ} (h : Exclusive L R U) (hn : L n) (hx : R n x) :
    Unowned (fun m => L m ∧ m ≠ n) R x := fun _ hm hr => hm.2 (h.unique hm.1 hn hr hx)

end Owners
