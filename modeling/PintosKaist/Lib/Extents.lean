/-
Sets that are handed out and taken back. Of what is in use, some has been from
the start, and the rest is in the sets that are out, each thing in one of them.
-/
import Mathlib.Data.List.Basic
import Mathlib.Data.Set.BooleanAlgebra
import Mathlib.Data.Set.Disjoint
import Mathlib.Order.CompletePartialOrder

namespace Extents

variable {α : Type*} {start used r : Set α} {out out' : List (Set α)}

/-- The sets `out` are out, and `used` is in use. -/
structure Out (start used : Set α) (out : List (Set α)) : Prop where
  apart : out.Pairwise Disjoint
  fresh : ∀ r ∈ out, Disjoint r start
  used : ∀ x, x ∈ used ↔ x ∈ start ∨ ∃ r ∈ out, x ∈ r

theorem Out.nil (start : Set α) : Out start start [] :=
  ⟨List.Pairwise.nil, fun r hr => (by cases hr), fun x => by simp⟩

/-- A set that is handed out had nothing in use. -/
theorem Out.take (h : Out start used out) (hr : Disjoint r used) : Out start (used ∪ r) (r :: out) where
  apart := by
    refine List.pairwise_cons.mpr ⟨fun q hq => ?_, h.apart⟩
    exact hr.mono_right fun x hx => (h.used x).mpr (.inr ⟨q, hq, hx⟩)
  fresh := by
    intro q hq
    obtain rfl | hq := List.mem_cons.mp hq
    · exact hr.mono_right fun x hx => (h.used x).mpr (.inl hx)
    · exact h.fresh q hq
  used x := by
    rw [Set.mem_union, h.used, or_assoc]
    refine or_congr_right ?_
    constructor
    · rintro (⟨q, hq, hx⟩ | hx)
      · exact ⟨q, List.mem_cons_of_mem _ hq, hx⟩
      · exact ⟨r, List.mem_cons_self, hx⟩
    · rintro ⟨q, hq, hx⟩
      obtain rfl | hq := List.mem_cons.mp hq
      · exact .inr hx
      · exact .inl ⟨q, hq, hx⟩

/-- A set that is taken back leaves the others. -/
theorem Out.give (h : Out start used out) (hp : out.Perm (r :: out')) : Out start (used \ r) out' := by
  have hall := (hp.pairwise_iff fun hab => Disjoint.symm hab).mp h.apart
  obtain ⟨hr, hout'⟩ := List.pairwise_cons.mp hall
  have hmem : ∀ q, q ∈ out ↔ q = r ∨ q ∈ out' := fun q => hp.mem_iff.trans List.mem_cons
  refine ⟨hout', fun q hq => h.fresh q ((hmem q).mpr (.inr hq)), fun x => ?_⟩
  rw [Set.mem_sdiff, h.used]
  constructor
  · rintro ⟨hx | ⟨q, hq, hx⟩, hxr⟩
    · exact .inl hx
    · obtain rfl | hq := (hmem q).mp hq
      · exact absurd hx hxr
      · exact .inr ⟨q, hq, hx⟩
  · rintro (hx | ⟨q, hq, hx⟩)
    · exact ⟨.inl hx, fun hxr => Set.disjoint_left.mp (h.fresh r ((hmem r).mpr (.inl rfl))) hxr hx⟩
    · exact ⟨.inr ⟨q, (hmem q).mpr (.inr hq), hx⟩, fun hxr => Set.disjoint_left.mp (hr q hq) hxr hx⟩

/-- What has come into use since the start is what is out. -/
theorem Out.since (h : Out start used out) : used \ start = {x | ∃ r ∈ out, x ∈ r} := by
  ext x
  rw [Set.mem_sdiff, h.used, Set.mem_ofPred_eq]
  constructor
  · rintro ⟨hx | hx, hno⟩
    · exact absurd hx hno
    · exact hx
  · rintro ⟨r, hr, hx⟩
    exact ⟨.inr ⟨r, hr, hx⟩, Set.disjoint_left.mp (h.fresh r hr) hx⟩

theorem Out.kept (h : Out start used out) : start ⊆ used := fun x hx => (h.used x).mpr (.inl hx)

/-- What is out is in use. -/
theorem Out.subset (h : Out start used out) (hr : r ∈ out) : r ⊆ used := fun x hx => (h.used x).mpr (.inr ⟨r, hr, hx⟩)

end Extents
