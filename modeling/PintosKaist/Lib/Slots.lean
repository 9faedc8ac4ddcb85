/-
A finite map in a table of slots: a slot is free or has a key and its value,
and no key has two slots. A key is put in any free slot and taken out by
freeing its slot, so the order of the slots means nothing.
-/
import Mathlib.Data.Finmap
import Mathlib.Data.List.Nodup

namespace PintosKaist.Slots

variable {K V : Type*} {n i j : Nat} {t t' : Nat → Option (K × V)} {m : Finmap fun _ : K => V} {x : K} {v : V}

/-- The first `n` slots of `t` hold the map `m`. -/
structure Holds (n : Nat) (t : Nat → Option (K × V)) (m : Finmap fun _ : K => V) [DecidableEq K] : Prop where
  entry : ∀ i < n, ∀ x v, t i = some (x, v) → m.lookup x = some v
  found : ∀ x v, m.lookup x = some v → ∃ i < n, t i = some (x, v)
  unique : ∀ i < n, ∀ j < n, ∀ x v w, t i = some (x, v) → t j = some (x, w) → i = j

/-- The first slot with the key. -/
def find (n : Nat) (t : Nat → Option (K × V)) (x : K) [DecidableEq K] : Option Nat :=
  (List.range n).find? fun i => (t i).any fun e => e.1 = x

/-- The keys, slot by slot. -/
def keys (n : Nat) (t : Nat → Option (K × V)) : List K := (List.range n).filterMap fun i => (t i).map Prod.fst

variable [DecidableEq K]

theorem holds_empty (h : ∀ i < n, t i = none) : Holds n t ∅ where
  entry i hi x v hx := nomatch (h i hi).symm.trans hx
  found x v hx := by
    rw [Finmap.lookup_empty] at hx
    cases hx
  unique i hi _ _ x v _ hx _ := nomatch (h i hi).symm.trans hx

theorem Holds.congr (h : Holds n t m) (ht : ∀ i < n, t' i = t i) : Holds n t' m where
  entry i hi x v hx := h.entry i hi x v ((ht i hi).symm.trans hx)
  found x v hx := by
    obtain ⟨i, hi, he⟩ := h.found x v hx
    exact ⟨i, hi, (ht i hi).trans he⟩
  unique i hi j hj x v w hx hy := h.unique i hi j hj x v w ((ht i hi).symm.trans hx) ((ht j hj).symm.trans hy)

theorem find_some (h : find n t x = some i) : i < n ∧ ∃ v, t i = some (x, v) := by
  unfold find at h
  refine ⟨List.mem_range.mp (List.mem_of_find?_eq_some h), ?_⟩
  have hany := List.find?_some h
  obtain ⟨⟨y, v⟩, he, hy⟩ := (Option.any_eq_true _ _).mp hany
  obtain rfl : y = x := by simpa using hy
  exact ⟨v, he⟩

theorem Holds.find_eq_some (h : Holds n t m) (hf : find n t x = some i) :
    i < n ∧ ∃ v, t i = some (x, v) ∧ m.lookup x = some v := by
  obtain ⟨hi, v, he⟩ := find_some hf
  exact ⟨hi, v, he, h.entry i hi x v he⟩

theorem Holds.find_eq_none (h : Holds n t m) (hf : find n t x = none) : x ∉ m := by
  intro hx
  obtain ⟨v, hv⟩ := Finmap.mem_iff.mp hx
  obtain ⟨i, hi, he⟩ := h.found x v hv
  have hnot := List.find?_eq_none.mp hf i (List.mem_range.mpr hi)
  rw [he] at hnot
  simp at hnot

theorem Holds.find_isSome (h : Holds n t m) : (find n t x).isSome = true ↔ x ∈ m := by
  cases hf : find n t x with
  | none => simpa using h.find_eq_none hf
  | some i =>
    obtain ⟨-, v, -, hv⟩ := h.find_eq_some hf
    simpa using Finmap.mem_iff.mpr ⟨v, hv⟩

/-- A new key in a free slot. -/
theorem Holds.insert (h : Holds n t m) (hx : x ∉ m) (hi : i < n) (ht : t' i = some (x, v))
    (hfree : t i = none) (hothers : ∀ j < n, j ≠ i → t' j = t j) : Holds n t' (m.insert x v) := by
  have hne : ∀ j < n, ∀ y w, t j = some (y, w) → y ≠ x := by
    rintro j hj y w he rfl
    exact hx (Finmap.mem_iff.mpr ⟨w, h.entry j hj y w he⟩)
  have hold : ∀ j < n, ∀ y w, t' j = some (y, w) → (j = i ∧ y = x ∧ w = v) ∨ t j = some (y, w) := by
    intro j hj y w he
    by_cases hji : j = i
    · rw [hji, ht] at he
      obtain ⟨rfl, rfl⟩ := Prod.mk.inj (Option.some.inj he)
      exact .inl ⟨hji, rfl, rfl⟩
    · exact .inr ((hothers j hj hji).symm.trans he)
  refine ⟨fun j hj y w he => ?_, fun y w hy => ?_, fun j hj k hk y v₁ v₂ hjy hky => ?_⟩
  · obtain ⟨-, rfl, rfl⟩ | he := hold j hj y w he
    · exact Finmap.lookup_insert m
    · rw [Finmap.lookup_insert_of_ne m (hne j hj y w he)]
      exact h.entry j hj y w he
  · by_cases hyx : y = x
    · subst hyx
      rw [Finmap.lookup_insert] at hy
      obtain rfl := Option.some.inj hy
      exact ⟨i, hi, ht⟩
    · rw [Finmap.lookup_insert_of_ne m hyx] at hy
      obtain ⟨j, hj, he⟩ := h.found y w hy
      refine ⟨j, hj, (hothers j hj ?_).trans he⟩
      rintro rfl
      cases hfree.symm.trans he
  · obtain ⟨rfl, rfl, rfl⟩ | hj' := hold j hj y v₁ hjy <;> obtain ⟨rfl, hyx, -⟩ | hk' := hold k hk y v₂ hky
    · rfl
    · exact absurd rfl (hne k hk _ _ hk')
    · exact absurd hyx (hne j hj _ _ hj')
    · exact h.unique j hj k hk y v₁ v₂ hj' hk'

/-- The slot of a key is freed. -/
theorem Holds.erase (h : Holds n t m) (hi : i < n) (hkey : t i = some (x, v)) (ht : t' i = none)
    (hothers : ∀ j < n, j ≠ i → t' j = t j) : Holds n t' (m.erase x) := by
  have hold : ∀ j < n, ∀ y w, t' j = some (y, w) → t j = some (y, w) ∧ y ≠ x := by
    intro j hj y w he
    have hji : j ≠ i := by
      rintro rfl
      cases ht.symm.trans he
    have he' : t j = some (y, w) := (hothers j hj hji).symm.trans he
    refine ⟨he', ?_⟩
    rintro rfl
    exact hji (h.unique j hj i hi y w v he' hkey)
  refine ⟨fun j hj y w he => ?_, fun y w hy => ?_, fun j hj k hk y v₁ v₂ hjy hky => ?_⟩
  · obtain ⟨he', hyx⟩ := hold j hj y w he
    rw [Finmap.lookup_erase_ne hyx]
    exact h.entry j hj y w he'
  · have hyx : y ≠ x := by
      rintro rfl
      rw [Finmap.lookup_erase] at hy
      cases hy
    rw [Finmap.lookup_erase_ne hyx] at hy
    obtain ⟨j, hj, he⟩ := h.found y w hy
    refine ⟨j, hj, (hothers j hj ?_).trans he⟩
    rintro rfl
    exact hyx (Prod.mk.inj (Option.some.inj (he.symm.trans hkey))).1
  · exact h.unique j hj k hk y v₁ v₂ (hold j hj y v₁ hjy).1 (hold k hk y v₂ hky).1

omit [DecidableEq K] in
theorem mem_slots : x ∈ keys n t ↔ ∃ i < n, ∃ v, t i = some (x, v) := by
  unfold keys
  simp only [List.mem_filterMap, List.mem_range, Option.map_eq_some_iff, Prod.exists, exists_and_right, exists_eq_right]

theorem Holds.mem_keys (h : Holds n t m) : x ∈ keys n t ↔ x ∈ m := by
  rw [mem_slots, Finmap.mem_iff]
  constructor
  · rintro ⟨i, hi, v, he⟩
    exact ⟨v, h.entry i hi x v he⟩
  · rintro ⟨v, hv⟩
    obtain ⟨i, hi, he⟩ := h.found x v hv
    exact ⟨i, hi, v, he⟩

theorem Holds.nodup_keys (h : Holds n t m) : (keys n t).Nodup := by
  unfold keys List.Nodup
  rw [List.pairwise_filterMap]
  refine List.Pairwise.imp_of_mem ?_ List.nodup_range
  rintro i j hi hj hij y hiy _ hjy rfl
  obtain ⟨⟨y₁, v₁⟩, he₁, hy₁⟩ := Option.map_eq_some_iff.mp hiy
  obtain ⟨⟨y₂, v₂⟩, he₂, rfl⟩ := Option.map_eq_some_iff.mp hjy
  obtain rfl : y₁ = y₂ := hy₁
  exact hij (h.unique i (List.mem_range.mp hi) j (List.mem_range.mp hj) _ v₁ v₂ he₁ he₂)

/-- There is room when the map has fewer keys than there are slots. -/
theorem Holds.card_lt (h : Holds n t m) : m.keys.card < n ↔ ∃ i < n, t i = none := by
  have hcard : m.keys.card = (keys n t).length := by
    rw [← List.toFinset_card_of_nodup h.nodup_keys]
    congr 1
    ext y
    rw [Finmap.mem_keys, List.mem_toFinset, h.mem_keys]
  have hlen : (keys n t).length = (List.range n).countP fun i => (t i).isSome := by
    unfold keys
    rw [List.length_filterMap_eq_countP]
    refine List.countP_congr fun i _ => ?_
    rw [Option.isSome_map]
  have hle := List.countP_le_length (p := fun i => (t i).isSome) (l := List.range n)
  have hall := List.countP_eq_length (p := fun i => (t i).isSome) (l := List.range n)
  rw [List.length_range] at hle hall
  rw [hcard, hlen]
  constructor
  · intro hlt
    by_contra hno
    refine absurd (hall.mpr fun i hi => ?_) (by omega)
    rw [Option.isSome_iff_ne_none]
    exact fun he => hno ⟨i, List.mem_range.mp hi, he⟩
  · rintro ⟨i, hi, he⟩
    refine lt_of_le_of_ne hle fun heq => ?_
    have hs := hall.mp heq i (List.mem_range.mpr hi)
    rw [he] at hs
    cases hs

end PintosKaist.Slots
