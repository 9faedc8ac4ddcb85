/-
Who owns which page table. Every table in use carries a label: its owner (the
kernel, for `base_pml4` and what hangs from it, or the process whose pml4 it
hangs from) and its level. Entries lead from a table to one of the same owner
a level down, except that entries 1 to 511 of a process's pml4 are those of
`base_pml4`: there the tree of every process runs into the kernel's.

A walk, with or without making tables, changes only tables of one owner and
free pages, and a walk that fails changes nothing in use.
-/
import PintosKaist.Threads.Mmu

namespace PintosKaist.Mmu

open Pte

inductive Owner where
  | kern
  | user (r : U64)
  deriving DecidableEq, Repr

variable {m m' : Mem} {base : U64} {roots : List U64} {own : U64 → Option (Owner × Nat)}
  {o : Owner} {n : Nat} {t va new : U64} {s : Slot} {create : Bool}

/-- `own` labels the tables in use: `base_pml4`, the pml4s in `roots`, and
what hangs from them. -/
structure Owned (m : Mem) (base : U64) (roots : List U64) (own : U64 → Option (Owner × Nat)) : Prop where
  base_label : own base = some (.kern, 4)
  root_label : ∀ r ∈ roots, own r = some (.user r, 4)
  edge : ∀ t o n i, own t = some (o, n + 2) → (t ∈ roots → i = 0) → present (m.entries t i) = true →
    own (child (m.entries t i)) = some (o, n + 1)
  zero : ∀ t o n i, own t = some (o, n + 2) → present (m.entries t i) = false → m.entries t i = 0
  copy : ∀ r ∈ roots, ∀ i, i ≠ 0 → m.entries r i = m.entries base i
  base_zero : m.entries base 0 = 0
  free : ∀ p ∈ m.pool, own p = none
  nodup : m.pool.Nodup
  aligned : ∀ p ∈ m.pool, pgOfs p = 0

/-- An entry that a walk may fill in: not one that the pml4s share. -/
def Own (base : U64) (roots : List U64) (s : Slot) : Prop :=
  (s.table ∈ roots → s.idx = 0) ∧ (s.table = base → roots = [] ∧ s.idx ≠ 0)

/-- What a walk at level `n` in the tables of `o` does, when it ends in `m'`
with the result `r`. -/
structure Walked (m : Mem) (base : U64) (roots : List U64) (own : U64 → Option (Owner × Nat)) (o : Owner)
    (n : Nat) (r : Option Slot) (m' : Mem) : Prop where
  failed : r = none → (∀ t, own t ≠ none → m'.entries t = m.entries t) ∧ m'.pool.Perm m.pool
  found : ∀ s, r = some s → ∃ own', Owned m' base roots own' ∧ own' s.table = some (o, 1) ∧
    (∀ t, own t ≠ none → own' t = own t) ∧
    ∀ t o' k, own t = some (o', k) → o' ≠ o ∨ n < k → m'.entries t = m.entries t

/-- A walk that gives up at once. -/
theorem walked_none : Walked m base roots own o n none m :=
  ⟨fun _ => ⟨fun _ _ => rfl, .refl _⟩, fun _ h => absurd h (by simp)⟩

theorem set_entries {e : U64} {i : Fin 512} :
    (m.set s e).entries t i = if t = s.table ∧ i = s.idx then e else m.entries t i := by
  simp only [Mem.set, Function.update_apply]
  by_cases ht : t = s.table
  · subst ht
    by_cases hi : i = s.idx <;> simp [hi]
  · simp [ht]

theorem set_entries_ne {e : U64} (h : t ≠ s.table) : (m.set s e).entries t = m.entries t := by
  simp only [Mem.set, Function.update_of_ne h]

theorem fill_entries_ne {e p : U64} (h : t ≠ p) : (m.fill p e).entries t = m.entries t := by
  simp only [Mem.fill, Function.update_of_ne h]

theorem get_set {e : U64} : (m.set s e).get s = e := by
  rw [Mem.get, set_entries, if_pos ⟨rfl, rfl⟩]

/-- What `palloc_get_page` does. -/
theorem pallocGetPage_eq_some : pallocGetPage m = some (new, m') ↔
    ∃ ps, m.pool = new :: ps ∧ Mem.fill { m with pool := ps } new 0 = m' := by
  unfold pallocGetPage
  split
  · simp_all
  · rename_i p ps hp
    simp only [Option.some.injEq, Prod.mk.injEq, hp, List.cons.injEq]
    exact ⟨fun ⟨h, h'⟩ => ⟨ps, ⟨h, rfl⟩, h ▸ h'⟩, fun ⟨_, ⟨h, h'⟩, h''⟩ => ⟨h, by subst h h'; exact h''⟩⟩

theorem Owned.not_root (w : Owned m base roots own) (h : own t = some (o, n)) (hn : n ≠ 4) : t ∉ roots := by
  intro hr
  rw [w.root_label t hr] at h
  cases h
  exact hn rfl

theorem Owned.not_base (w : Owned m base roots own) (h : own t = some (o, n)) (hn : n ≠ 4) : t ≠ base := by
  rintro rfl
  rw [w.base_label] at h
  cases h
  exact hn rfl

theorem Owned.base_not_root (w : Owned m base roots own) : base ∉ roots := by
  intro h
  have := w.root_label base h
  rw [w.base_label] at this
  cases this

/-- Below the top level every entry is the owner's own. -/
theorem Owned.own_of_low (w : Owned m base roots own) (h : own s.table = some (o, n)) (hn : n ≠ 4) :
    Own base roots s :=
  ⟨fun hr => absurd hr (w.not_root h hn), fun hb => absurd hb (w.not_base h hn)⟩

/-- Entries of page tables proper lead to pages, not to tables. -/
theorem Owned.set_leaf {e : U64} (w : Owned m base roots own) (h : own s.table = some (o, 1)) :
    Owned (m.set s e) base roots own := by
  have hne {t o n} (ht : own t = some (o, n + 2)) : t ≠ s.table := by
    rintro rfl
    rw [h] at ht
    cases ht
  have hroot {r} (hr : r ∈ roots) : r ≠ s.table := hne (w.root_label r hr)
  have hbase : base ≠ s.table := hne w.base_label
  refine ⟨w.base_label, w.root_label, fun t o n i ht => ?_, fun t o n i ht => ?_, fun r hr i hi => ?_, ?_,
    w.free, w.nodup, w.aligned⟩
  · rw [set_entries_ne (hne ht)]
    exact w.edge t o n i ht
  · rw [set_entries_ne (hne ht)]
    exact w.zero t o n i ht
  · rw [set_entries_ne (hroot hr), set_entries_ne hbase]
    exact w.copy r hr i hi
  · rw [set_entries_ne hbase]
    exact w.base_zero

/-- The tables in use are as they were. -/
theorem Owned.same (w : Owned m base roots own) (he : ∀ t, own t ≠ none → m'.entries t = m.entries t)
    (hp : m'.pool.Perm m.pool) : Owned m' base roots own := by
  have hlab {t l} (h : own t = some l) : m'.entries t = m.entries t := he t (by simp [h])
  refine ⟨w.base_label, w.root_label, fun t o n i ht => ?_, fun t o n i ht => ?_, fun r hr i hi => ?_, ?_,
    fun p h => w.free p (hp.mem_iff.mp h), hp.nodup_iff.mpr w.nodup, fun p h => w.aligned p (hp.mem_iff.mp h)⟩
  · rw [hlab ht]
    exact w.edge t o n i ht
  · rw [hlab ht]
    exact w.zero t o n i ht
  · rw [hlab (w.root_label r hr), hlab w.base_label]
    exact w.copy r hr i hi
  · rw [hlab w.base_label]
    exact w.base_zero

/-- A new table is hung from the entry `s`. -/
theorem Owned.grow {ps : List U64} (w : Owned m base roots own) (hp : m.pool = new :: ps)
    (hs : own s.table = some (o, n + 2)) (hown : Own base roots s) :
    Owned ((Mem.fill { m with pool := ps } new 0).set s (tableEntry new)) base roots
      (Function.update own new (some (o, n + 1))) := by
  set m₂ := (Mem.fill { m with pool := ps } new 0).set s (tableEntry new) with hm₂
  have hnew : own new = none := w.free new (by simp [hp])
  have hal : pgOfs new = 0 := w.aligned new (by simp [hp])
  obtain ⟨hnot, hnd⟩ := List.nodup_cons.mp (hp ▸ w.nodup)
  have hne {t l} (h : own t = some l) : t ≠ new := by
    rintro rfl
    rw [hnew] at h
    cases h
  have hlab {t l} (h : own t = some l) : Function.update own new (some (o, n + 1)) t = some l := by
    rw [Function.update_of_ne (hne h), h]
  -- the entries of a table that was in use
  have hent {t i l} (h : own t = some l) :
      m₂.entries t i = if t = s.table ∧ i = s.idx then tableEntry new else m.entries t i := by
    rw [hm₂, set_entries, fill_entries_ne (hne h)]
  have hzero (i) : m₂.entries new i = 0 := by
    have hsn : new ≠ s.table := fun he => hne hs he.symm
    rw [hm₂, set_entries_ne hsn]
    simp only [Mem.fill, Function.update_self]
  refine ⟨hlab w.base_label, fun r hr => hlab (w.root_label r hr), fun t o' k i ht hi hpr => ?_,
    fun t o' k i ht hpr => ?_, fun r hr i hi => ?_, ?_, fun p h => ?_, hnd, fun p h => ?_⟩
  · by_cases htn : t = new
    · rw [htn, hzero] at hpr
      cases hpr
    · rw [Function.update_of_ne htn] at ht
      rw [hent ht] at hpr ⊢
      split
      · rename_i hc
        rw [hc.1] at ht
        rw [hs] at ht
        cases ht
        rw [child_tableEntry hal, Function.update_self]
      · rename_i hc
        rw [if_neg hc] at hpr
        exact hlab (w.edge t o' k i ht hi hpr)
  · by_cases htn : t = new
    · rw [htn, hzero]
    · rw [Function.update_of_ne htn] at ht
      rw [hent ht] at hpr ⊢
      split
      · rename_i hc
        rw [if_pos hc, present_tableEntry] at hpr
        cases hpr
      · rename_i hc
        rw [if_neg hc] at hpr
        exact w.zero t o' k i ht hpr
  · rw [hent (w.root_label r hr), hent w.base_label, if_neg, if_neg]
    · exact w.copy r hr i hi
    · rintro ⟨hb, -⟩
      rw [(hown.2 hb.symm).1] at hr
      cases hr
    · rintro ⟨rfl, rfl⟩
      exact hi (hown.1 hr)
  · rw [hent w.base_label, if_neg]
    · exact w.base_zero
    · rintro ⟨hb, hi⟩
      exact (hown.2 hb.symm).2 hi.symm
  · have hpn : p ≠ new := fun he => hnot (he ▸ h)
    rw [Function.update_of_ne hpn]
    exact w.free p (by rw [hp]; exact List.mem_cons_of_mem _ h)
  · exact w.aligned p (by rw [hp]; exact List.mem_cons_of_mem _ h)

/-- Tables other than `s` are left alone when a table is hung from `s`. -/
theorem grow_entries {ps : List U64} (w : Owned m base roots own) (hp : m.pool = new :: ps)
    (ht : own t ≠ none) (hs : t ≠ s.table) :
    ((Mem.fill { m with pool := ps } new 0).set s (tableEntry new)).entries t = m.entries t := by
  have hn : t ≠ new := fun he => ht (he ▸ w.free new (by simp [hp]))
  rw [set_entries_ne hs, fill_entries_ne hn]

theorem pgdirWalk_walked (w : Owned m base roots own) (ht : own t = some (o, 2)) :
    Walked m base roots own o 2 (pgdirWalk m t va create).1 (pgdirWalk m t va create).2 := by
  have hs : own (Slot.mk t (pdx va)).table = some (o, 0 + 2) := ht
  simp only [pgdirWalk]
  split
  · rename_i hpr
    refine ⟨fun h => absurd h (by simp), fun s hs' => ?_⟩
    obtain rfl := Option.some.inj hs'
    exact ⟨own, w, w.edge t o 0 _ ht (fun hr => absurd hr (w.not_root ht (by simp))) hpr, fun _ _ => rfl,
      fun _ _ _ _ _ => rfl⟩
  · split
    · split
      · exact walked_none
      · rename_i new m₁ hpal
        obtain ⟨ps, hp, rfl⟩ := pallocGetPage_eq_some.mp hpal
        have hal : pgOfs new = 0 := w.aligned new (by simp [hp])
        have hnew : own new = none := w.free new (by simp [hp])
        refine ⟨fun h => absurd h (by simp), fun s hs' => ?_⟩
        obtain rfl := Option.some.inj hs'
        refine ⟨_, w.grow hp hs (w.own_of_low hs (by simp)), ?_, fun u hu => ?_, fun u o' k hu hk => ?_⟩
        · rw [get_set, child_tableEntry hal, Function.update_self]
        · have hun : u ≠ new := fun he => hu (he ▸ hnew)
          exact Function.update_of_ne hun _ _
        · refine grow_entries w hp (by simp [hu]) fun he => ?_
          rw [he, hs] at hu
          cases hu
          simp at hk
    · exact walked_none

/-- **One level of a walk.** What the walk of the table below does, the walk
through `s` does, one level up. -/
theorem walkVia_walked {next : Mem → U64 → Option Slot × Mem} (w : Owned m base roots own)
    (hs : own s.table = some (o, n + 2)) (hown : Own base roots s)
    (hnext : ∀ m own t, Owned m base roots own → own t = some (o, n + 1) →
      Walked m base roots own o (n + 1) (next m t).1 (next m t).2) :
    Walked m base roots own o (n + 2) (walkVia next m s create).1 (walkVia next m s create).2 := by
  simp only [walkVia]
  split
  · rename_i hpr
    obtain ⟨hf, hw⟩ := hnext m own _ w (w.edge _ o n _ hs hown.1 hpr)
    refine ⟨hf, fun pte h => ?_⟩
    obtain ⟨own', w', hl, hk, hfr⟩ := hw pte h
    exact ⟨own', w', hl, hk, fun u o' k hu hc => hfr u o' k hu (hc.imp_right fun h => by omega)⟩
  · rename_i hpr
    split
    · split
      · exact walked_none
      · rename_i new m₁ hpal
        obtain ⟨ps, hp, rfl⟩ := pallocGetPage_eq_some.mp hpal
        have hal : pgOfs new = 0 := w.aligned new (by simp [hp])
        have hnew : own new = none := w.free new (by simp [hp])
        have hun {u} (hu : own u ≠ none) : u ≠ new := fun he => hu (he ▸ hnew)
        have hkeep {u} (hu : own u ≠ none) : Function.update own new (some (o, n + 1)) u = own u :=
          Function.update_of_ne (hun hu) _ _
        have w₂ := w.grow hp hs hown
        set m₂ := (Mem.fill { m with pool := ps } new 0).set s (tableEntry new) with hm₂
        have hget : m₂.get s = tableEntry new := get_set
        rw [hget, child_tableEntry hal]
        obtain ⟨hfail, hfound⟩ := hnext m₂ _ new w₂ (Function.update_self _ _ _)
        split
        · rename_i pte m₃ hn
          rw [hn] at hfound
          refine ⟨fun h => absurd h (by simp), fun pte' h => ?_⟩
          obtain ⟨own', w', hl, hk, hf⟩ := hfound pte' h
          refine ⟨own', w', hl, fun u hu => ?_, fun u o' k hu hc => ?_⟩
          · rw [hk u (by rw [hkeep hu]; exact hu), hkeep hu]
          · have hu' : own u ≠ none := by simp [hu]
            have hus : u ≠ s.table := by
              rintro rfl
              rw [hs] at hu
              cases hu
              simp at hc
            rw [hf u o' k (by rw [hkeep hu', hu]) (hc.imp_right fun h => by omega)]
            exact grow_entries w hp hu' hus
        · -- the new table goes back to the pool, and the entry is zero again
          rename_i m₃ hn
          rw [hn] at hfail
          obtain ⟨he, hpool⟩ := hfail rfl
          have hsl : own s.table ≠ none := by simp [hs]
          have hchild : child (m₃.get s) = new := by
            rw [Mem.get, he _ (by rw [hkeep hsl]; exact hsl)]
            exact (congrArg child hget).trans (child_tableEntry hal)
          rw [hchild]
          refine ⟨fun _ => ⟨fun u hu => ?_, ?_⟩, fun _ h => absurd h (by simp)⟩
          · funext i
            rw [set_entries]
            split
            · rename_i hc
              have hz := w.zero _ o n s.idx hs (by simpa [Mem.get] using hpr)
              rw [hc.1, hc.2, hz]
            · rename_i hc
              rw [pallocFreePage, fill_entries_ne (hun hu)]
              show m₃.entries u i = _
              rw [he u (by rw [hkeep hu]; exact hu), hm₂, set_entries, if_neg hc, fill_entries_ne (hun hu)]
          · show (List.orderedInsert _ new m₃.pool).Perm m.pool
            have hps : m₃.pool.Perm ps := hpool
            rw [hp]
            exact (List.perm_orderedInsert _ new m₃.pool).trans (hps.cons new)
    · exact walked_none

theorem pdpeWalk_walked (w : Owned m base roots own) (ht : own t = some (o, 3)) :
    Walked m base roots own o 3 (pdpeWalk m t va create).1 (pdpeWalk m t va create).2 :=
  walkVia_walked (n := 1) w ht (w.own_of_low (s := ⟨t, _⟩) ht (by simp)) fun _ _ _ w ht => pgdirWalk_walked w ht

theorem pml4eWalk_walked (create : Bool) (va : U64) (w : Owned m base roots own) (ht : own t = some (o, 4))
    (hown : Own base roots ⟨t, pml4 va⟩) :
    Walked m base roots own o 4 (pml4eWalk m t va create).1 (pml4eWalk m t va create).2 :=
  walkVia_walked (n := 2) w ht hown fun _ _ _ w ht => pdpeWalk_walked w ht

end PintosKaist.Mmu
