/-
Whether the page tables of two processes are separate.

`KERN_BASE` is `0x8004000000`, a little into the second of the 512 regions that
a pml4 divides the address space into, and `pml4_create` copies the entries of
`base_pml4`. So the region from 2^39 to `KERN_BASE`, which `is_user_vaddr`
admits, is in every process the one of the kernel: a page set there by one
process is seen by all. Below 2^39 the tables are each process's own.
-/
import PintosKaist.Threads.MmuOwn

namespace PintosKaist.Mmu

open Pte

variable {m m' : Mem} {base : U64} {roots : List U64} {own : U64 → Option (Owner × Nat)}
  {o : Owner} {t p q va upage : U64} {s : State}

/-! ## Looking up -/

/-- The entry of a page table proper that a walk without `create` finds. -/
def lookup (m : Mem) (t va : U64) : Option Slot := (pml4eWalk m t va false).1

theorem pgdirWalk_false : pgdirWalk m t va false =
    (if present (m.entries t (pdx va)) then some ⟨child (m.entries t (pdx va)), ptx va⟩ else none, m) := by
  unfold pgdirWalk Mem.get
  by_cases h : present (m.entries t (pdx va)) = true
  · simp only [if_pos h]
  · simp only [if_neg h, Bool.false_eq_true, if_false]

theorem walkVia_present {next : Mem → U64 → Option Slot × Mem} {sl : Slot} {create : Bool}
    (h : present (m.get sl) = true) : walkVia next m sl create = next m (child (m.get sl)) := by
  unfold walkVia
  rw [if_pos h]

theorem walkVia_absent {next : Mem → U64 → Option Slot × Mem} {sl : Slot}
    (h : ¬ present (m.get sl) = true) : walkVia next m sl false = (none, m) := by
  unfold walkVia
  rw [if_neg h, if_neg Bool.false_ne_true]

theorem pdpeWalk_false : (pdpeWalk m t va false).1 = if present (m.entries t (pdpe va)) then
    (pgdirWalk m (child (m.entries t (pdpe va))) va false).1 else none := by
  unfold pdpeWalk
  by_cases h : present (m.get ⟨t, pdpe va⟩) = true
  · rw [walkVia_present h]
    exact (if_pos h).symm
  · rw [walkVia_absent h]
    exact (if_neg h).symm

theorem lookup_eq : lookup m t va = if present (m.entries t (pml4 va)) then
    (pdpeWalk m (child (m.entries t (pml4 va))) va false).1 else none := by
  unfold lookup pml4eWalk
  by_cases h : present (m.get ⟨t, pml4 va⟩) = true
  · rw [walkVia_present h]
    exact (if_pos h).symm
  · rw [walkVia_absent h]
    exact (if_neg h).symm

/-- A lookup from a table reads tables of its owner only. -/
theorem pdpeWalk_congr (w : Owned m base roots own) (ht : own t = some (o, 3))
    (he : ∀ t k, own t = some (o, k) → m'.entries t = m.entries t) :
    (pdpeWalk m' t va false).1 = (pdpeWalk m t va false).1 := by
  have hroot {t n} (h : own t = some (o, n)) (hn : n ≠ 4) (i : Fin 512) : t ∈ roots → i = 0 :=
    fun hr => absurd hr (w.not_root h hn)
  rw [pdpeWalk_false, pdpeWalk_false, he t 3 ht]
  by_cases h3 : present (m.entries t (pdpe va)) = true
  · have h2 := w.edge t o 1 _ ht (hroot ht (by simp) _) h3
    simp only [if_pos h3, pgdirWalk_false, he _ 2 h2]
  · simp only [if_neg h3]

theorem pdpeWalk_label (w : Owned m base roots own) (ht : own t = some (o, 3)) {sl : Slot}
    (h : (pdpeWalk m t va false).1 = some sl) : own sl.table = some (o, 1) := by
  have hroot {t n} (h : own t = some (o, n)) (hn : n ≠ 4) (i : Fin 512) : t ∈ roots → i = 0 :=
    fun hr => absurd hr (w.not_root h hn)
  rw [pdpeWalk_false] at h
  simp only [pgdirWalk_false, Option.ite_none_right_eq_some, Option.some.injEq] at h
  obtain ⟨h3, h2, rfl⟩ := h
  have hl := w.edge t o 1 _ ht (hroot ht (by simp) _) h3
  exact w.edge _ o 0 _ hl (hroot hl (by simp) _) h2

/-- A process's pml4 leads to its own tables below 2^39 and to the kernel's
above. -/
theorem root_edge (w : Owned m base roots own) (hq : q ∈ roots) {i : Fin 512}
    (h : present (m.entries q i) = true) :
    own (child (m.entries q i)) = some (if i = 0 then .user q else .kern, 3) := by
  by_cases hi : i = 0
  · rw [if_pos hi]
    exact w.edge q _ 2 i (w.root_label q hq) (fun _ => hi) h
  · rw [if_neg hi]
    rw [w.copy q hq i hi] at h ⊢
    exact w.edge base _ 2 i w.base_label (fun hb => absurd hb w.base_not_root) h

/-- What a process sees depends on its own tables and the kernel's. -/
theorem pml4GetPage_congr (w : Owned m base roots own) (hq : q ∈ roots)
    (he : ∀ t o k, own t = some (o, k) → o = .user q ∨ o = .kern → m'.entries t = m.entries t) :
    pml4GetPage m' q va = pml4GetPage m q va := by
  have hroot := he q _ _ (w.root_label q hq) (.inl rfl)
  have hl : lookup m' q va = lookup m q va := by
    rw [lookup_eq, lookup_eq, hroot]
    by_cases h4 : present (m.entries q (pml4 va)) = true
    · rw [if_pos h4, if_pos h4]
      refine pdpeWalk_congr w (root_edge w hq h4) fun t k ht => he t _ k ht ?_
      by_cases hi : pml4 va = 0 <;> simp [hi]
    · rw [if_neg h4, if_neg h4]
  unfold pml4GetPage
  rw [show (pml4eWalk m' q va false).1 = (pml4eWalk m q va false).1 from hl]
  cases hc : (pml4eWalk m q va false).1 with
  | none => rfl
  | some sl =>
    replace hc : lookup m q va = some sl := hc
    rw [lookup_eq, Option.ite_none_right_eq_some] at hc
    obtain ⟨h4, hc⟩ := hc
    have hsl := pdpeWalk_label w (root_edge w hq h4) hc
    have : m'.get sl = m.get sl := by
      rw [Mem.get, Mem.get, he _ _ _ hsl]
      by_cases hi : pml4 va = 0 <;> simp [hi]
    simp only [this]

/-! ## The invariant -/

/-- The tables are labelled, and the top of the kernel's is there: `KERN_BASE`
is in use. -/
structure Wf (s : State) (own : U64 → Option (Owner × Nat)) : Prop where
  owned : Owned s.mem s.base s.pml4s own
  kern4 : present (s.mem.entries s.base 1) = true
  kern3 : present (s.mem.entries (child (s.mem.entries s.base 1)) (pdpe kernBase)) = true

theorem Wf.kern_label (w : Wf s own) : own (child (s.mem.entries s.base 1)) = some (.kern, 3) :=
  w.owned.edge s.base _ 2 1 w.owned.base_label (fun hb => absurd hb w.owned.base_not_root) w.kern4

/-- The kernel's part stays as long as its upper tables do. -/
theorem Wf.keep {own' : U64 → Option (Owner × Nat)} {s' : State} (w : Wf s own)
    (w' : Owned s'.mem s'.base s'.pml4s own') (hb : s'.base = s.base)
    (he : ∀ t, own t = some (.kern, 4) ∨ own t = some (.kern, 3) → s'.mem.entries t = s.mem.entries t) :
    Wf s' own' := by
  have h4 := he _ (.inl w.owned.base_label)
  refine ⟨w', ?_, ?_⟩
  · rw [hb, h4]
    exact w.kern4
  · rw [hb, h4, he _ (.inr w.kern_label)]
    exact w.kern3

/-- Where a walk for an address of the shared region goes, from any process's
pml4: to the kernel's tables, with nothing to be made above the last level. -/
theorem Wf.walk_shared (create : Bool) (w : Wf s own) (hp : p ∈ s.pml4s) (hu : isUserVaddr upage)
    (h1 : pml4 upage = 1) : pml4eWalk s.mem p upage create =
      pgdirWalk s.mem (child (s.mem.entries (child (s.mem.entries s.base 1)) (pdpe kernBase))) upage create := by
  have hcopy : s.mem.entries p 1 = s.mem.entries s.base 1 := w.owned.copy p hp 1 (by decide)
  have h4 : s.mem.get ⟨p, pml4 upage⟩ = s.mem.entries s.base 1 := by rw [Mem.get, h1, hcopy]
  have h3 : s.mem.get ⟨child (s.mem.entries s.base 1), pdpe upage⟩ =
      s.mem.entries (child (s.mem.entries s.base 1)) (pdpe kernBase) := by rw [Mem.get, pdpe_user hu h1]
  unfold pml4eWalk
  rw [walkVia_present (by rw [h4]; exact w.kern4), h4]
  unfold pdpeWalk
  rw [walkVia_present (by rw [h3]; exact w.kern3), h3]

/-- The owner of the tables that a walk for `upage` in process `p` goes
through, and the level below which it can change them. -/
def walkOwner (p upage : U64) : Owner := if pml4 upage = 0 then .user p else .kern
def walkLevel (upage : U64) : Nat := if pml4 upage = 0 then 4 else 2

theorem Wf.walked (create : Bool) (w : Wf s own) (hp : p ∈ s.pml4s) (hu : isUserVaddr upage) :
    Walked s.mem s.base s.pml4s own (walkOwner p upage) (walkLevel upage)
      (pml4eWalk s.mem p upage create).1 (pml4eWalk s.mem p upage create).2 := by
  have hlabel := w.owned.root_label p hp
  by_cases h0 : pml4 upage = 0
  · rw [walkOwner, walkLevel, if_pos h0, if_pos h0]
    refine pml4eWalk_walked _ _ w.owned hlabel ⟨fun _ => h0, fun hb => ?_⟩
    rw [show p = s.base from hb, w.owned.base_label] at hlabel
    cases hlabel
  · have h1 : pml4 upage = 1 := (pml4_user hu).resolve_left h0
    rw [walkOwner, walkLevel, if_neg h0, if_neg h0, w.walk_shared _ hp hu h1]
    refine pgdirWalk_walked w.owned (w.owned.edge _ _ 1 _ w.kern_label (fun hr => ?_) w.kern3)
    exact absurd hr (w.owned.not_root w.kern_label (by simp))

/-- What is left after a walk, and a store to the entry it found, if it found
one: the tables of other owners, and the upper ones of this one, unchanged. -/
structure Stored (s s' : State) (own own' : U64 → Option (Owner × Nat)) (o : Owner) (n : Nat) : Prop where
  wf : Wf s' own'
  keep : ∀ t, own t ≠ none → own' t = own t
  frame : ∀ t o' k, own t = some (o', k) → o' ≠ o ∨ n < k → s'.mem.entries t = s.mem.entries t

theorem Wf.stored (create : Bool) (e : U64) (w : Wf s own) (hp : p ∈ s.pml4s) (hu : isUserVaddr upage)
    (hm : m' = match (pml4eWalk s.mem p upage create).1 with
      | none => (pml4eWalk s.mem p upage create).2
      | some sl => (pml4eWalk s.mem p upage create).2.set sl e) :
    ∃ own', Stored s { s with mem := m' } own own' (walkOwner p upage) (walkLevel upage) := by
  have hlevel : 2 ≤ walkLevel upage := by
    unfold walkLevel
    split <;> omega
  have hkern {t k} (hk : own t = some (.kern, k)) (h3 : 3 ≤ k) :
      Owner.kern ≠ walkOwner p upage ∨ walkLevel upage < k := by
    unfold walkOwner walkLevel
    by_cases h0 : pml4 upage = 0
    · simp [h0]
    · simp [h0]
      omega
  obtain ⟨hfail, hfound⟩ := w.walked create hp hu
  cases hr : (pml4eWalk s.mem p upage create).1 with
  | none =>
    obtain ⟨he, hpool⟩ := hfail hr
    rw [hr] at hm
    have hm' : m' = (pml4eWalk s.mem p upage create).2 := hm
    subst hm'
    have hent {t l} (h : own t = some l) : (pml4eWalk s.mem p upage create).2.entries t = s.mem.entries t :=
      he t (by simp [h])
    refine ⟨own, ⟨w.keep (w.owned.same he hpool) rfl fun t ht => ?_, fun _ _ => rfl, fun t o' k ht _ => hent ht⟩⟩
    rcases ht with ht | ht
    · exact hent ht
    · exact hent ht
  | some sl =>
    obtain ⟨own', w', hl, hk, hf⟩ := hfound sl hr
    rw [hr] at hm
    have hm' : m' = (pml4eWalk s.mem p upage create).2.set sl e := hm
    subst hm'
    have hframe : ∀ t o' k, own t = some (o', k) → o' ≠ walkOwner p upage ∨ walkLevel upage < k →
        ((pml4eWalk s.mem p upage create).2.set sl e).entries t = s.mem.entries t := by
      intro t o' k ht hc
      have hne : t ≠ sl.table := by
        rintro rfl
        rw [hk _ (by simp [ht]), ht] at hl
        cases hl
        rcases hc with hc | hc
        · exact hc rfl
        · omega
      rw [set_entries_ne hne]
      exact hf t o' k ht hc
    refine ⟨own', ⟨w.keep (w'.set_leaf hl) rfl fun t ht => ?_, hk, hframe⟩⟩
    rcases ht with ht | ht
    · exact hframe t _ _ ht (hkern ht (by omega))
    · exact hframe t _ _ ht (hkern ht (by omega))

/-- A store below 2^39 by one process is not seen by another. -/
theorem Stored.unseen {own' : U64 → Option (Owner × Nat)} {s' : State} {n : Nat} (w : Wf s own)
    (h : Stored s s' own own' (.user p) n) (hq : q ∈ s.pml4s) (hne : p ≠ q) (va : U64) :
    pml4GetPage s'.mem q va = pml4GetPage s.mem q va := by
  refine pml4GetPage_congr w.owned hq fun t o k ht ho => h.frame t o k ht (.inl ?_)
  rintro rfl
  rcases ho with ho | ho
  · cases ho
    exact hne rfl
  · cases ho

/-! ## Every state -/

/-- What `pml4_set_page` does, where it returns. -/
theorem pml4SetPage_eq_some {kpage : U64} {rw b : Bool} (h : pml4SetPage m base t upage kpage rw = some (b, m')) :
    isUserVaddr upage ∧ m' = match (pml4eWalk m t upage true).1 with
      | none => (pml4eWalk m t upage true).2
      | some sl => (pml4eWalk m t upage true).2.set sl (pageEntry kpage rw) := by
  unfold pml4SetPage at h
  split at h
  · rename_i hc
    refine ⟨hc.2.2.1, ?_⟩
    split at h
    · rename_i m₁ hw
      rw [hw]
      exact (Prod.mk.inj (Option.some.inj h)).2.symm
    · rename_i sl m₁ hw
      split at h
      · cases h
      · rw [hw]
        exact (Prod.mk.inj (Option.some.inj h)).2.symm
  · cases h

theorem pml4eWalk_false : (pml4eWalk m t va false).2 = m := by
  have h2 (u) : (pgdirWalk m u va false).2 = m := by rw [pgdirWalk_false]
  have h3 (u) : (pdpeWalk m u va false).2 = m := by
    unfold pdpeWalk
    by_cases h : present (m.get ⟨u, pdpe va⟩) = true
    · rw [walkVia_present h]
      exact h2 _
    · rw [walkVia_absent h]
  unfold pml4eWalk
  by_cases h : present (m.get ⟨t, pml4 va⟩) = true
  · rw [walkVia_present h]
    exact h3 _
  · rw [walkVia_absent h]

/-- What `pml4_clear_page` does, where it returns. -/
theorem pml4ClearPage_eq_some (h : pml4ClearPage m t upage = some m') :
    isUserVaddr upage ∧ (m' = m ∨ ∃ sl, lookup m t upage = some sl ∧ m' = m.set sl (m.get sl &&& ~~~pteP)) := by
  unfold pml4ClearPage at h
  split at h
  · rename_i hc
    refine ⟨hc.2, ?_⟩
    split at h
    · exact .inl (Option.some.inj h).symm
    · rename_i sl hl
      split at h
      · exact .inr ⟨sl, hl, (Option.some.inj h).symm⟩
      · exact .inl (Option.some.inj h).symm
  · cases h

/-- `pml4_set_page` and `pml4_clear_page` are a walk and a store. -/
theorem step_stored {e : Event} {s' : State} (w : Wf s own) (hs : step s e = some s')
    (he : e = .clearPage p upage ∨ ∃ kpage rw, e = .setPage p upage kpage rw) :
    ∃ own', Stored s s' own own' (walkOwner p upage) (walkLevel upage) := by
  rcases he with rfl | ⟨kpage, rw, rfl⟩
  · simp only [step, Option.ite_none_right_eq_some, Option.map_eq_some_iff] at hs
    obtain ⟨hp, m', hm, rfl⟩ := hs
    obtain ⟨hu, rfl | ⟨sl, hl, rfl⟩⟩ := pml4ClearPage_eq_some hm
    · exact ⟨own, ⟨⟨w.owned, w.kern4, w.kern3⟩, fun _ _ => rfl, fun _ _ _ _ _ => rfl⟩⟩
    · refine w.stored false (s.mem.get sl &&& ~~~pteP) hp hu ?_
      rw [show (pml4eWalk s.mem p upage false).1 = some sl from hl, pml4eWalk_false]
  · simp only [step, Option.ite_none_right_eq_some, Option.map_eq_some_iff] at hs
    obtain ⟨hp, ⟨b, m'⟩, hm, rfl⟩ := hs
    obtain ⟨hu, hm⟩ := pml4SetPage_eq_some hm
    exact w.stored _ _ hp hu hm

/-- `pml4_create` labels a new pml4; its entries are those of `base_pml4`. -/
theorem Owned.create {ps : List U64} (w : Owned m base roots own) (hp : m.pool = p :: ps) :
    Owned ⟨Function.update m.entries p (m.entries base), ps⟩ base (p :: roots)
      (Function.update own p (some (.user p, 4))) := by
  have hnew : own p = none := w.free p (by simp [hp])
  obtain ⟨hnot, hnd⟩ := List.nodup_cons.mp (hp ▸ w.nodup)
  have hne {t l} (h : own t = some l) : t ≠ p := by
    rintro rfl
    rw [hnew] at h
    cases h
  have hlab {t l} (h : own t = some l) : Function.update own p (some (.user p, 4)) t = some l := by
    rw [Function.update_of_ne (hne h), h]
  have hself : Function.update m.entries p (m.entries base) p = m.entries base := Function.update_self _ _ _
  have hent {t l} (h : own t = some l) : Function.update m.entries p (m.entries base) t = m.entries t :=
    Function.update_of_ne (hne h) _ _
  refine ⟨hlab w.base_label, fun r hr => ?_, fun t o n i ht hi hpr => ?_, fun t o n i ht hpr => ?_,
    fun r hr i hi => ?_, ?_, fun u hu => ?_, hnd, fun u hu => ?_⟩
  · rcases List.mem_cons.mp hr with rfl | hr
    · exact Function.update_self _ _ _
    · exact hlab (w.root_label r hr)
  · by_cases htp : t = p
    · subst htp
      simp only [hself, hi (by simp), w.base_zero] at hpr
      cases hpr
    · rw [Function.update_of_ne htp] at ht
      simp only [hent ht] at hpr ⊢
      exact hlab (w.edge t o n i ht (fun hr => hi (List.mem_cons_of_mem _ hr)) hpr)
  · by_cases htp : t = p
    · subst htp
      simp only [hself] at hpr ⊢
      exact w.zero base _ 2 i w.base_label hpr
    · rw [Function.update_of_ne htp] at ht
      simp only [hent ht] at hpr ⊢
      exact w.zero t o n i ht hpr
  · simp only [hent w.base_label]
    rcases List.mem_cons.mp hr with rfl | hr
    · rw [hself]
    · rw [hent (w.root_label r hr)]
      exact w.copy r hr i hi
  · show Function.update m.entries p (m.entries base) base 0 = 0
    rw [hent w.base_label]
    exact w.base_zero
  · have hup : u ≠ p := fun he => hnot (he ▸ hu)
    rw [Function.update_of_ne hup]
    exact w.free u (by rw [hp]; exact List.mem_cons_of_mem _ hu)
  · exact w.aligned u (by rw [hp]; exact List.mem_cons_of_mem _ hu)

theorem step_wf {e : Event} {s' : State} (w : ∃ own, Wf s own) (hs : step s e = some s') :
    ∃ own, Wf s' own := by
  obtain ⟨own, w⟩ := w
  cases e with
  | create =>
    simp only [step, pml4Create, Option.map_eq_some_iff] at hs
    obtain ⟨⟨p, m⟩, hm, rfl⟩ := hs
    split at hm
    · cases hm
    · rename_i p' ps hp
      obtain ⟨rfl, rfl⟩ := Prod.mk.inj (Option.some.inj hm)
      have hnew : own p' = none := w.owned.free p' (by simp [hp])
      refine ⟨_, w.keep (w.owned.create hp) rfl fun t ht => ?_⟩
      have hne : t ≠ p' := by
        rintro rfl
        rw [hnew] at ht
        rcases ht with ht | ht <;> cases ht
      exact Function.update_of_ne hne _ _
  | setPage t upage kpage rw =>
    obtain ⟨own', h⟩ := step_stored w hs (.inr ⟨kpage, rw, rfl⟩)
    exact ⟨own', h.wf⟩
  | clearPage t upage =>
    obtain ⟨own', h⟩ := step_stored w hs (.inl rfl)
    exact ⟨own', h.wf⟩

/-! ## `paging_init` -/

/-- The kernel pool hands out distinct page addresses. -/
structure Mem.PoolOk (m : Mem) : Prop where
  nodup : m.pool.Nodup
  aligned : ∀ p ∈ m.pool, pgOfs p = 0

/-- `base` maps the physical pages below `memEnd` from `KERN_BASE` on. -/
def Maps (m : Mem) (base : U64) (memEnd : Nat) : Prop :=
  ∀ i, 4096 * i < memEnd → ∃ sl, lookup m base (ptov (BitVec.ofNat 64 (4096 * i))) = some sl ∧
    present (m.get sl) = true ∧ pteAddr (m.get sl) = BitVec.ofNat 64 (4096 * i)

/-- The kernel's addresses are not in the first top-level region. -/
theorem pml4_kernel {i : Nat} (h : kernBase.toNat + 4096 * i < 2 ^ 48) :
    pml4 (ptov (BitVec.ofNat 64 (4096 * i))) ≠ 0 := by
  have hk : kernBase.toNat = 0x8004000000 := rfl
  rw [hk] at h
  have hv : (ptov (BitVec.ofNat 64 (4096 * i))).toNat = 4096 * i + 0x8004000000 := by
    rw [ptov, BitVec.toNat_add, BitVec.toNat_ofNat, hk]
    omega
  have hidx := index_val 39 (ptov (BitVec.ofNat 64 (4096 * i)))
  rw [hv] at hidx
  intro h0
  have h0' : (index 39 (ptov (BitVec.ofNat 64 (4096 * i)))).val = 0 := congrArg Fin.val h0
  omega

theorem mapKernelPage_owned {start endKernelText : U64} {i : Nat} (w : ∃ own, Owned m base [] own)
    (hi : kernBase.toNat + 4096 * i < 2 ^ 48) :
    ∃ own, Owned (mapKernelPage start endKernelText base m i) base [] own := by
  obtain ⟨own, w⟩ := w
  obtain ⟨hfail, hfound⟩ := pml4eWalk_walked true (ptov (BitVec.ofNat 64 (4096 * i))) w w.base_label
    ⟨by simp, fun _ => ⟨rfl, pml4_kernel hi⟩⟩
  simp only [mapKernelPage]
  split
  · rename_i m₁ hw
    rw [hw] at hfail
    obtain ⟨he, hpool⟩ := hfail rfl
    exact ⟨own, w.same he hpool⟩
  · rename_i sl m₁ hw
    rw [hw] at hfound
    obtain ⟨own', w', hl, -⟩ := hfound sl rfl
    exact ⟨own', w'.set_leaf hl⟩

theorem pagingInit_owned {memEnd : Nat} {start endKernelText : U64} (hm : m.PoolOk)
    (hend : kernBase.toNat + memEnd ≤ 2 ^ 48)
    (h : pagingInit memEnd start endKernelText m = some (base, m')) : ∃ own, Owned m' base [] own := by
  simp only [pagingInit, Option.map_eq_some_iff] at h
  obtain ⟨⟨b, m₁⟩, hpal, h⟩ := h
  obtain ⟨rfl, rfl⟩ := Prod.mk.inj h
  obtain ⟨ps, hp, rfl⟩ := pallocGetPage_eq_some.mp hpal
  obtain ⟨hnot, hnd⟩ := List.nodup_cons.mp (hp ▸ hm.nodup)
  have hzero (i) : (Mem.fill { m with pool := ps } b 0).entries b i = 0 := by
    simp only [Mem.fill, Function.update_self]
  have h₀ : ∃ own, Owned (Mem.fill { m with pool := ps } b 0) b [] own := by
    refine ⟨Function.update (fun _ => none) b (some (.kern, 4)), Function.update_self _ _ _, by simp,
      fun t o n i ht _ hpr => ?_, fun t o n i ht _ => ?_, by simp, hzero 0, fun u hu => ?_, hnd, fun u hu => ?_⟩
    · by_cases htb : t = b
      · rw [htb, hzero] at hpr
        cases hpr
      · rw [Function.update_of_ne htb] at ht
        cases ht
    · by_cases htb : t = b
      · rw [htb, hzero]
      · rw [Function.update_of_ne htb] at ht
        cases ht
    · have hub : u ≠ b := fun he => hnot (he ▸ hu)
      rw [Function.update_of_ne hub]
    · exact hm.aligned u (by rw [hp]; exact List.mem_cons_of_mem _ hu)
  have hrange : ∀ i ∈ List.range ((memEnd + 4095) / 4096), kernBase.toNat + 4096 * i < 2 ^ 48 := by
    intro i hi
    rw [List.mem_range] at hi
    omega
  revert hrange h₀
  generalize List.range ((memEnd + 4095) / 4096) = is
  generalize Mem.fill { m with pool := ps } b 0 = m₁
  induction is generalizing m₁ with
  | nil => exact fun h _ => h
  | cons i is ih =>
    intro h hr
    exact ih _ (mapKernelPage_owned h (hr i (by simp))) fun j hj => hr j (List.mem_cons_of_mem _ hj)

/-- The state the processes start from. -/
theorem boot_wf {memEnd : Nat} {start endKernelText : U64} (hm : m.PoolOk) (h0 : 0 < memEnd)
    (hend : kernBase.toNat + memEnd ≤ 2 ^ 48)
    (h : pagingInit memEnd start endKernelText m = some (base, m')) (hmaps : Maps m' base memEnd) :
    ∃ own, Wf ⟨m', base, []⟩ own := by
  obtain ⟨own, w⟩ := pagingInit_owned hm hend h
  obtain ⟨sl, hl, -⟩ := hmaps 0 (by omega)
  have hk : ptov (BitVec.ofNat 64 (4096 * 0)) = kernBase := by decide
  have h1 : pml4 kernBase = 1 := by decide
  rw [hk, lookup_eq, h1, Option.ite_none_right_eq_some, pdpeWalk_false, Option.ite_none_right_eq_some] at hl
  exact ⟨own, w, hl.1, hl.2.1⟩

/-! ## Separation -/

/-- Setting or clearing `upage` in `p` leaves every user address of `q` mapped
as it was. -/
def Separate (s : State) (p q upage : U64) : Prop :=
  ∀ e s', (e = .clearPage p upage ∨ ∃ kpage rw, e = .setPage p upage kpage rw) → step s e = some s' →
    ∀ va, isUserVaddr va → pml4GetPage s'.mem q va = pml4GetPage s.mem q va

/-- A walk that made a table finds it again. -/
theorem pgdirWalk_again {sl : Slot} (h : pgdirWalk m t va true = (some sl, m')) :
    pgdirWalk m' t va false = (some sl, m') := by
  by_cases hpr : present (m.get ⟨t, pdx va⟩) = true
  · unfold pgdirWalk at h
    simp only [if_pos hpr] at h
    obtain ⟨h₁, rfl⟩ := Prod.mk.inj h
    rw [pgdirWalk_false, ← h₁]
    exact congrArg (·, m) (if_pos hpr)
  · unfold pgdirWalk at h
    simp only [if_neg hpr, if_true] at h
    split at h
    · cases (Prod.mk.inj h).1
    · rename_i new m₁ hpal
      obtain ⟨h₁, rfl⟩ := Prod.mk.inj h
      have hg : (m₁.set ⟨t, pdx va⟩ (tableEntry new)).get ⟨t, pdx va⟩ = tableEntry new := get_set
      rw [hg] at h₁
      rw [pgdirWalk_false, ← h₁]
      have he : (m₁.set ⟨t, pdx va⟩ (tableEntry new)).entries t (pdx va) = tableEntry new := hg
      rw [he, if_pos (present_tableEntry new)]

theorem pageEntry_eq {kpage : U64} {rw : Bool} :
    pageEntry kpage rw = vtop kpage ||| (pteP ||| (if rw then pteW else 0#64) ||| pteU) := by
  simp only [pageEntry, BitVec.or_assoc]

theorem child_pageEntry {kpage : U64} {rw : Bool} (h : pgOfs kpage = 0) : child (pageEntry kpage rw) = kpage := by
  rw [child, pageEntry_eq, pteAddr_or (pgOfs_vtop h) (by cases rw <;> decide), ptov_vtop]

theorem present_pageEntry {kpage : U64} {rw : Bool} : present (pageEntry kpage rw) = true := by
  rw [pageEntry_eq]
  exact present_or (by cases rw <;> decide)

/-- In the shared region a page that one process sets, every process sees. -/
theorem shared_seen {s' : State} {kpage : U64} {rw : Bool} (w : Wf s own) (hp : p ∈ s.pml4s) (hq : q ∈ s.pml4s)
    (h1 : pml4 upage = 1) (hroom : lookup s.mem p upage ≠ none ∨ s.mem.pool ≠ [])
    (hs : step s (.setPage p upage kpage rw) = some s') : pml4GetPage s'.mem q upage = some kpage := by
  obtain ⟨own', hst⟩ := step_stored w hs (.inr ⟨kpage, rw, rfl⟩)
  simp only [step, Option.ite_none_right_eq_some, Option.map_eq_some_iff] at hs
  obtain ⟨-, ⟨b, m'⟩, hm, rfl⟩ := hs
  have hasserts : pgOfs upage = 0 ∧ pgOfs kpage = 0 := by
    unfold pml4SetPage at hm
    split at hm
    · rename_i hc
      exact ⟨hc.1, hc.2.1⟩
    · cases hm
  obtain ⟨hu, hm⟩ := pml4SetPage_eq_some hm
  have h0 : pml4 upage ≠ 0 := by
    rw [h1]
    decide
  -- the kernel's upper tables are where they were
  have hw' := hst.wf
  have hlevel : walkLevel upage = 2 := if_neg h0
  have hbase : m'.entries s.base = s.mem.entries s.base :=
    hst.frame _ _ _ w.owned.base_label (.inr (by rw [hlevel]; omega))
  have hpdpt : m'.entries (child (s.mem.entries s.base 1)) = s.mem.entries (child (s.mem.entries s.base 1)) :=
    hst.frame _ _ _ w.kern_label (.inr (by rw [hlevel]; omega))
  set pd := child (s.mem.entries (child (s.mem.entries s.base 1)) (pdpe kernBase)) with hpd
  have hpdl : own pd = some (.kern, 2) :=
    w.owned.edge _ _ 1 _ w.kern_label (fun hr => absurd hr (w.owned.not_root w.kern_label (by simp))) w.kern3
  have hwalk : pml4eWalk s.mem p upage true = pgdirWalk s.mem pd upage true := w.walk_shared _ hp hu h1
  -- the walk finds or makes the page table
  obtain ⟨sl, m₁, hres⟩ : ∃ sl m₁, pgdirWalk s.mem pd upage true = (some sl, m₁) := by
    by_cases hpr : present (s.mem.get ⟨pd, pdx upage⟩) = true
    · unfold pgdirWalk
      simp only [if_pos hpr]
      exact ⟨_, _, rfl⟩
    · have hpool : s.mem.pool ≠ [] := by
        refine hroom.resolve_left fun hl => hl ?_
        rw [lookup, w.walk_shared _ hp hu h1, pgdirWalk_false]
        exact if_neg hpr
      obtain ⟨new, ps, hpool⟩ := List.exists_cons_of_ne_nil hpool
      unfold pgdirWalk
      simp only [if_neg hpr, if_true, pallocGetPage, hpool]
      exact ⟨_, _, rfl⟩
  rw [hwalk, hres] at hm
  have hm : m' = m₁.set sl (pageEntry kpage rw) := hm
  have hne : pd ≠ sl.table := by
    obtain ⟨-, hfound⟩ := w.walked true hp hu
    rw [hwalk, hres] at hfound
    obtain ⟨own₂, -, hl, hk, -⟩ := hfound sl rfl
    intro he
    rw [← he, hk pd (by simp [hpdl]), hpdl] at hl
    exact absurd (Prod.mk.inj (Option.some.inj hl)).2 (by omega)
  have hlook : lookup m' q upage = some sl := by
    have hws := hw'.walk_shared false hq hu h1
    simp only [hbase, hpdpt, ← hpd] at hws
    rw [lookup, hws, pgdirWalk_false, hm, set_entries_ne hne]
    have := pgdirWalk_again hres
    rw [pgdirWalk_false] at this
    exact (Prod.mk.inj this).1
  have hget : m'.get sl = pageEntry kpage rw := by rw [hm, get_set]
  show (match lookup m' q upage with
    | none => none
    | some sl => if present (m'.get sl) then some (child (m'.get sl) + pgOfs upage) else none) = some kpage
  rw [hlook]
  show (if present (m'.get sl) then some (child (m'.get sl) + pgOfs upage) else none) = some kpage
  rw [hget, if_pos present_pageEntry, child_pageEntry hasserts.2, hasserts.1]
  simp

/-- In the shared region, without a page table and without a page to make one,
nothing is written. -/
theorem shared_full {e : Event} {s' : State} (w : Wf s own) (hp : p ∈ s.pml4s) (hu : isUserVaddr upage)
    (h1 : pml4 upage = 1) (hl : lookup s.mem p upage = none) (hpool : s.mem.pool = [])
    (hs : step s e = some s') (he : e = .clearPage p upage ∨ ∃ kpage rw, e = .setPage p upage kpage rw) :
    s'.mem = s.mem := by
  have hwalk : pml4eWalk s.mem p upage true = (none, s.mem) := by
    rw [lookup, w.walk_shared _ hp hu h1, pgdirWalk_false] at hl
    rw [w.walk_shared _ hp hu h1]
    unfold pgdirWalk pallocGetPage
    have hpr := (ite_eq_right_iff.mp hl).mt (by simp)
    simp only [Mem.get, if_neg hpr, if_true, hpool]
  rcases he with rfl | ⟨kpage, rw, rfl⟩
  · simp only [step, Option.ite_none_right_eq_some, Option.map_eq_some_iff] at hs
    obtain ⟨-, m', hm, rfl⟩ := hs
    obtain ⟨-, rfl | ⟨sl, hl', -⟩⟩ := pml4ClearPage_eq_some hm
    · rfl
    · rw [hl] at hl'
      cases hl'
  · simp only [step, Option.ite_none_right_eq_some, Option.map_eq_some_iff] at hs
    obtain ⟨-, ⟨b, m'⟩, hm, rfl⟩ := hs
    obtain ⟨-, hm⟩ := pml4SetPage_eq_some hm
    rw [hwalk] at hm
    exact hm

/-- **Separation.** In every state that `pml4_create`, `pml4_set_page` and
`pml4_clear_page` lead to from `paging_init`, two processes are separate at a
user page exactly when it is below 2^39, or when the shared region has no page
table for it and there is no page left to make one. -/
theorem separate_iff {m₀ : Mem} {memEnd : Nat} {start endKernelText : U64} {es : List Event}
    (hm : m₀.PoolOk) (h0 : 0 < memEnd) (hend : kernBase.toNat + memEnd ≤ 2 ^ 48)
    (hinit : pagingInit memEnd start endKernelText m₀ = some (base, m)) (hmaps : Maps m base memEnd)
    (hr : Run.run step ⟨m, base, []⟩ es = some s) (hp : p ∈ s.pml4s) (hq : q ∈ s.pml4s) (hne : p ≠ q)
    (hu : isUserVaddr upage) (ha : pgOfs upage = 0) :
    Separate s p q upage ↔ upage.toNat < 2 ^ 39 ∨ lookup s.mem p upage = none ∧ s.mem.pool = [] := by
  obtain ⟨own, w⟩ : ∃ own, Wf s own :=
    Run.run_invariant (G := fun _ _ => True) (fun _ _ _ w _ hs => step_wf w hs) (boot_wf hm h0 hend hinit hmaps) hr
      (Run.always_of_mem _ fun _ _ _ => trivial)
  have hlow : pml4 upage = 0 ↔ upage.toNat < 2 ^ 39 := by
    have hv : upage.toNat < 0x8004000000 := hu
    have := index_val 39 upage
    rw [pml4, Fin.ext_iff, this]
    show upage.toNat / 2 ^ 39 % 512 = 0 ↔ _
    omega
  rw [← hlow]
  constructor
  · intro hsep
    by_contra hc
    rw [not_or, not_and_or] at hc
    have h1 : pml4 upage = 1 := (pml4_user hu).resolve_left hc.1
    -- two different pages cannot both be what `q` saw before
    have hset (kpage : U64) (hk : pgOfs kpage = 0 ∧ ¬ isUserVaddr kpage) : pml4GetPage s.mem q upage = some kpage := by
      have hb : p ≠ s.base := fun hb => w.owned.base_not_root (hb ▸ hp)
      obtain ⟨s', hs'⟩ : ∃ s', step s (.setPage p upage kpage false) = some s' := by
        simp only [step, if_pos hp, pml4SetPage, if_pos (⟨ha, hk.1, hu, hb⟩ : _ ∧ _ ∧ _ ∧ _), if_neg hk.2]
        split
        · exact ⟨_, rfl⟩
        · exact ⟨_, rfl⟩
      rw [← hsep _ s' (.inr ⟨kpage, false, rfl⟩) hs' upage hu]
      exact shared_seen w hp hq h1 hc.2 hs'
    have h₁ := hset kernBase (by decide)
    have h₂ := hset (kernBase + 4096#64) (by decide)
    rw [h₁] at h₂
    exact absurd (Option.some.inj h₂) (by decide)
  · intro hc e s' he hs va _
    by_cases hz : pml4 upage = 0
    · obtain ⟨own', hst⟩ := step_stored w hs he
      rw [walkOwner, if_pos hz] at hst
      exact hst.unseen w hq hne va
    · -- nothing to write to
      obtain ⟨hl, hpool⟩ := hc.resolve_left hz
      rw [shared_full w hp hu ((pml4_user hu).resolve_left hz) hl hpool hs he]

/-- A kernel pool of eight pages. -/
def smallPool : Mem :=
  ⟨fun _ _ => 0, (List.range 8).map fun i => 0x8004100000#64 + BitVec.ofNat 64 (4096 * i)⟩

/-- `paging_init` of one page of memory, then two processes, at the fifth and
sixth page of the pool. -/
def twoProcesses : Option State :=
  (pagingInit 4096 kernBase kernBase smallPool).bind fun (base, m) =>
    Run.run step ⟨m, base, []⟩ [.create, .create]

theorem twoProcesses_reached : ∃ base m s, pagingInit 4096 kernBase kernBase smallPool = some (base, m) ∧
    Maps m base 4096 ∧ Run.run step ⟨m, base, []⟩ [.create, .create] = some s ∧ twoProcesses = some s := by
  obtain ⟨s, hs⟩ := Option.isSome_iff_exists.mp (by decide +kernel : twoProcesses.isSome = true)
  have h := hs
  unfold twoProcesses at h
  obtain ⟨⟨base, m⟩, hinit, hrun⟩ := Option.bind_eq_some_iff.mp h
  refine ⟨base, m, s, hinit, fun i hi => ?_, hrun, hs⟩
  obtain rfl : i = 0 := by omega
  have hmap : (pagingInit 4096 kernBase kernBase smallPool).map (fun (base, m) =>
      (lookup m base (ptov 0), (lookup m base (ptov 0)).map fun sl => (present (m.get sl), pteAddr (m.get sl)))) =
      some (some ⟨0x8004103000#64, 0⟩, some (true, 0)) := by decide +kernel
  rw [hinit] at hmap
  obtain ⟨h₁, h₂⟩ := Prod.mk.inj (Option.some.inj hmap)
  rw [h₁] at h₂
  obtain ⟨h₂, h₃⟩ := Prod.mk.inj (Option.some.inj h₂)
  exact ⟨_, h₁, h₂, h₃⟩

theorem smallPool_ok : smallPool.PoolOk := by
  have h : (smallPool.pool.all fun p => pgOfs p = 0) = true := by decide +kernel
  exact ⟨by decide +kernel, by simpa using h⟩

theorem separate_iff_low : ∃ s, twoProcesses = some s ∧
    Separate s 0x8004104000#64 0x8004105000#64 0x400000#64 := by
  obtain ⟨base, m, s, hinit, hmaps, hrun, hs⟩ := twoProcesses_reached
  have hp : twoProcesses.map State.pml4s = some [0x8004105000#64, 0x8004104000#64] := by decide +kernel
  rw [hs] at hp
  have hp := Option.some.inj hp
  refine ⟨s, hs, (separate_iff smallPool_ok (by decide) (by decide) hinit hmaps hrun ?_ ?_ (by decide) (by decide)
    (by decide)).mpr (.inl (by decide))⟩
  · rw [hp]
    decide
  · rw [hp]
    decide

/-- Without the condition: process 0x8004104000 sets the user page 2^39, and
process 0x8004105000 has it too. -/
theorem not_separate : ¬ ∀ (m₀ m : Mem) (memEnd : Nat) (start endKernelText base p q upage : U64)
    (es : List Event) (s : State), m₀.PoolOk → 0 < memEnd → kernBase.toNat + memEnd ≤ 2 ^ 48 →
    pagingInit memEnd start endKernelText m₀ = some (base, m) → Maps m base memEnd →
    Run.run step ⟨m, base, []⟩ es = some s → p ∈ s.pml4s → q ∈ s.pml4s → p ≠ q →
    isUserVaddr upage → pgOfs upage = 0 → Separate s p q upage := by
  intro hall
  obtain ⟨base, m, s, hinit, hmaps, hrun, hs⟩ := twoProcesses_reached
  have hrun' : twoProcesses.map (fun s => (s.pml4s, pml4GetPage s.mem 0x8004105000#64 0x8000000000#64,
      (step s (.setPage 0x8004104000#64 0x8000000000#64 0x8004200000#64 true)).map fun s' =>
        pml4GetPage s'.mem 0x8004105000#64 0x8000000000#64)) =
      some ([0x8004105000#64, 0x8004104000#64], none, some (some 0x8004200000#64)) := by decide +kernel
  rw [hs] at hrun'
  obtain ⟨hp, h⟩ := Prod.mk.inj (Option.some.inj hrun')
  obtain ⟨hbefore, hafter⟩ := Prod.mk.inj h
  obtain ⟨s', hs', hafter⟩ := Option.map_eq_some_iff.mp hafter
  have hsep := hall _ _ _ _ _ _ 0x8004104000#64 0x8004105000#64 0x8000000000#64 _ s smallPool_ok (by decide)
    (by decide) hinit hmaps hrun (by rw [hp]; decide) (by rw [hp]; decide) (by decide) (by decide) (by decide)
  have := hsep _ s' (.inr ⟨_, _, rfl⟩) hs' 0x8000000000#64 (by decide)
  rw [hbefore, hafter] at this
  cases this

end PintosKaist.Mmu
