/-
A page table as a map (`threads/mmu.c`): in a tree of distinct table pages
`pml4_set_page` changes what `pml4_get_page` says of one page, and
`pml4_clear_page` takes one page away.

The path of an address is its four indices; two user addresses have the same
path when they are in the same page.
-/
import PintosKaist.Lib.Radix
import PintosKaist.Threads.MmuSeparate

namespace PintosKaist.Mmu

open Pte

variable {m m' : Mem} {base t u va upage kpage : U64} {p q : List (Fin 512)} {sl pte : Slot} {i : Fin 512} {rw : Bool}

/-- `pg_round_down`. -/
def pgRoundDown (va : U64) : U64 := va &&& ~~~0xFFF#64

/-- What a present entry leads to. -/
def leads (e : U64) : Option U64 := if present e then some (child e) else none

/-- The table, or behind four indices the page, that a path from `t` leads to. -/
def table (m : Mem) (t : U64) (p : List (Fin 512)) : Option U64 := Radix.node leads m.entries t p

/-- The indices of an address, from the pml4 down. -/
def path (va : U64) : List (Fin 512) := [pml4 va, pdpe va, pdx va, ptx va]

/-- A pml4 whose table pages are distinct, with the pages that `palloc` has to
give: none of them a table of this tree. -/
structure WellFormed (m : Mem) (t : U64) : Prop where
  tree : Radix.Tree leads m.entries t 3
  root_aligned : pgOfs t = 0
  fresh : ∀ a ∈ m.pool, ∀ p, p.length ≤ 3 → table m t p ≠ some a
  nodup : m.pool.Nodup
  aligned : ∀ a ∈ m.pool, pgOfs a = 0

/-! ## Addresses -/

theorem pgRoundDown_toNat : (pgRoundDown va).toNat = va.toNat - va.toNat % 4096 := by
  have hofs : (pgOfs va).toNat = va.toNat % 4096 := by
    rw [pgOfs, BitVec.toNat_and]
    exact Nat.and_two_pow_sub_one_eq_mod _ 12
  have hle : (pgRoundDown va).toNat ≤ va.toNat := by
    rw [pgRoundDown, BitVec.toNat_and]
    exact Nat.and_le_left
  have hsum : va = pgRoundDown va + pgOfs va := by
    rw [BitVec.add_eq_or_of_and_eq_zero]
    · rw [pgRoundDown, pgOfs, ← BitVec.and_or_distrib_left, show (~~~0xFFF#64 ||| 0xFFF#64) = BitVec.allOnes 64 by decide,
        BitVec.and_allOnes]
    · rw [pgRoundDown, pgOfs, BitVec.and_comm va 0xFFF#64, BitVec.and_assoc, ← BitVec.and_assoc (~~~0xFFF#64),
        show ~~~0xFFF#64 &&& 0xFFF#64 = 0#64 by decide, BitVec.zero_and, BitVec.and_zero]
  have hnat := congrArg BitVec.toNat hsum
  rw [BitVec.toNat_add, hofs] at hnat
  have hlt := va.isLt
  omega

/-- Two user addresses have the same path when they are in the same page. -/
theorem path_eq {va' : U64} (hv : isUserVaddr va) (hv' : isUserVaddr va') :
    path va = path va' ↔ pgRoundDown va = pgRoundDown va' := by
  have hlt : va.toNat < 0x8004000000 := hv
  have hlt' : va'.toNat < 0x8004000000 := hv'
  rw [← BitVec.toNat_inj, pgRoundDown_toNat, pgRoundDown_toNat]
  simp only [path, List.cons.injEq, and_true, pml4, pdpe, pdx, ptx, Fin.ext_iff, index_val]
  omega

theorem path_eq_aligned (hu : isUserVaddr upage) (ha : pgOfs upage = 0) (hv : isUserVaddr va) :
    path va = path upage ↔ pgRoundDown va = upage := by
  rw [path_eq hv hu]
  have hr : pgRoundDown upage = upage := and_of_pgOfs ha
  rw [hr]

/-! ## Looking up -/

theorem leads_tableEntry {a : U64} (h : pgOfs a = 0) : leads (tableEntry a) = some a := by
  unfold leads
  rw [if_pos (present_tableEntry a), child_tableEntry h]

theorem leads_zero : leads 0 = none := by decide

theorem table_cons : table m t (i :: p) = (leads (m.entries t i)).bind fun u => table m u p := rfl

theorem table_concat : table m t (p ++ [i]) = (table m t p).bind fun u => leads (m.entries u i) := Radix.node_concat

theorem path_concat : path va = [pml4 va, pdpe va, pdx va] ++ [ptx va] := rfl

/-- A walk that makes nothing ends in the table of the first three indices. -/
theorem lookup_table (m : Mem) (t va : U64) :
    lookup m t va = (table m t [pml4 va, pdpe va, pdx va]).map fun u => ⟨u, ptx va⟩ := by
  rw [lookup_eq]
  simp only [table_cons, leads]
  by_cases h4 : present (m.entries t (pml4 va)) = true
  · simp only [if_pos h4, Option.bind_some, pdpeWalk_false]
    by_cases h3 : present (m.entries (child (m.entries t (pml4 va))) (pdpe va)) = true
    · simp only [if_pos h3, Option.bind_some, pgdirWalk_false]
      split <;> rfl
    · simp only [if_neg h3]
      rfl
  · simp only [if_neg h4]
    rfl

/-- `pml4_get_page` follows the path of the address. -/
theorem pml4GetPage_eq : pml4GetPage m t va = (table m t (path va)).map (· + pgOfs va) := by
  have hl := lookup_table m t va
  unfold lookup at hl
  unfold pml4GetPage
  rw [hl, path_concat, table_concat]
  cases table m t [pml4 va, pdpe va, pdx va] with
  | none => rfl
  | some u =>
    simp only [Option.map_some, Option.bind_some, leads, Mem.get]
    by_cases hpr : present (m.entries u (ptx va)) = true
    · rw [if_pos hpr, Option.map_some]
      exact if_pos hpr
    · rw [if_neg hpr, Option.map_none]
      exact if_neg hpr

/-! ## Walking with new tables -/

/-- A walk from `m` to `m'` found the entry `i` of the table that `p` leads
to, and no address is mapped otherwise than before. -/
structure Reached (m : Mem) (t : U64) (p : List (Fin 512)) (i : Fin 512) (pte : Slot) (m' : Mem) : Prop where
  wellFormed : WellFormed m' t
  found : table m' t p = some pte.table
  idx : pte.idx = i
  same : ∀ q, q.length = 4 → table m' t q = table m t q

/-- A fresh zeroed table is hung from an entry that leads nowhere: one path
more leads somewhere. -/
theorem WellFormed.hang {a : U64} {ps : List U64} (w : WellFormed m t) (sl : Slot) (hp : m.pool = a :: ps)
    (hs : table m t p = some sl.table) (hlen : p.length < 3) (habs : ¬ present (m.get sl) = true) :
    let m₂ := (Mem.fill { m with pool := ps } a 0).set sl (tableEntry a)
    Radix.Tree leads m₂.entries t 3 ∧
      ∀ q, q.length ≤ 4 → table m₂ t q = if q = p ++ [sl.idx] then some a else table m t q := by
  intro m₂
  have hmem : a ∈ m.pool := by rw [hp]; exact List.mem_cons_self
  have hal := w.aligned a hmem
  have hnot : ∀ q u, q.length ≤ 3 → table m t q = some u → u ≠ a := by
    rintro q u hq hu rfl
    exact w.fresh u hmem q hq hu
  have hne := hnot p _ (by omega) hs
  have habs' : leads (m.entries sl.table sl.idx) = none := if_neg habs
  have hat : m₂.entries sl.table sl.idx = tableEntry a := get_set (s := sl)
  have hlead : leads (m₂.entries sl.table sl.idx) = some a := by rw [hat, leads_tableEntry hal]
  have hW : Radix.Written leads m.entries m₂.entries t 3 p sl.table sl.idx := by
    refine ⟨hs, by omega, fun q u hq hu hut => ?_, fun j hj => ?_,
        fun _ => habs', fun _ u hu j => ?_, fun _ u hu q hq hqu => ?_⟩
    · exact (set_entries_ne hut).trans (fill_entries_ne (hnot q u hq hu))
    · show m₂.entries sl.table j = _
      rw [set_entries, if_neg (fun hc => hj hc.2), fill_entries_ne hne]
    · obtain rfl := Option.some.inj (hlead.symm.trans hu)
      show leads (m₂.entries a j) = none
      rw [set_entries, if_neg (fun hc => hne hc.1.symm)]
      simp only [Mem.fill, Function.update_self]
      exact leads_zero
    · obtain rfl := Option.some.inj (hlead.symm.trans hu)
      exact hnot q a hq hqu rfl
  refine ⟨hW.tree w.tree, fun q hq => ?_⟩
  rw [← hlead]
  exact hW.node_eq w.tree q hq

/-- The tree with the fresh table is well-formed, and maps nothing more. -/
theorem WellFormed.grow {a : U64} {ps : List U64} (w : WellFormed m t) (sl : Slot) (hp : m.pool = a :: ps)
    (hs : table m t p = some sl.table) (hlen : p.length < 3) (habs : ¬ present (m.get sl) = true) :
    let m₂ := (Mem.fill { m with pool := ps } a 0).set sl (tableEntry a)
    WellFormed m₂ t ∧ table m₂ t (p ++ [sl.idx]) = some a ∧ ∀ q, q.length = 4 → table m₂ t q = table m t q := by
  intro m₂
  obtain ⟨htree, hnode⟩ := w.hang sl hp hs hlen habs
  obtain ⟨hnd, hps⟩ := List.nodup_cons.mp (hp ▸ w.nodup)
  have hsub : ∀ b ∈ ps, b ∈ m.pool := fun b hb => by rw [hp]; exact List.mem_cons_of_mem _ hb
  refine ⟨⟨htree, w.root_aligned, fun b hb q hq hqb => ?_, hps, fun b hb => w.aligned b (hsub b hb)⟩, ?_,
    fun q hq => ?_⟩
  · rw [hnode q (by omega)] at hqb
    split at hqb
    · obtain rfl := Option.some.inj hqb
      exact hnd hb
    · exact w.fresh b (hsub b hb) q hq hqb
  · rw [hnode _ (by simp; omega), if_pos rfl]
  · rw [hnode q (by omega), if_neg]
    intro he
    rw [he, List.length_append, List.length_singleton] at hq
    omega

theorem pgdirWalk_reached (w : WellFormed m t) (hu : table m t p = some u) (hlen : p.length < 3)
    (h : pgdirWalk m u va true = (some pte, m')) : Reached m t (p ++ [pdx va]) (ptx va) pte m' := by
  unfold pgdirWalk at h
  by_cases hpr : present (m.get ⟨u, pdx va⟩) = true
  · simp only [if_pos hpr, Prod.mk.injEq, Option.some.injEq] at h
    obtain ⟨rfl, rfl⟩ := h
    refine ⟨w, ?_, rfl, fun _ _ => rfl⟩
    rw [table_concat, hu]
    exact if_pos hpr
  · simp only [if_neg hpr, if_true] at h
    cases hpal : pallocGetPage m with
    | none =>
      rw [hpal] at h
      cases h
    | some r =>
      obtain ⟨a, m₁⟩ := r
      obtain ⟨ps, hp, rfl⟩ := pallocGetPage_eq_some.mp hpal
      simp only [hpal, Prod.mk.injEq, Option.some.injEq] at h
      obtain ⟨rfl, rfl⟩ := h
      obtain ⟨w₂, hfound, hsame⟩ := w.grow ⟨u, pdx va⟩ hp hu hlen hpr
      refine ⟨w₂, ?_, rfl, hsame⟩
      rw [hfound, get_set, child_tableEntry (w.aligned a (by rw [hp]; exact List.mem_cons_self))]

/-- One level of a walk: the walk below goes on from the table behind `sl`. -/
theorem walkVia_reached {next : Mem → U64 → Option Slot × Mem} {r : List (Fin 512)} (w : WellFormed m t) (sl : Slot)
    (hs : table m t p = some sl.table) (hlen : p.length < 3)
    (hnext : ∀ m u m', WellFormed m t → table m t (p ++ [sl.idx]) = some u → next m u = (some pte, m') →
      Reached m t r i pte m')
    (h : walkVia next m sl true = (some pte, m')) : Reached m t r i pte m' := by
  by_cases hpr : present (m.get sl) = true
  · rw [walkVia_present hpr] at h
    refine hnext m _ m' w ?_ h
    rw [table_concat, hs]
    exact if_pos hpr
  · unfold walkVia at h
    simp only [if_neg hpr, if_true] at h
    cases hpal : pallocGetPage m with
    | none =>
      rw [hpal] at h
      cases h
    | some r =>
      obtain ⟨a, m₁⟩ := r
      obtain ⟨ps, hp, rfl⟩ := pallocGetPage_eq_some.mp hpal
      obtain ⟨w₂, hfound, hsame⟩ := w.grow sl hp hs hlen hpr
      simp only [hpal, get_set, child_tableEntry (w.aligned a (by rw [hp]; exact List.mem_cons_self))] at h
      generalize hn : next _ a = res at h
      obtain ⟨_ | pte', m₃⟩ := res
      · cases h
      · obtain ⟨hpte, rfl⟩ := Prod.mk.inj h
        obtain rfl := Option.some.inj hpte
        have hR := hnext _ a m₃ w₂ hfound hn
        exact ⟨hR.wellFormed, hR.found, hR.idx, fun q hq => (hR.same q hq).trans (hsame q hq)⟩

theorem pml4eWalk_reached (w : WellFormed m t) (h : pml4eWalk m t va true = (some pte, m')) :
    Reached m t [pml4 va, pdpe va, pdx va] (ptx va) pte m' := by
  refine walkVia_reached (p := []) w _ rfl (by decide) (fun m u m' w hu h => ?_) h
  refine walkVia_reached (p := [pml4 va]) w ⟨u, pdpe va⟩ hu (by simp) (fun m u m' w hu h => ?_) h
  exact pgdirWalk_reached (p := [pml4 va, pdpe va]) w hu (by simp) h

/-! ## The operations -/

/-- An entry of a page table proper is written. -/
theorem WellFormed.set {e : U64} (w : WellFormed m t) (sl : Slot) (hs : table m t p = some sl.table)
    (hlen : p.length = 3) :
    WellFormed (m.set sl e) t ∧
      ∀ q, q.length = 4 → table (m.set sl e) t q = if q = p ++ [sl.idx] then leads e else table m t q := by
  have hW : Radix.Written leads m.entries (m.set sl e).entries t 3 p sl.table sl.idx := by
    refine ⟨hs, by omega, fun q u _ _ hut => set_entries_ne hut, fun j hj => ?_, fun h => ?_, fun h => ?_, fun h => ?_⟩
    · rw [set_entries, if_neg fun hc => hj hc.2]
    · omega
    · omega
    · omega
  have hnode := hW.node_eq w.tree
  have hat : (m.set sl e).entries sl.table sl.idx = e := get_set (s := sl)
  rw [hat] at hnode
  refine ⟨⟨hW.tree w.tree, w.root_aligned, fun b hb q hq hqb => ?_, w.nodup, w.aligned⟩, fun q hq => hnode q (by omega)⟩
  unfold table at hqb
  rw [hnode q (by omega), if_neg] at hqb
  · exact w.fresh b hb q hq hqb
  · intro he
    rw [he, List.length_append, List.length_singleton] at hq
    omega

theorem leads_pageEntry (h : pgOfs kpage = 0) : leads (pageEntry kpage rw) = some kpage := by
  unfold leads
  rw [if_pos present_pageEntry, child_pageEntry h]

theorem leads_cleared (e : U64) : leads (e &&& ~~~pteP) = none := by
  have h : present (e &&& ~~~pteP) = false := by
    unfold present
    rw [BitVec.and_assoc, show ~~~pteP &&& pteP = 0#64 by decide, BitVec.and_zero]
    rfl
  unfold leads
  rw [h]
  rfl

theorem pml4SetPage_map (w : WellFormed m t) (h : pml4SetPage m base t upage kpage rw = some (true, m')) :
    WellFormed m' t ∧ ∀ va, isUserVaddr va →
      pml4GetPage m' t va = if pgRoundDown va = upage then some (kpage + pgOfs va) else pml4GetPage m t va := by
  unfold pml4SetPage at h
  split at h
  · rename_i hc
    obtain ⟨ha, hk, hu, -⟩ := hc
    split at h
    · cases h
    · rename_i pte m₁ hwalk
      split at h
      · cases h
      · simp only [Option.some.injEq, Prod.mk.injEq, true_and] at h
        subst h
        have hR := pml4eWalk_reached w hwalk
        obtain ⟨w', hset⟩ := hR.wellFormed.set _ (e := pageEntry kpage rw) hR.found rfl
        refine ⟨w', fun va hv => ?_⟩
        rw [pml4GetPage_eq, pml4GetPage_eq, hset _ rfl, hR.same _ rfl, hR.idx, ← path_concat, leads_pageEntry hk]
        simp only [path_eq_aligned hu ha hv]
        split
        · rfl
        · rfl
  · cases h

theorem pml4ClearPage_map (w : WellFormed m t) (hu : isUserVaddr upage) (ha : pgOfs upage = 0) :
    ∃ m', pml4ClearPage m t upage = some m' ∧ WellFormed m' t ∧ ∀ va, isUserVaddr va →
      pml4GetPage m' t va = if pgRoundDown va = upage then none else pml4GetPage m t va := by
  have hl := lookup_table m t upage
  -- nothing is there to be cleared
  have hnone (hn : table m t (path upage) = none) : WellFormed m t ∧ ∀ va, isUserVaddr va →
      pml4GetPage m t va = if pgRoundDown va = upage then none else pml4GetPage m t va := by
    refine ⟨w, fun va hv => ?_⟩
    split
    · rename_i hr
      rw [pml4GetPage_eq, (path_eq_aligned hu ha hv).mpr hr, hn]
      rfl
    · rfl
  unfold lookup at hl
  unfold pml4ClearPage
  rw [if_pos ⟨ha, hu⟩]
  cases htab : table m t [pml4 upage, pdpe upage, pdx upage] with
  | none =>
    rw [hl, htab]
    refine ⟨m, rfl, hnone ?_⟩
    rw [path_concat, table_concat, htab]
    rfl
  | some u =>
    rw [hl, htab]
    simp only [Option.map_some]
    split
    · obtain ⟨w', hset⟩ := w.set ⟨u, ptx upage⟩ (e := m.get ⟨u, ptx upage⟩ &&& ~~~pteP) htab rfl
      refine ⟨_, rfl, w', fun va hv => ?_⟩
      rw [pml4GetPage_eq, pml4GetPage_eq, hset _ rfl, ← path_concat, leads_cleared]
      simp only [path_eq_aligned hu ha hv]
      split
      · rfl
      · rfl
    · rename_i habs
      refine ⟨m, rfl, hnone ?_⟩
      rw [path_concat, table_concat, htab]
      exact if_neg habs

/-- **A page table is a map.** In a tree of distinct table pages, with fresh
zeroed pages from `palloc`, a `pml4_set_page` that returns true maps the page
`upage` to `kpage` and leaves every other page as it was, and `pml4_clear_page`
makes the page `upage` absent and no other; both leave a tree. -/
theorem page_table_map (w : WellFormed m t) (hu : isUserVaddr upage) (ha : pgOfs upage = 0) :
    (∀ base kpage rw m', pml4SetPage m base t upage kpage rw = some (true, m') → WellFormed m' t ∧
      ∀ va, isUserVaddr va →
        pml4GetPage m' t va = if pgRoundDown va = upage then some (kpage + pgOfs va) else pml4GetPage m t va) ∧
    ∃ m', pml4ClearPage m t upage = some m' ∧ WellFormed m' t ∧ ∀ va, isUserVaddr va →
      pml4GetPage m' t va = if pgRoundDown va = upage then none else pml4GetPage m t va :=
  ⟨fun _ _ _ _ h => pml4SetPage_map w h, pml4ClearPage_map w hu ha⟩

/-- An empty pml4 beside the pool of eight pages. -/
theorem smallPool_wellFormed : WellFormed smallPool 0x8004200000#64 := by
  have hroot : ∀ p u, table smallPool 0x8004200000#64 p = some u → p = [] ∧ u = 0x8004200000#64 := by
    intro p u h
    cases p with
    | nil => exact ⟨rfl, (Option.some.inj h).symm⟩
    | cons i p =>
      have hz : leads (smallPool.entries 0x8004200000#64 i) = none := leads_zero
      rw [table_cons, hz] at h
      cases h
  refine ⟨fun p q u _ _ hp hq => ?_, by decide, fun a ha p _ hp => ?_, by decide +kernel, smallPool_ok.aligned⟩
  · rw [(hroot p u hp).1, (hroot q u hq).1]
  · obtain rfl := (hroot p a hp).2
    exact absurd ha (by decide +kernel)

theorem page_table_map_small : ∃ m', pml4SetPage smallPool 0#64 0x8004200000#64 0x400000#64 0x8004300000#64 true =
    some (true, m') ∧ pml4GetPage m' 0x8004200000#64 0x400123#64 = some 0x8004300123#64 := by
  obtain ⟨⟨b, m'⟩, hset, hb⟩ := (Option.any_eq_true _ _).mp (show
    (pml4SetPage smallPool 0#64 0x8004200000#64 0x400000#64 0x8004300000#64 true).any (fun r => r.1) = true by
      decide +kernel)
  obtain rfl : b = true := hb
  refine ⟨m', hset, ?_⟩
  rw [((page_table_map smallPool_wellFormed (by decide) (by decide)).1 _ _ _ _ hset).2 _ (by decide),
    if_pos (by decide)]
  decide

end PintosKaist.Mmu
