/-
A walk that fails (`threads/mmu.c`): `palloc_get_page` has no page to give at
one of the levels. Every level above that made a table for the walk frees it
and clears its entry, and each only its own.
-/
import PintosKaist.Threads.MmuMap

namespace PintosKaist.Mmu

open Pte

variable {m m' m₁ : Mem} {t u va a : U64} {p q : List (Fin 512)} {sl : Slot}

/-! ## The calls of a walk -/

/-- A call to `palloc_get_page` that returns a page, or to `palloc_free_page`. -/
inductive PageCall where
  | get (p : U64)
  | free (p : U64)
  deriving DecidableEq, Repr

/-- What a walk returns and leaves, and the calls it makes. -/
abbrev Traced := (Option Slot × Mem) × List PageCall

/-- `pgdir_walk`. -/
def tracedPgdirWalk (m : Mem) (pdp va : U64) (create : Bool) : Traced :=
  let s : Slot := ⟨pdp, pdx va⟩
  if present (m.get s) then ((some ⟨child (m.get s), ptx va⟩, m), [])
  else if create then
    match pallocGetPage m with
    | none => ((none, m), [])
    | some (new, m₁) =>
      let m₂ := m₁.set s (tableEntry new)
      ((some ⟨child (m₂.get s), ptx va⟩, m₂), [.get new])
  else ((none, m), [])

/-- `pdpe_walk` and `pml4e_walk`. -/
def tracedVia (next : Mem → U64 → Traced) (m : Mem) (s : Slot) (create : Bool) : Traced :=
  if present (m.get s) then next m (child (m.get s))
  else if create then
    match pallocGetPage m with
    | none => ((none, m), [])
    | some (new, m₁) =>
      let m₂ := m₁.set s (tableEntry new)
      match next m₂ (child (m₂.get s)) with
      | ((some pte, m₃), calls) => ((some pte, m₃), .get new :: calls)
      | ((none, m₃), calls) =>
        ((none, (pallocFreePage m₃ (child (m₃.get s))).set s 0), .get new :: calls ++ [.free (child (m₃.get s))])
  else ((none, m), [])

def tracedPdpeWalk (m : Mem) (t va : U64) (create : Bool) : Traced :=
  tracedVia (fun m t => tracedPgdirWalk m t va create) m ⟨t, pdpe va⟩ create

def tracedPml4eWalk (m : Mem) (t va : U64) (create : Bool) : Traced :=
  tracedVia (fun m t => tracedPdpeWalk m t va create) m ⟨t, pml4 va⟩ create

variable {create : Bool}

theorem tracedPgdirWalk_fst : (tracedPgdirWalk m t va create).1 = pgdirWalk m t va create := by
  simp only [tracedPgdirWalk, pgdirWalk]
  split
  · rfl
  · split
    · cases pallocGetPage m <;> rfl
    · rfl

theorem tracedVia_fst {next : Mem → U64 → Traced} {next' : Mem → U64 → Option Slot × Mem}
    (h : ∀ m t, (next m t).1 = next' m t) : (tracedVia next m sl create).1 = walkVia next' m sl create := by
  unfold tracedVia walkVia
  split
  · exact h _ _
  · split
    · cases pallocGetPage m with
      | none => rfl
      | some r =>
        simp only [← h]
        generalize next _ _ = res
        obtain ⟨⟨_ | pte, m₃⟩, calls⟩ := res <;> rfl
    · rfl

/-- The traced walk is the walk. -/
theorem tracedPml4eWalk_fst : (tracedPml4eWalk m t va create).1 = pml4eWalk m t va create :=
  tracedVia_fst fun _ _ => tracedVia_fst fun _ _ => tracedPgdirWalk_fst

/-! ## Cutting a table off again -/

/-- The tree is what it was, and so is what `palloc` has; the pages that were
got, all of them `palloc`'s, have been freed, each once. -/
structure RolledBack (m : Mem) (t : U64) (m' : Mem) (calls : List PageCall) : Prop where
  same : ∀ q, q.length ≤ 4 → table m' t q = table m t q
  pool : m'.pool.Perm m.pool
  mem_pool : ∀ a, .get a ∈ calls → a ∈ m.pool
  freed : ∀ a, calls.count (.free a) = calls.count (.get a)
  once : ∀ a, calls.count (.get a) ≤ 1

theorem RolledBack.refl : RolledBack m t m [] :=
  ⟨fun _ _ => rfl, .refl _, by simp, fun _ => rfl, fun _ => Nat.zero_le 1⟩

theorem RolledBack.wellFormed {calls : List PageCall} (w : WellFormed m t) (h : RolledBack m t m' calls) :
    WellFormed m' t where
  tree p q u hp hq hpu hqu := by
    have hsame (r) (hr : r.length ≤ 3) : Radix.node leads m'.entries t r = Radix.node leads m.entries t r :=
      h.same r (by omega)
    rw [hsame p hp] at hpu
    rw [hsame q hq] at hqu
    exact w.tree p q u hp hq hpu hqu
  root_aligned := w.root_aligned
  fresh a ha p hp := by
    rw [h.same p (by omega)]
    exact w.fresh a (h.pool.mem_iff.mp ha) p hp
  nodup := h.pool.nodup_iff.mpr w.nodup
  aligned a ha := w.aligned a (h.pool.mem_iff.mp ha)

/-- The table behind an entry is freed and the entry cleared: the paths over the
entry lead nowhere. -/
theorem table_cut (tr : Radix.Tree leads m.entries t 3) (hs : table m t p = some sl.table) (hlen : p.length < 3)
    (ha : leads (m.get sl) = some a) :
    ∀ q, q.length ≤ 4 →
      table ((pallocFreePage m a).set sl 0) t q = if p ++ [sl.idx] <+: q then none else table m t q := by
  have hna : table m t (p ++ [sl.idx]) = some a := by
    rw [table_concat, hs]
    exact ha
  have hfree {u : U64} (hu : u ≠ a) : (pallocFreePage m a).entries u = m.entries u := fill_entries_ne hu
  have hcut : Radix.Cut leads m.entries ((pallocFreePage m a).set sl 0).entries t 3 p sl.table sl.idx := by
    refine ⟨hs, hlen, ?_, fun q u j hq hu hqp huj => ?_⟩
    · have hget : ((pallocFreePage m a).set sl 0).entries sl.table sl.idx = 0 := get_set (s := sl)
      rw [hget, leads_zero]
    · have hne : u ≠ a := fun he => hqp (tr q _ u hq (by simp; omega) hu (he ▸ hna))
      rw [set_entries, if_neg fun hc => huj.elim (· hc.1) (· hc.2), hfree hne]
  exact hcut.node_eq tr

/-- A level that made a table for a walk that was rolled back frees it. -/
theorem RolledBack.undo {ps : List U64} {m₃ : Mem} {calls : List PageCall} (w : WellFormed m t) (sl : Slot)
    (hp : m.pool = a :: ps) (hs : table m t p = some sl.table) (hlen : p.length < 3) (habs : ¬ present (m.get sl) = true)
    (h : RolledBack ((Mem.fill { m with pool := ps } a 0).set sl (tableEntry a)) t m₃ calls) :
    child (m₃.get sl) = a ∧
      RolledBack m t ((pallocFreePage m₃ a).set sl 0) (.get a :: calls ++ [.free a]) := by
  obtain ⟨-, hnode⟩ := w.hang sl hp hs hlen habs
  obtain ⟨w₂, hat, -⟩ := w.grow sl hp hs hlen habs
  have hlen₁ : (p ++ [sl.idx]).length ≤ 3 := by simp; omega
  have hs₃ : table m₃ t p = some sl.table := by
    rw [h.same p (by omega), hnode p (by omega), if_neg (by simp), hs]
  have hat₃ : leads (m₃.get sl) = some a := by
    have := (h.same (p ++ [sl.idx]) (by omega)).trans hat
    rw [table_concat, hs₃] at this
    exact this
  have hchild : child (m₃.get sl) = a := by
    unfold leads at hat₃
    split at hat₃
    · exact Option.some.inj hat₃
    · cases hat₃
  have hnd : a ∉ ps := (List.nodup_cons.mp (hp ▸ w.nodup)).1
  have hnew : .get a ∉ calls := fun hc => hnd (h.mem_pool a hc)
  have hget : calls.count (.get a) = 0 := List.count_eq_zero.mpr hnew
  refine ⟨hchild, fun q hq => ?_, ?_, fun b hb => ?_, fun b => ?_, fun b => ?_⟩
  · rw [table_cut (h.wellFormed w₂).tree hs₃ hlen hat₃ q hq]
    split
    · rename_i hpre
      obtain ⟨r, rfl⟩ := hpre
      have hgone : table m t (p ++ [sl.idx]) = none := by
        rw [table_concat, hs]
        exact if_neg habs
      have happ : table m t (p ++ [sl.idx] ++ r) = (table m t (p ++ [sl.idx])).bind fun u => table m u r :=
        Radix.node_append
      rw [happ, hgone]
      rfl
    · rename_i hpre
      rw [h.same q hq, hnode q hq, if_neg fun he : q = p ++ [sl.idx] => hpre (he ▸ List.prefix_rfl)]
  · have hins : (m₃.pool.orderedInsert (fun a b => a.toNat ≤ b.toNat) a).Perm (a :: m₃.pool) :=
      List.perm_orderedInsert ..
    rw [hp]
    exact hins.trans (h.pool.cons a)
  · rw [hp]
    simp only [List.cons_append, List.mem_cons, List.mem_append, PageCall.get.injEq, List.not_mem_nil, or_false,
      reduceCtorEq] at hb
    rcases hb with rfl | hb
    · exact List.mem_cons_self
    · exact List.mem_cons_of_mem _ (h.mem_pool b hb)
  · have hb := h.freed b
    by_cases he : a = b
    · subst he
      simp [List.count_append, hget, hb]
    · simp [List.count_append, hb, he]
  · have hb := h.once b
    by_cases he : a = b
    · subst he
      simp [List.count_append, hget]
    · simpa [List.count_cons, List.count_append, he] using hb

/-! ## The walk -/

theorem tracedPgdirWalk_rolledBack (h : (tracedPgdirWalk m u va true).1.1 = none) :
    RolledBack m t (tracedPgdirWalk m u va true).1.2 (tracedPgdirWalk m u va true).2 := by
  unfold tracedPgdirWalk at h ⊢
  by_cases hpr : present (m.get ⟨u, pdx va⟩) = true
  · simp only [if_pos hpr, reduceCtorEq] at h
  · simp only [if_neg hpr, if_true] at h ⊢
    cases hpal : pallocGetPage m with
    | none => exact .refl
    | some r => simp only [hpal, reduceCtorEq] at h

/-- One level: what holds of the walk below holds of this one. -/
theorem tracedVia_rolledBack {next : Mem → U64 → Traced} (w : WellFormed m t) (sl : Slot)
    (hs : table m t p = some sl.table) (hlen : p.length < 3)
    (hnext : ∀ m u, WellFormed m t → table m t (p ++ [sl.idx]) = some u → (next m u).1.1 = none →
      RolledBack m t (next m u).1.2 (next m u).2)
    (h : (tracedVia next m sl true).1.1 = none) :
    RolledBack m t (tracedVia next m sl true).1.2 (tracedVia next m sl true).2 := by
  unfold tracedVia at h ⊢
  by_cases hpr : present (m.get sl) = true
  · simp only [if_pos hpr] at h ⊢
    refine hnext m _ w ?_ h
    rw [table_concat, hs]
    exact if_pos hpr
  · simp only [if_neg hpr, if_true] at h ⊢
    cases hpal : pallocGetPage m with
    | none => exact .refl
    | some r =>
      obtain ⟨a, m₁⟩ := r
      obtain ⟨ps, hp, rfl⟩ := pallocGetPage_eq_some.mp hpal
      obtain ⟨w₂, hfound, -⟩ := w.grow sl hp hs hlen hpr
      simp only [hpal, get_set, child_tableEntry (w.aligned a (by rw [hp]; exact List.mem_cons_self))] at h ⊢
      have hback := hnext _ a w₂ hfound
      generalize next _ a = res at h hback ⊢
      obtain ⟨⟨_ | pte, m₃⟩, calls⟩ := res
      · obtain ⟨hchild, hundo⟩ := (hback rfl).undo w sl hp hs hlen hpr
        simp only [hchild]
        exact hundo
      · cases h

theorem tracedPml4eWalk_rolledBack (w : WellFormed m t) (h : (tracedPml4eWalk m t va true).1.1 = none) :
    RolledBack m t (tracedPml4eWalk m t va true).1.2 (tracedPml4eWalk m t va true).2 := by
  refine tracedVia_rolledBack (p := []) w _ rfl (by decide) (fun m u w hu h => ?_) h
  refine tracedVia_rolledBack (p := [pml4 va]) w ⟨u, pdpe va⟩ hu (by simp) (fun m u w hu h => ?_) h
  exact tracedPgdirWalk_rolledBack h

/-- After the calls, `m'` maps what `m` does, all the pages that were got have
been freed, and none of them hangs in the tree. The entries of the last level,
which name pages and not tables, lead where they did. -/
structure Undone (m : Mem) (t : U64) (m' : Mem) (calls : List PageCall) : Prop where
  pages : ∀ a, pml4GetPage m' t a = pml4GetPage m t a
  paths : ∀ q, q.length ≤ 4 → table m' t q = table m t q
  freed_once : ∀ a, .get a ∈ calls → calls.count (.get a) = 1 ∧ calls.count (.free a) = 1
  only_got : ∀ a, .free a ∈ calls → .get a ∈ calls
  unhung : ∀ a, .free a ∈ calls → ∀ q, q.length ≤ 3 → table m' t q ≠ some a

theorem RolledBack.undone {calls : List PageCall} (w : WellFormed m t) (h : RolledBack m t m' calls) :
    Undone m t m' calls := by
  have hgot (a) (ha : PageCall.free a ∈ calls) : PageCall.get a ∈ calls := by
    rw [← List.count_pos_iff, ← h.freed]
    exact List.count_pos_iff.mpr ha
  refine ⟨fun a => ?_, h.same, fun a ha => ?_, hgot, fun a ha q hq => ?_⟩
  · rw [pml4GetPage_eq, pml4GetPage_eq, h.same _ (by simp [path])]
  · have hone : calls.count (.get a) = 1 := Nat.le_antisymm (h.once a) (List.count_pos_iff.mpr ha)
    exact ⟨hone, (h.freed a).trans hone⟩
  · rw [h.same q (by omega)]
    exact w.fresh a (h.mem_pool a (hgot a ha)) q hq

/-- **A failed walk rolls back**, however many pages `palloc` has to give: if
`pml4e_walk` finds no page for a table (so that `pml4_set_page` returns false),
the tree maps what it did, and the tables made for it are freed, each once, and
hang nowhere. -/
theorem failed_walk_rolls_back (w : WellFormed m t) (va : U64) :
    (tracedPml4eWalk m t va true).1 = pml4eWalk m t va true ∧
      ((pml4eWalk m t va true).1 = none → Undone m t (pml4eWalk m t va true).2 (tracedPml4eWalk m t va true).2) ∧
      ∀ base kpage rw m', pml4SetPage m base t va kpage rw = some (false, m') →
        Undone m t m' (tracedPml4eWalk m t va true).2 := by
  have hfst : (tracedPml4eWalk m t va true).1 = pml4eWalk m t va true := tracedPml4eWalk_fst
  have hundone (h : (pml4eWalk m t va true).1 = none) :
      Undone m t (pml4eWalk m t va true).2 (tracedPml4eWalk m t va true).2 := by
    rw [← hfst] at h ⊢
    exact (tracedPml4eWalk_rolledBack w h).undone w
  refine ⟨hfst, hundone, fun base kpage rw m' h => ?_⟩
  unfold pml4SetPage at h
  split at h
  · generalize hwalk : pml4eWalk m t va true = res at h hundone
    obtain ⟨_ | pte, m₁⟩ := res
    · simp only [Option.some.injEq, Prod.mk.injEq, true_and] at h
      exact h ▸ hundone rfl
    · simp at h
  · cases h

/-- `smallPool` with two pages left. -/
def twoPages : Mem := { smallPool with pool := smallPool.pool.take 2 }

/-- The two upper tables are made and freed again. -/
theorem failed_walk_rolls_back_two : (tracedPml4eWalk twoPages 0x8004200000#64 0x400000#64 true).2 =
      [.get 0x8004100000#64, .get 0x8004101000#64, .free 0x8004101000#64, .free 0x8004100000#64] ∧
    Undone twoPages 0x8004200000#64 (pml4eWalk twoPages 0x8004200000#64 0x400000#64 true).2
      [.get 0x8004100000#64, .get 0x8004101000#64, .free 0x8004101000#64, .free 0x8004100000#64] := by
  have h := smallPool_wellFormed
  have hsub {a : U64} (ha : a ∈ twoPages.pool) : a ∈ smallPool.pool := List.mem_of_mem_take ha
  have w : WellFormed twoPages 0x8004200000#64 :=
    ⟨h.tree, h.root_aligned, fun a ha => h.fresh a (hsub ha), h.nodup.sublist (List.take_sublist ..),
      fun a ha => h.aligned a (hsub ha)⟩
  have hcalls : (tracedPml4eWalk twoPages 0x8004200000#64 0x400000#64 true).2 =
      [.get 0x8004100000#64, .get 0x8004101000#64, .free 0x8004101000#64, .free 0x8004100000#64] := by decide +kernel
  have hnone : (pml4eWalk twoPages 0x8004200000#64 0x400000#64 true).1 = none := by decide +kernel
  exact ⟨hcalls, hcalls ▸ (failed_walk_rolls_back w _).2.1 hnone⟩

end PintosKaist.Mmu
