/-
Going over a page table (`pml4_for_each` of `threads/mmu.c`). The four nested
loops build an address from their indices, and `pml4e_walk` takes it apart
again: `path (vaOf a b c d) = [a, b, c, d]`.

The upper three loops add `KERN_BASE` to an entry before they look at its flag
and its address; both come out as they would of the entry.
-/
import PintosKaist.Lib.Visit
import PintosKaist.Threads.MmuMap

namespace PintosKaist.Mmu

open Pte Visit

variable {σ : Type*} {m m' : Mem} {t u e pt : U64} {p : List (Fin 512)} {i a b c d : Fin 512} {s s' : σ} {pte : Slot}

/-- An index shifted to its place in an address. -/
def shifted (i : Fin 512) (shift : Nat) : U64 := BitVec.ofNat 64 i.val <<< shift

/-- The address `pt_for_each` makes of the four indices. -/
def vaOf (a b c d : Fin 512) : U64 := shifted a 39 ||| shifted b 30 ||| shifted c 21 ||| shifted d 12

/-- `pt_for_each`; `func` runs in a state that the memory is part of. -/
def ptForEach (mem : σ → Mem) (func : Slot → U64 → σ → Bool × σ) (a b c : Fin 512) (pt : U64) : σ → Bool × σ :=
  visit (fun i s =>
    let pte : Slot := ⟨pt, i⟩
    if present ((mem s).get pte) then func pte (vaOf a b c i) s else (true, s)) (List.finRange 512)

/-- The loop over a table of tables: `next` goes over the table behind an
entry. -/
def tableForEach (mem : σ → Mem) (next : Fin 512 → U64 → σ → Bool × σ) (t : U64) : σ → Bool × σ :=
  visit (fun i s =>
    let e := ptov ((mem s).entries t i)
    if present e then next i (pteAddr e) s else (true, s)) (List.finRange 512)

/-- `pgdir_for_each`. -/
def pgdirForEach (mem : σ → Mem) (func : Slot → U64 → σ → Bool × σ) (a b : Fin 512) : U64 → σ → Bool × σ :=
  tableForEach mem (ptForEach mem func a b)

/-- `pdp_for_each`. -/
def pdpForEach (mem : σ → Mem) (func : Slot → U64 → σ → Bool × σ) (a : Fin 512) : U64 → σ → Bool × σ :=
  tableForEach mem (pgdirForEach mem func a)

/-- `pml4_for_each`. -/
def pml4ForEach (mem : σ → Mem) (func : Slot → U64 → σ → Bool × σ) : U64 → σ → Bool × σ :=
  tableForEach mem (pdpForEach mem func)

/-! ## Addresses -/

theorem pteAddr_toNat : (pteAddr e).toNat = e.toNat - e.toNat % 4096 := pgRoundDown_toNat

/-- `KERN_BASE` is a page address: adding it and rounding down commute. -/
theorem pteAddr_ptov : pteAddr (ptov e) = child e := by
  have hk : kernBase.toNat = 0x8004000000 := rfl
  apply BitVec.eq_of_toNat_eq
  rw [pteAddr_toNat, child, ptov, ptov, BitVec.toNat_add, BitVec.toNat_add, pteAddr_toNat, hk]
  omega

theorem present_iff : present e = true ↔ e.toNat % 2 = 1 := by
  have hand : (e &&& pteP).toNat = e.toNat % 2 := by
    rw [BitVec.toNat_and]
    exact Nat.and_two_pow_sub_one_eq_mod _ 1
  have hz : (0#64).toNat = 0 := rfl
  unfold present
  rw [decide_eq_true_iff, ← BitVec.toNat_inj.ne, hand, hz]
  omega

/-- The flags come out of the sum as they went in. -/
theorem present_ptov : present (ptov e) = present e := by
  have hk : kernBase.toNat = 0x8004000000 := rfl
  rw [Bool.eq_iff_iff, present_iff, present_iff, ptov, BitVec.toNat_add, hk]
  omega

/-- An index goes below what is there. -/
theorem or_shifted_toNat (hi : U64) (i : Fin 512) (k : Nat) (h : hi.toNat % 2 ^ (k + 9) = 0) (hk : k ≤ 55) :
    (hi ||| shifted i k).toNat = hi.toNat + i.val * 2 ^ k := by
  have hlt : i.val * 2 ^ k < 2 ^ (k + 9) := by
    rw [Nat.pow_add, Nat.mul_comm]
    exact Nat.mul_lt_mul_of_pos_left i.isLt (Nat.two_pow_pos k)
  have hle : 2 ^ (k + 9) ≤ 2 ^ 64 := Nat.pow_le_pow_right (by decide) (by omega)
  have hs : (shifted i k).toNat = i.val * 2 ^ k := by
    have hi64 : i.val < 2 ^ 64 := by omega
    rw [shifted, BitVec.toNat_shiftLeft, BitVec.toNat_ofNat, Nat.mod_eq_of_lt hi64, Nat.shiftLeft_eq,
      Nat.mod_eq_of_lt (Nat.lt_of_lt_of_le hlt hle)]
  obtain ⟨x, hx⟩ := Nat.dvd_of_mod_eq_zero h
  rw [BitVec.toNat_or, hs, hx, Nat.two_pow_add_eq_or_of_lt hlt]

theorem vaOf_toNat : (vaOf a b c d).toNat = a.val * 2 ^ 39 + b.val * 2 ^ 30 + c.val * 2 ^ 21 + d.val * 2 ^ 12 := by
  have ha : (shifted a 39).toNat = a.val * 2 ^ 39 := by
    have := or_shifted_toNat 0#64 a 39 (by decide) (by decide)
    rwa [BitVec.zero_or, BitVec.toNat_ofNat, Nat.zero_mod, Nat.zero_add] at this
  have hb := or_shifted_toNat (shifted a 39) b 30 (by omega) (by decide)
  have hc := or_shifted_toNat (shifted a 39 ||| shifted b 30) c 21 (by omega) (by decide)
  have hd := or_shifted_toNat (shifted a 39 ||| shifted b 30 ||| shifted c 21) d 12 (by omega) (by decide)
  rw [vaOf, hd, hc, hb, ha]

/-- **The indices of an address made of four indices.** -/
theorem path_vaOf : path (vaOf a b c d) = [a, b, c, d] := by
  simp only [path, pml4, pdpe, pdx, ptx, List.cons.injEq, and_true, Fin.ext_iff, index_val, vaOf_toNat]
  omega

/-! ## What is visited -/

/-- The tables and the entries that map pages are those of `m`. -/
def SameTree (t : U64) (m m' : Mem) : Prop := ∀ p, p.length ≤ 4 → table m' t p = table m t p

/-- A call of the callback: the entry, and the address made for it. -/
abbrev Call := Slot × U64

def below {B : Type*} (m : Mem) (g : Fin 512 → U64 → List B) (t : U64) : List B :=
  Radix.below leads m.entries (List.finRange 512) g t

/-- The calls for a page table, for a page directory and so on up to a pml4:
those for the present entries, one after the other. -/
def ptCalls (m : Mem) (a b c : Fin 512) (pt : U64) : List Call :=
  below m (fun d _ => [(⟨pt, d⟩, vaOf a b c d)]) pt

def pgdirCalls (m : Mem) (a b : Fin 512) : U64 → List Call := below m (ptCalls m a b)

def pdpCalls (m : Mem) (a : Fin 512) : U64 → List Call := below m (pgdirCalls m a)

def pml4Calls (m : Mem) : U64 → List Call := below m (pdpCalls m)

theorem mem_ptCalls {x : Call} : x ∈ ptCalls m a b c pt ↔
    ∃ d, present (m.entries pt d) = true ∧ x = (⟨pt, d⟩, vaOf a b c d) := by
  unfold ptCalls below
  rw [Radix.mem_below List.mem_finRange]
  constructor
  · rintro ⟨d, u, hu, hx⟩
    obtain ⟨hpr, -⟩ := Option.ite_none_right_eq_some.mp hu
    exact ⟨d, hpr, List.mem_singleton.mp hx⟩
  · rintro ⟨d, hpr, rfl⟩
    exact ⟨d, _, if_pos hpr, List.mem_singleton_self _⟩

/-- There is a call for each present entry of a table three indices down. -/
theorem mem_pml4Calls {x : Call} : x ∈ pml4Calls m t ↔
    ∃ a b c, table m t [a, b, c] = some x.1.table ∧ present (m.get x.1) = true ∧ x.2 = vaOf a b c x.1.idx := by
  unfold pml4Calls pdpCalls pgdirCalls below
  simp only [Radix.mem_below List.mem_finRange, mem_ptCalls, table_cons]
  constructor
  · rintro ⟨a, u, hu, b, v, hv, c, w, hw, d, hpr, rfl⟩
    refine ⟨a, b, c, ?_, hpr, rfl⟩
    rw [hu, Option.bind_some, hv, Option.bind_some, hw]
    rfl
  · obtain ⟨⟨pt, d⟩, va⟩ := x
    rintro ⟨a, b, c, htab, hpr, hva⟩
    obtain ⟨u, hu, htab⟩ := Option.bind_eq_some_iff.mp htab
    obtain ⟨v, hv, htab⟩ := Option.bind_eq_some_iff.mp htab
    obtain ⟨w, hw, htab⟩ := Option.bind_eq_some_iff.mp htab
    obtain rfl : w = pt := Option.some.inj htab
    obtain rfl : va = vaOf a b c d := hva
    exact ⟨a, u, hu, b, v, hv, c, w, hw, d, hpr, rfl⟩

/-- The calls for what `p` leads to, in the order of their paths. -/
structure Under (p : List (Fin 512)) (calls : List Call) : Prop where
  inOrder : calls.Pairwise fun x y => path x.2 < path y.2
  starts : ∀ x ∈ calls, p <+: path x.2

theorem below_under {g : Fin 512 → U64 → List Call} (hg : ∀ i u, Under (p ++ [i]) (g i u)) : Under p (below m g t) := by
  constructor
  · refine Radix.below_pairwise (List.pairwise_lt_finRange 512) (fun i u _ => (hg i u).inOrder) ?_
    intro i j u v hij x hx y hy
    obtain ⟨q, hq⟩ := (hg i u).starts x hx
    obtain ⟨r, hr⟩ := (hg j v).starts y hy
    rw [← hq, ← hr, List.append_assoc, List.append_assoc]
    exact List.append_left_lt (List.cons_lt_cons_iff.mpr (.inl hij))
  · intro x hx
    obtain ⟨i, u, -, hx⟩ := (Radix.mem_below List.mem_finRange).mp hx
    exact (List.prefix_append p [i]).trans ((hg i u).starts x hx)

theorem pml4Calls_under : Under [] (pml4Calls m t) := by
  refine below_under fun a u => below_under fun b v => below_under fun c w => below_under fun d _ => ?_
  refine ⟨List.pairwise_singleton _ _, fun x hx => ?_⟩
  obtain rfl := List.mem_singleton.mp hx
  rw [path_vaOf]
  exact List.prefix_rfl

/-- An entry of the last level that is present. -/
def LastLevel (m : Mem) (t : U64) (pte : Slot) : Prop :=
  (∃ p, p.length = 3 ∧ table m t p = some pte.table) ∧ present (m.get pte) = true

/-- The calls go once to each present entry of the last level, in the order of
the indices, each with an address that is walked to it. -/
structure Enumerates (m : Mem) (t : U64) (calls : List Call) : Prop where
  entries : ∀ pte, pte ∈ calls.map Prod.fst ↔ LastLevel m t pte
  once : (calls.map Prod.fst).Nodup
  inOrder : calls.Pairwise fun x y => path x.2 < path y.2
  walks : ∀ x ∈ calls, ∀ m', SameTree t m m' → (pml4eWalk m' t x.2 false).1 = some x.1

/-- In a tree the entry tells the call. -/
theorem pml4Calls_inj (htree : Radix.Tree leads m.entries t 3) {x y : Call} (hx : x ∈ pml4Calls m t)
    (hy : y ∈ pml4Calls m t) (h : x.1 = y.1) : x = y := by
  obtain ⟨a, b, c, hxt, -, hxva⟩ := mem_pml4Calls.mp hx
  obtain ⟨a', b', c', hyt, -, hyva⟩ := mem_pml4Calls.mp hy
  have hpath := htree [a, b, c] [a', b', c'] x.1.table (Nat.le_refl 3) (Nat.le_refl 3) hxt (h ▸ hyt)
  simp only [List.cons.injEq, and_true] at hpath
  obtain ⟨rfl, rfl, rfl⟩ := hpath
  exact Prod.ext h (by rw [hxva, hyva, h])

theorem pml4Calls_enumerates (htree : Radix.Tree leads m.entries t 3) : Enumerates m t (pml4Calls m t) := by
  refine ⟨fun pte => ⟨fun h => ?_, fun h => ?_⟩, ?_, pml4Calls_under.inOrder, fun x hx m' hm => ?_⟩
  · obtain ⟨x, hx, rfl⟩ := List.mem_map.mp h
    obtain ⟨a, b, c, htab, hpr, -⟩ := mem_pml4Calls.mp hx
    exact ⟨⟨[a, b, c], rfl, htab⟩, hpr⟩
  · obtain ⟨⟨p, hlen, htab⟩, hpr⟩ := h
    obtain ⟨a, b, c, rfl⟩ := List.length_eq_three.mp hlen
    exact List.mem_map.mpr ⟨(pte, vaOf a b c pte.idx), mem_pml4Calls.mpr ⟨a, b, c, htab, hpr, rfl⟩, rfl⟩
  · refine List.Nodup.map_on (fun x hx y hy => pml4Calls_inj htree hx hy) ?_
    exact pml4Calls_under.inOrder.imp fun {x y} h he => absurd (he ▸ h) (List.lt_irrefl _)
  · obtain ⟨a, b, c, htab, -, hva⟩ := mem_pml4Calls.mp hx
    have hpath : path x.2 = [a, b, c, x.1.idx] := by rw [hva, path_vaOf]
    simp only [path, List.cons.injEq, and_true] at hpath
    obtain ⟨h4, h3, h2, h1⟩ := hpath
    show lookup m' t x.2 = some x.1
    rw [lookup_table, h4, h3, h2, h1, hm [a, b, c] (by simp), htab]
    rfl

/-! ## The visit -/

theorem ptForEach_eq (mem : σ → Mem) (func : Slot → U64 → σ → Bool × σ) :
    ptForEach mem func a b c pt = visit (fun d s =>
      (leads ((mem s).entries pt d)).elim (true, s) fun _ => func ⟨pt, d⟩ (vaOf a b c d) s) (List.finRange 512) := by
  refine congrArg (visit · _) (funext fun d => funext fun s => ?_)
  show (if present ((mem s).entries pt d) = true then _ else _) = _
  unfold leads
  split
  · rfl
  · rfl

theorem tableForEach_eq (mem : σ → Mem) (next : Fin 512 → U64 → σ → Bool × σ) :
    tableForEach mem next t = visit (fun i s =>
      (leads ((mem s).entries t i)).elim (true, s) fun u => next i u s) (List.finRange 512) := by
  refine congrArg (visit · _) (funext fun i => funext fun s => ?_)
  simp only [present_ptov, pteAddr_ptov]
  unfold leads
  split
  · rfl
  · rfl

/-- Where an entry of a table of the tree leads, in a tree that is the same. -/
theorem SameTree.leads_eq (h : SameTree t m m') (hp : table m t p = some u) (hlen : p.length ≤ 3) :
    leads (m'.entries u i) = leads (m.entries u i) := by
  have hnode := h (p ++ [i]) (by rw [List.length_append, List.length_singleton]; omega)
  rwa [table_concat, table_concat, h p (by omega), hp, Option.bind_some, Option.bind_some] at hnode

/-- One loop: where the loop below goes through its calls, this one goes
through those of all its entries. -/
theorem visit_table {next : Fin 512 → U64 → σ → Bool × σ} {func : Slot → U64 → σ → Bool × σ} {mem : σ → Mem}
    {g : Fin 512 → U64 → List Call} {root : U64} {m : Mem}
    (hfunc : ∀ pte va s, SameTree root m (mem s) → SameTree root m (mem (func pte va s).2))
    (hnext : ∀ i u s, table m root (p ++ [i]) = some u → SameTree root m (mem s) →
      next i u s = visit (fun x => func x.1 x.2) (g i u) s)
    (hp : table m root p = some t) (hlen : p.length ≤ 3) (hs : SameTree root m (mem s)) :
    visit (fun i s => (leads ((mem s).entries t i)).elim (true, s) fun u => next i u s) (List.finRange 512) s =
      visit (fun x => func x.1 x.2) (below m g t) s := by
  unfold below Radix.below
  refine visit_flatMap (fun i _ s hs => ?_) (fun x s => hfunc x.1 x.2 s) hs
  rw [hs.leads_eq hp hlen]
  cases hl : leads (m.entries t i) with
  | none => rfl
  | some u => exact hnext i u s (by rw [table_concat, hp, Option.bind_some, hl]) hs

/-- The four loops go through the calls for the tree as it was. -/
theorem pml4ForEach_eq {func : Slot → U64 → σ → Bool × σ} {mem : σ → Mem}
    (hfunc : ∀ pte va s', SameTree t (mem s) (mem s') → SameTree t (mem s) (mem (func pte va s').2)) :
    pml4ForEach mem func t s = visit (fun x => func x.1 x.2) (pml4Calls (mem s) t) s := by
  unfold pml4ForEach
  rw [tableForEach_eq]
  refine visit_table (p := []) hfunc (fun a u s₁ hu hs₁ => ?_) rfl (by decide) fun _ _ => rfl
  unfold pdpForEach
  rw [tableForEach_eq]
  refine visit_table (p := [a]) hfunc (fun b v s₂ hv hs₂ => ?_) hu (by simp) hs₁
  unfold pgdirForEach
  rw [tableForEach_eq]
  refine visit_table (p := [a, b]) hfunc (fun c w s₃ hw hs₃ => ?_) hv (by simp) hs₂
  rw [ptForEach_eq]
  exact visit_table (p := [a, b, c]) hfunc (fun d x s₄ _ _ => visit_singleton.symm) hw (by simp) hs₃

/-- **What `pml4_for_each` calls.** In a tree of tables, with a callback that
leaves the tree as it is: `func` for each present entry of the last level, once
and in the order of the indices, with an address that `pml4e_walk` walks to the
entry; up to the first call that returns false, and then it returns false. -/
theorem pml4_for_each_enumerates {σ : Type*} (mem : σ → Mem) (func : Slot → U64 → σ → Bool × σ) (t : U64) (s : σ)
    (htree : Radix.Tree leads (mem s).entries t 3)
    (hfunc : ∀ pte va s', SameTree t (mem s) (mem s') → SameTree t (mem s) (mem (func pte va s').2)) :
    ∃ calls, Enumerates (mem s) t calls ∧ Ends (fun x => func x.1 x.2) calls s (pml4ForEach mem func t s) := by
  refine ⟨pml4Calls (mem s) t, pml4Calls_enumerates htree, ?_⟩
  rw [pml4ForEach_eq hfunc]
  exact visit_ends _ _ _

/-- A callback that takes down its calls, and is done after `n` of them. -/
def note (n : Nat) (pte : Slot) (va : U64) (s : Mem × List Call) : Bool × Mem × List Call :=
  (decide (s.2.length + 1 < n), s.1, s.2 ++ [(pte, va)])

/-- The table of one page in a pool of eight pages. -/
theorem pml4_for_each_enumerates_small :
    ∃ m, pml4SetPage smallPool 0#64 0x8004200000#64 0x400000#64 0x8004300000#64 true = some (true, m) ∧
      ∃ calls, Enumerates m 0x8004200000#64 calls ∧
        Ends (fun x => note 1 x.1 x.2) calls (m, []) (pml4ForEach Prod.fst (note 1) 0x8004200000#64 (m, [])) := by
  obtain ⟨⟨b, m⟩, hset, hb⟩ := (Option.any_eq_true _ _).mp (show
    (pml4SetPage smallPool 0#64 0x8004200000#64 0x400000#64 0x8004300000#64 true).any (fun r => r.1) = true by
      decide +kernel)
  obtain rfl : b = true := hb
  exact ⟨m, hset, pml4_for_each_enumerates Prod.fst (note 1) 0x8004200000#64 (m, [])
    (pml4SetPage_map smallPool_wellFormed hset).1.tree fun _ _ _ h => h⟩

example : (pml4SetPage smallPool 0#64 0x8004200000#64 0x400000#64 0x8004300000#64 true).map (fun r =>
    let (ok, _, calls) := pml4ForEach Prod.fst (note 2) 0x8004200000#64 (r.2, [])
    (ok, calls.map Prod.snd)) = some (true, [0x400000#64]) := by
  decide +kernel

end PintosKaist.Mmu
