/-
The page allocator: `threads/palloc.c`. Addresses and sizes are the numbers of
a `uint64_t`. The locks are left out: a request is over before the next begins.

A grant is a run of pages that has been given out and not been freed. Over any
requests the grants are disjoint and in their pools, and the pages in use are
those that were at the start and those of the grants.
-/
import PintosKaist.Lib.Extents
import PintosKaist.LibKernel.Bitmap
import Mathlib.Order.CompletePartialOrder
import Mathlib.Order.Interval.Set.Disjoint

namespace PintosKaist.Threads.Palloc

open PintosKaist.LibKernel

abbrev Memory := Nat → BitVec 8

/-- `memset`. -/
def memset (mem : Memory) (p : Nat) (v : BitVec 8) (size : Nat) : Memory :=
  fun x => if p ≤ x ∧ x < p + size then v else mem x

/-- The numbers of a `uint64_t`. -/
def u64 : Nat := 2 ^ 64

/-- `PGSIZE`. -/
def pgSize : Nat := 4096

/-- `KERN_BASE`. -/
def kernBase : Nat := 0x8004000000

/-- `pg_no`. -/
def pgNo (va : Nat) : Nat := va / pgSize

/-- `pg_ofs`. -/
def pgOfs (va : Nat) : Nat := va % pgSize

/-- `enum palloc_flags`. -/
structure Flags where
  assert : Bool
  zero : Bool
  user : Bool
deriving DecidableEq

/-- `struct pool`, without its lock. -/
structure Pool where
  usedMap : PackedBitmap
  base : Nat

/-- `kernel_pool`, `user_pool`, and what the pages hold. -/
structure Pools where
  kernelPool : Pool
  userPool : Pool
  mem : Memory

/-- The user pool, or the kernel's. -/
def Pools.pool (ps : Pools) (user : Bool) : Pool := if user then ps.userPool else ps.kernelPool

def Pools.setMap (ps : Pools) (user : Bool) (map : PackedBitmap) : Pools :=
  if user then { ps with userPool := { ps.userPool with usedMap := map } }
  else { ps with kernelPool := { ps.kernelPool with usedMap := map } }

/-- How the kernel stops. -/
inductive Stop where
  /-- A failed assertion, or `NOT_REACHED`. -/
  | assertion
  /-- `PANIC ("palloc_get: out of pages")`. -/
  | outOfPages
deriving DecidableEq

/-- What an assertion may have stopped. -/
def asserted {α : Type} : Option α → Except Stop α
  | some x => .ok x
  | none => .error .assertion

/-- `page_from_pool`. -/
def pageFromPool (pool : Pool) (page : Nat) : Bool :=
  pgNo pool.base ≤ pgNo page && pgNo page < (pgNo pool.base + bitmapSize pool.usedMap) % u64

/-- The pool that a page is in: false is the kernel's. -/
def poolOf (ps : Pools) (page : Nat) : Option Bool :=
  if pageFromPool ps.kernelPool page then some false
  else if pageFromPool ps.userPool page then some true
  else none

/-- `palloc_get_multiple`. The answer 0 is NULL. -/
def pallocGetMultiple (ps : Pools) (flags : Flags) (pageCnt : Nat) : Except Stop (Nat × Pools) := do
  let pool := ps.pool flags.user
  let (pageIdx, map) ← asserted (bitmapScanAndFlip pool.usedMap 0 pageCnt false)
  let ps := ps.setMap flags.user map
  let pages := if pageIdx ≠ bitmapError then (pool.base + pgSize * pageIdx) % u64 else 0
  if pages ≠ 0 then
    .ok (pages, if flags.zero then { ps with mem := memset ps.mem pages 0 (pgSize * pageCnt % u64) } else ps)
  else if flags.assert then .error .outOfPages
  else .ok (0, ps)

/-- The end of `palloc_free_multiple`, which has found the pool. -/
def freeIn (ps : Pools) (user : Bool) (pages pageCnt : Nat) : Except Stop Pools := do
  let pool := ps.pool user
  let pageIdx := pgNo pages - pgNo pool.base
  let ps := { ps with mem := memset ps.mem pages 0xcc (pgSize * pageCnt % u64) }
  if ← asserted (bitmapAll pool.usedMap pageIdx pageCnt) then
    let map ← asserted (bitmapSetMultiple pool.usedMap pageIdx pageCnt false)
    .ok (ps.setMap user map)
  else .error .assertion

/-- `palloc_free_multiple`. -/
def pallocFreeMultiple (ps : Pools) (pages pageCnt : Nat) : Except Stop Pools :=
  if pgOfs pages ≠ 0 then .error .assertion
  else if pages = 0 ∨ pageCnt = 0 then .ok ps
  else
    match poolOf ps pages with
    | some user => freeIn ps user pages pageCnt
    | none => .error .assertion

/-! ## The allocator and its callers -/

/-- A run of pages that is out, and the pool it was asked from. -/
structure Grant where
  addr : Nat
  cnt : Nat
  user : Bool
deriving DecidableEq

structure Sys where
  pools : Pools
  live : List Grant

inductive Event where
  | get (flags : Flags) (pageCnt : Nat)
  | free (pages pageCnt : Nat)

def step (s : Sys) : Event → Option Sys
  | .get flags pageCnt =>
    match pallocGetMultiple s.pools flags pageCnt with
    | .ok (pages, ps) => some ⟨ps, if pages = 0 then s.live else ⟨pages, pageCnt, flags.user⟩ :: s.live⟩
    | .error _ => none
  | .free pages pageCnt =>
    match pallocFreeMultiple s.pools pages pageCnt with
    | .ok ps => some ⟨ps, s.live.eraseP fun r => r.addr = pages ∧ r.cnt = pageCnt⟩
    | .error _ => none

/-- What the callers keep to: a request is for at least one page, and what is
freed has been got and not been freed. -/
def Permitted (s : Sys) : Event → Prop
  | .get _ pageCnt => 1 ≤ pageCnt ∧ pageCnt < u64
  | .free pages pageCnt => ∃ r ∈ s.live, r.addr = pages ∧ r.cnt = pageCnt

instance (s : Sys) : (e : Event) → Decidable (Permitted s e)
  | .get .. => inferInstanceAs (Decidable (_ ∧ _))
  | .free pages pageCnt => inferInstanceAs (Decidable (∃ r ∈ s.live, r.addr = pages ∧ r.cnt = pageCnt))

/-- The numbers of the pages. -/
def Grant.pages (r : Grant) : Set Nat := Set.Ico (pgNo r.addr) (pgNo r.addr + r.cnt)

def Pool.pages (p : Pool) : Set Nat := Set.Ico (pgNo p.base) (pgNo p.base + p.usedMap.bitCnt)

/-- The numbers of the pages that are in use. -/
def Pools.used (ps : Pools) : Set Nat :=
  {n | ∃ user, ∃ x < (ps.pool user).usedMap.bitCnt,
    n = pgNo (ps.pool user).base + x ∧ (ps.pool user).usedMap.toBitmap.bit x = true}

/-- Each pool is a run of whole pages in kernel memory, and they have no page
in common. -/
structure Pools.Ok (ps : Pools) : Prop where
  aligned : ∀ user, pgOfs (ps.pool user).base = 0
  kernel : ∀ user, kernBase ≤ (ps.pool user).base
  fits : ∀ user, (ps.pool user).base + pgSize * (ps.pool user).usedMap.bitCnt ≤ u64
  apart : Disjoint ps.kernelPool.pages ps.userPool.pages

/-- The grants are disjoint and in their pools, and their pages are those that
have come into use since `ps₀`. -/
structure Safe (ps₀ : Pools) (s : Sys) : Prop where
  apart : s.live.Pairwise fun r r' => Disjoint r.pages r'.pages
  inside : ∀ r ∈ s.live, r.pages ⊆ (s.pools.pool r.user).pages
  since : s.pools.used \ ps₀.used = {n | ∃ r ∈ s.live, n ∈ r.pages}
  kept : ps₀.used ⊆ s.pools.used

/-- A request gets the lowest free run of its length in the pool, and fails
only if there is none. -/
def Serves (ps : Pools) (flags : Flags) (pageCnt : Nat) : Prop :=
  let pool := ps.pool flags.user
  (∃ i ps', Lowest pool.usedMap 0 pageCnt false i ∧ pallocGetMultiple ps flags pageCnt = .ok (pool.base + pgSize * i, ps')) ∨
    (∀ i, ¬ pool.usedMap.toBitmap.Holds i pageCnt false) ∧
      pallocGetMultiple ps flags pageCnt = if flags.assert then .error .outOfPages else .ok (0, ps)

variable {ps ps₀ ps' : Pools} {s s' : Sys} {user : Bool} {flags : Flags} {r : Grant} {map : PackedBitmap} {i n cnt p : Nat} {v : Bool}

/-! ## The pools -/

@[simp] theorem pool_setMap (ps : Pools) (user user' : Bool) (map : PackedBitmap) :
    (ps.setMap user map).pool user' = if user' = user then { ps.pool user with usedMap := map } else ps.pool user' := by
  cases user <;> cases user' <;> rfl

theorem pgNo_add (base i : Nat) : pgNo (base + pgSize * i) = pgNo base + i :=
  Nat.add_mul_div_left base i (by decide)

/-- Two pools of the same places. -/
def SamePlaces (ps ps' : Pools) : Prop :=
  ∀ user, (ps'.pool user).base = (ps.pool user).base ∧ (ps'.pool user).usedMap.bitCnt = (ps.pool user).usedMap.bitCnt

theorem SamePlaces.refl (ps : Pools) : SamePlaces ps ps := fun _ => ⟨rfl, rfl⟩

theorem SamePlaces.trans {ps'' : Pools} (h : SamePlaces ps ps') (h' : SamePlaces ps' ps'') : SamePlaces ps ps'' :=
  fun user => ⟨(h' user).1.trans (h user).1, (h' user).2.trans (h user).2⟩

theorem SamePlaces.pages (h : SamePlaces ps ps') (user : Bool) : (ps'.pool user).pages = (ps.pool user).pages := by
  unfold Pool.pages
  rw [(h user).1, (h user).2]

theorem SamePlaces.ok (h : SamePlaces ps ps') (hp : ps.Ok) : ps'.Ok where
  aligned user := (h user).1 ▸ hp.aligned user
  kernel user := (h user).1 ▸ hp.kernel user
  fits user := by
    rw [(h user).1, (h user).2]
    exact hp.fits user
  apart := by
    have hk := h.pages false
    have hu := h.pages true
    exact hk ▸ hu ▸ hp.apart

/-- A page is in one pool at most. -/
theorem Pools.Ok.unique (hp : ps.Ok) {user user' : Bool} (h : n ∈ (ps.pool user).pages) (h' : n ∈ (ps.pool user').pages) :
    user = user' := by
  cases user <;> cases user'
  case false.true => exact absurd h' (Set.disjoint_left.mp hp.apart h)
  case true.false => exact absurd h (Set.disjoint_left.mp hp.apart h')
  all_goals rfl

theorem mem_used (hp : ps.Ok) (hn : n ∈ (ps.pool user).pages) :
    n ∈ ps.used ↔ (ps.pool user).usedMap.toBitmap.bit (n - pgNo (ps.pool user).base) = true := by
  constructor
  · rintro ⟨user', x, hx, rfl, hbit⟩
    obtain rfl := hp.unique hn ⟨Nat.le_add_right _ x, Nat.add_lt_add_left hx _⟩
    rwa [Nat.add_sub_cancel_left]
  · intro hbit
    obtain ⟨hle, hlt⟩ := hn
    exact ⟨user, _, by omega, (Nat.add_sub_cancel' hle).symm, hbit⟩

theorem used_pages (hn : n ∈ ps.used) : ∃ user, n ∈ (ps.pool user).pages := by
  obtain ⟨user, x, hx, rfl, -⟩ := hn
  exact ⟨user, Nat.le_add_right _ x, Nat.add_lt_add_left hx _⟩

/-- The pages of a run of a pool. -/
def Pools.runPages (ps : Pools) (user : Bool) (i cnt : Nat) : Set Nat :=
  Set.Ico (pgNo (ps.pool user).base + i) (pgNo (ps.pool user).base + i + cnt)

theorem runPages_subset (hfit : i + cnt ≤ (ps.pool user).usedMap.bitCnt) :
    ps.runPages user i cnt ⊆ (ps.pool user).pages := by
  intro n hn
  obtain ⟨hle, hlt⟩ := Set.mem_Ico.mp hn
  exact ⟨by omega, by omega⟩

theorem pages_grant (ps : Pools) (user : Bool) (i cnt : Nat) :
    Grant.pages ⟨(ps.pool user).base + pgSize * i, cnt, user⟩ = ps.runPages user i cnt := by
  unfold Grant.pages Pools.runPages
  rw [pgNo_add]

theorem samePlaces_setMap (hmap : map.bitCnt = (ps.pool user).usedMap.bitCnt) : SamePlaces ps (ps.setMap user map) := by
  intro user'
  rw [pool_setMap]
  split
  · subst user'
    exact ⟨rfl, hmap⟩
  · exact ⟨rfl, rfl⟩

/-- Setting a run in a used map sets its pages, and no others. -/
theorem used_setMap (hp : ps.Ok) (hfit : i + cnt ≤ (ps.pool user).usedMap.bitCnt)
    (hmap : map.toBitmap = (ps.pool user).usedMap.toBitmap.setMultiple i cnt v) :
    n ∈ (ps.setMap user map).used ↔
      n ∈ ps.runPages user i cnt ∧ v = true ∨ n ∉ ps.runPages user i cnt ∧ n ∈ ps.used := by
  have hsame : SamePlaces ps (ps.setMap user map) := samePlaces_setMap (congrArg Bitmap.size hmap)
  have hsub : ps.runPages user i cnt ⊆ (ps.pool user).pages := runPages_subset hfit
  by_cases hpg : ∃ user', n ∈ (ps.pool user').pages
  · obtain ⟨user', hn⟩ := hpg
    rw [mem_used (hsame.ok hp) ((hsame.pages user').symm ▸ hn), mem_used hp hn, (hsame user').1, pool_setMap]
    by_cases hu : user' = user
    · subst user'
      rw [if_pos rfl, hmap, Bitmap.setMultiple_bit]
      have hle := hn.1
      by_cases hin : n ∈ ps.runPages user i cnt
      · have hrange := Set.mem_Ico.mp hin
        rw [if_pos (by omega)]
        simp only [hin, true_and, not_true_eq_false, false_and, or_false]
      · have hrange := mt Set.mem_Ico.mpr hin
        rw [if_neg (by omega)]
        simp only [hin, false_and, not_false_eq_true, true_and, false_or]
    · have hin : n ∉ ps.runPages user i cnt := fun hin => hu (hp.unique hn (hsub hin))
      rw [if_neg hu]
      simp only [hin, false_and, not_false_eq_true, true_and, false_or]
  · have hin : n ∉ ps.runPages user i cnt := fun hin => hpg ⟨user, hsub hin⟩
    have hno : n ∉ (ps.setMap user map).used := fun hin => by
      obtain ⟨user', hn⟩ := used_pages hin
      exact hpg ⟨user', hsame.pages user' ▸ hn⟩
    simp only [hin, hno, false_and, not_false_eq_true, true_and, false_or, false_iff]
    exact fun hin => hpg (used_pages hin)

/-! ## A request -/

/-- The address of a page of a pool. -/
theorem page_addr (hp : ps.Ok) (hi : i < (ps.pool user).usedMap.bitCnt) :
    ((ps.pool user).base + pgSize * i) % u64 = (ps.pool user).base + pgSize * i ∧
      (ps.pool user).base + pgSize * i ≠ 0 := by
  have hmul : pgSize * (i + 1) ≤ pgSize * (ps.pool user).usedMap.bitCnt := Nat.mul_le_mul_left _ hi
  have hpos : 0 < pgSize := by decide
  have hk : 0 < kernBase := by decide
  have hbase := hp.kernel user
  have hfits := hp.fits user
  rw [Nat.mul_add, Nat.mul_one] at hmul
  exact ⟨Nat.mod_eq_of_lt (by omega), by omega⟩

/-- What a request does to the pools. -/
inductive Gets (ps : Pools) (flags : Flags) (cnt : Nat) : Except Stop (Nat × Pools) → Prop
  | run {i : Nat} {map : PackedBitmap} {mem : Memory} (hi : Lowest (ps.pool flags.user).usedMap 0 cnt false i)
      (hne : i ≠ bitmapError)
      (hmap : map.toBitmap = (ps.pool flags.user).usedMap.toBitmap.setMultiple i cnt true) :
      Gets ps flags cnt (.ok ((ps.pool flags.user).base + pgSize * i, { ps.setMap flags.user map with mem := mem }))
  | fails (hno : Lowest (ps.pool flags.user).usedMap 0 cnt false bitmapError ∨
      ∀ i, ¬ (ps.pool flags.user).usedMap.toBitmap.Holds i cnt false) :
      Gets ps flags cnt (if flags.assert then .error .outOfPages else .ok (0, ps))

theorem setMap_self (ps : Pools) (user : Bool) : ps.setMap user (ps.pool user).usedMap = ps := by
  cases user <;> rfl

theorem pallocGetMultiple_gets (hp : ps.Ok) (flags : Flags) (hcnt : 1 ≤ cnt) :
    Gets ps flags cnt (pallocGetMultiple ps flags cnt) := by
  obtain ⟨j, map, hrun, hflips⟩ :=
    @bitmapScanAndFlip_eq (ps.pool flags.user).usedMap 0 cnt (Nat.zero_le _) false
  have hfail (he : j = bitmapError) (hmap : map = (ps.pool flags.user).usedMap) :
      pallocGetMultiple ps flags cnt = if flags.assert then .error .outOfPages else .ok (0, ps) := by
    subst he hmap
    simp only [pallocGetMultiple, hrun, asserted, bind, Except.bind, ne_eq, not_true_eq_false, if_false, setMap_self]
  cases hflips with
  | @found _ _ hj hne hmap =>
    have hsize : j + cnt ≤ (ps.pool flags.user).usedMap.bitCnt := hj.1.2.1
    obtain ⟨hmod, h0⟩ := page_addr hp (show j < (ps.pool flags.user).usedMap.bitCnt by omega)
    obtain ⟨mem, hget⟩ : ∃ mem, pallocGetMultiple ps flags cnt =
        .ok ((ps.pool flags.user).base + pgSize * j, { ps.setMap flags.user map with mem := mem }) := by
      simp only [pallocGetMultiple, hrun, asserted, bind, Except.bind, ne_eq, hne, not_false_eq_true, if_true, hmod, h0]
      split
      · exact ⟨_, rfl⟩
      · exact ⟨_, rfl⟩
    rw [hget]
    exact .run hj hne hmap
  | mistaken hj => exact hfail rfl rfl ▸ .fails (.inl hj)
  | nothing hno => exact hfail rfl rfl ▸ .fails (.inr fun i => hno i (Nat.zero_le i))

/-- A request is served unless the run that it would get starts at the number
that stands for none. -/
theorem serves_iff (hp : ps.Ok) (flags : Flags) (hcnt : 1 ≤ cnt) :
    Serves ps flags cnt ↔ ¬ Lowest (ps.pool flags.user).usedMap 0 cnt false bitmapError := by
  have hgets := pallocGetMultiple_gets hp flags hcnt
  unfold Serves
  generalize pallocGetMultiple ps flags cnt = res at hgets
  cases hgets with
  | run hi hne hmap =>
    exact ⟨fun _ hno => hne (hi.unique hno), fun _ => .inl ⟨_, _, hi, rfl⟩⟩
  | fails hno =>
    constructor
    · rintro (⟨i, ps', hi, hrun⟩ | ⟨hnone, -⟩) hlow
      · -- a run that is got has an address
        have hsize : i + cnt ≤ (ps.pool flags.user).usedMap.bitCnt := hi.1.2.1
        have h0 := (page_addr hp (show i < (ps.pool flags.user).usedMap.bitCnt by omega)).2
        split at hrun
        · cases hrun
        · obtain ⟨he, -⟩ := by simpa using hrun
          omega
      · exact hnone _ hlow.1.2
    · exact fun hlow => .inr ⟨hno.resolve_left hlow, rfl⟩

/-! ## Runs -/

structure Inv (ps₀ : Pools) (s : Sys) : Prop where
  same : SamePlaces ps₀ s.pools
  out : Extents.Out ps₀.used s.pools.used (s.live.map Grant.pages)
  grants : ∀ r ∈ s.live, pgOfs r.addr = 0 ∧ r.addr ≠ 0 ∧ 1 ≤ r.cnt ∧ r.pages ⊆ (s.pools.pool r.user).pages

theorem Inv.start (ps₀ : Pools) : Inv ps₀ ⟨ps₀, []⟩ := ⟨.refl ps₀, .nil _, fun _ hq => by cases hq⟩

theorem Inv.safe (hI : Inv ps₀ s) : Safe ps₀ s where
  apart := List.pairwise_map.mp hI.out.apart
  inside r hr := (hI.grants r hr).2.2.2
  since := by
    rw [hI.out.since]
    ext n
    simp
  kept := hI.out.kept

/-- A run that was clear is taken. -/
theorem Inv.take (hp : ps₀.Ok) (hI : Inv ps₀ s) {mem : Memory} (hcnt : 1 ≤ cnt)
    (hfree : (s.pools.pool user).usedMap.toBitmap.Holds i cnt false)
    (hmap : map.toBitmap = (s.pools.pool user).usedMap.toBitmap.setMultiple i cnt true) :
    Inv ps₀ ⟨{ s.pools.setMap user map with mem := mem }, ⟨(s.pools.pool user).base + pgSize * i, cnt, user⟩ :: s.live⟩ := by
  have hok := hI.same.ok hp
  have hsize : i + cnt ≤ (s.pools.pool user).usedMap.bitCnt := hfree.1
  have hsame : SamePlaces s.pools (s.pools.setMap user map) := samePlaces_setMap (congrArg Bitmap.size hmap)
  have hdis : Disjoint (s.pools.runPages user i cnt) s.pools.used := by
    refine Set.disjoint_left.mpr fun n hn hu => ?_
    have hbit := (mem_used hok (runPages_subset hsize hn)).mp hu
    obtain ⟨hle, hlt⟩ := Set.mem_Ico.mp hn
    rw [hfree.2 _ (by omega) (by omega)] at hbit
    cases hbit
  refine ⟨hI.same.trans hsame, ?_, fun q hq => ?_⟩
  · have hused : (s.pools.setMap user map).used = s.pools.used ∪ s.pools.runPages user i cnt := by
      ext n
      have hcases := @Set.disjoint_left.mp hdis n
      rw [used_setMap hok hsize hmap, Set.mem_union]
      tauto
    rw [List.map_cons, pages_grant]
    exact hused ▸ hI.out.take hdis
  · obtain rfl | hq := List.mem_cons.mp hq
    · have hal : pgOfs ((s.pools.pool user).base + pgSize * i) = 0 := by
        have hbase := hok.aligned user
        unfold pgOfs at hbase ⊢
        rw [Nat.add_mul_mod_self_left, hbase]
      refine ⟨hal, (page_addr hok (show i < _ by omega)).2, hcnt, ?_⟩
      rw [pages_grant]
      exact (hsame.pages user).symm ▸ runPages_subset hsize
    · obtain ⟨h1, h2, h3, h4⟩ := hI.grants q hq
      exact ⟨h1, h2, h3, (hsame.pages q.user).symm ▸ h4⟩

/-- The pool that `palloc_free_multiple` finds for a grant. -/
theorem pageFromPool_iff (hp : ps.Ok) (user : Bool) (p : Nat) :
    pageFromPool (ps.pool user) p = true ↔ pgNo p ∈ (ps.pool user).pages := by
  have hfits := hp.fits user
  have hsum : pgNo (ps.pool user).base + (ps.pool user).usedMap.bitCnt < u64 := by
    have hk : 0 < kernBase := by decide
    have hkern := hp.kernel user
    unfold pgNo
    have hpg : pgSize = 4096 := rfl
    rw [hpg] at hfits ⊢
    omega
  unfold pageFromPool bitmapSize Pool.pages
  rw [Nat.mod_eq_of_lt hsum, Bool.and_eq_true, decide_eq_true_iff, decide_eq_true_iff, Set.mem_Ico]

/-- The pool that a page is in is found, and no other. -/
theorem poolOf_in (hp : ps.Ok) (hin : pgNo p ∈ (ps.pool user).pages) : poolOf ps p = some user := by
  unfold poolOf
  cases user with
  | false => exact if_pos ((pageFromPool_iff hp false p).mpr hin)
  | true =>
    have hno : ¬ pageFromPool ps.kernelPool p = true :=
      fun hk => by cases hp.unique ((pageFromPool_iff hp false p).mp hk) hin
    rw [if_neg hno]
    exact if_pos ((pageFromPool_iff hp true p).mpr hin)

theorem poolOf_none (hp : ps.Ok) (hno : ∀ user, pgNo p ∉ (ps.pool user).pages) : poolOf ps p = none := by
  have hk : ¬ pageFromPool ps.kernelPool p = true := fun hk => hno false ((pageFromPool_iff hp false p).mp hk)
  have hu : ¬ pageFromPool ps.userPool p = true := fun hu => hno true ((pageFromPool_iff hp true p).mp hu)
  unfold poolOf
  rw [if_neg hk, if_neg hu]

theorem pallocFreeMultiple_in (hp : ps.Ok) (hal : pgOfs p = 0) (h0 : p ≠ 0) (hcnt : 1 ≤ cnt)
    (hin : pgNo p ∈ (ps.pool user).pages) : pallocFreeMultiple ps p cnt = freeIn ps user p cnt := by
  unfold pallocFreeMultiple
  rw [if_neg (not_not_intro hal), if_neg (by omega), poolOf_in hp hin]

/-- The bits of a grant. -/
theorem Inv.bits (hp : ps₀.Ok) (hI : Inv ps₀ s) (hr : r ∈ s.live) :
    let i := pgNo r.addr - pgNo (s.pools.pool r.user).base
    r.pages = s.pools.runPages r.user i r.cnt ∧ (s.pools.pool r.user).usedMap.toBitmap.Holds i r.cnt true := by
  intro i
  obtain ⟨-, -, hcnt, hin⟩ := hI.grants r hr
  obtain ⟨hle, -⟩ := Set.mem_Ico.mp (hin (Set.mem_Ico.mpr ⟨Nat.le_refl (pgNo r.addr), by omega⟩))
  obtain ⟨-, hlt⟩ := Set.mem_Ico.mp (hin (Set.mem_Ico.mpr
    (show pgNo r.addr ≤ pgNo r.addr + r.cnt - 1 ∧ pgNo r.addr + r.cnt - 1 < pgNo r.addr + r.cnt by omega)))
  have hpages : r.pages = s.pools.runPages r.user i r.cnt := by
    unfold Grant.pages Pools.runPages
    rw [Nat.add_sub_cancel' hle]
  have hsize : i + r.cnt ≤ (s.pools.pool r.user).usedMap.bitCnt := by omega
  refine ⟨hpages, hsize, fun x hx hx' => ?_⟩
  have hmem : pgNo (s.pools.pool r.user).base + x ∈ r.pages := by
    rw [hpages]
    exact Set.mem_Ico.mpr ⟨by omega, by omega⟩
  have hused := hI.out.subset (List.mem_map.mpr ⟨r, hr, rfl⟩) hmem
  have hbit := (mem_used (hI.same.ok hp) (hin hmem)).mp hused
  rwa [Nat.add_sub_cancel_left] at hbit

/-- A grant is freed: its bits are cleared. -/
theorem Inv.free (hp : ps₀.Ok) (hI : Inv ps₀ s) (hr : r ∈ s.live) :
    ∃ map mem, pallocFreeMultiple s.pools r.addr r.cnt = .ok { s.pools.setMap r.user map with mem := mem } ∧
      map.toBitmap = (s.pools.pool r.user).usedMap.toBitmap.setMultiple
        (pgNo r.addr - pgNo (s.pools.pool r.user).base) r.cnt false := by
  obtain ⟨hal, h0, hcnt, hin⟩ := hI.grants r hr
  obtain ⟨-, hall⟩ := hI.bits hp hr
  obtain ⟨b, hb, hbit⟩ := bitmapAll_eq hall.1
  obtain rfl : b = true := hbit.mpr hall
  obtain ⟨map, hset, hmap⟩ := bitmapSetMultiple_eq hall.1 false
  refine ⟨map, memset s.pools.mem r.addr 0xcc (pgSize * r.cnt % u64), ?_, hmap⟩
  rw [pallocFreeMultiple_in (hI.same.ok hp) hal h0 hcnt (hin (Set.mem_Ico.mpr ⟨Nat.le_refl _, by omega⟩))]
  simp only [freeIn, hb, hset, asserted, bind, Except.bind, if_true]
  cases r.user <;> rfl

/-- What is freed is out no more. -/
theorem Inv.give (hp : ps₀.Ok) (hI : Inv ps₀ s) {mem : Memory} {live : List Grant} (hlive : s.live.Perm (r :: live))
    (hmap : map.toBitmap = (s.pools.pool r.user).usedMap.toBitmap.setMultiple
      (pgNo r.addr - pgNo (s.pools.pool r.user).base) r.cnt false) :
    Inv ps₀ ⟨{ s.pools.setMap r.user map with mem := mem }, live⟩ := by
  have hr : r ∈ s.live := hlive.mem_iff.mpr List.mem_cons_self
  obtain ⟨hpages, hall⟩ := hI.bits hp hr
  have hsame : SamePlaces s.pools (s.pools.setMap r.user map) := samePlaces_setMap (congrArg Bitmap.size hmap)
  refine ⟨hI.same.trans hsame, ?_, fun q hq => ?_⟩
  · have hused : (s.pools.setMap r.user map).used = s.pools.used \ r.pages := by
      ext n
      rw [used_setMap (hI.same.ok hp) hall.1 hmap, ← hpages, Set.mem_sdiff]
      simp only [Bool.false_eq_true, and_false, false_or]
      exact and_comm
    exact hused ▸ hI.out.give (hlive.map Grant.pages)
  · obtain ⟨h1, h2, h3, h4⟩ := hI.grants q (hlive.mem_iff.mpr (List.mem_cons_of_mem _ hq))
    exact ⟨h1, h2, h3, (hsame.pages q.user).symm ▸ h4⟩

theorem step_inv {e : Event} (hp : ps₀.Ok) (hI : Inv ps₀ s) (he : Permitted s e) (hs : step s e = some s') :
    Inv ps₀ s' := by
  cases e with
  | get flags cnt =>
    have hgets := pallocGetMultiple_gets (hI.same.ok hp) flags he.1
    simp only [step] at hs
    generalize pallocGetMultiple s.pools flags cnt = res at hgets hs
    cases hgets with
    | @run i map mem hi hne hmap =>
      have hcnt : 1 ≤ cnt := he.1
      have hsize : i + cnt ≤ (s.pools.pool flags.user).usedMap.bitCnt := hi.1.2.1
      have h0 := (page_addr (hI.same.ok hp) (show i < (s.pools.pool flags.user).usedMap.bitCnt by omega)).2
      simp only [if_neg h0, Option.some.injEq] at hs
      exact hs ▸ hI.take hp hcnt hi.1.2 hmap
    | fails hno =>
      cases ha : flags.assert <;> rw [ha] at hs
      case false =>
        obtain rfl : s = s' := Option.some.inj hs
        exact hI
      case true => cases hs
  | free pages cnt =>
    obtain ⟨r, hr, hpr⟩ := he
    obtain ⟨q, l₁, l₂, -, hq, hl, herase⟩ :=
      @List.exists_of_eraseP _ (fun r : Grant => decide (r.addr = pages ∧ r.cnt = cnt)) s.live r hr (decide_eq_true hpr)
    obtain ⟨rfl, rfl⟩ := of_decide_eq_true hq
    have hperm : s.live.Perm (q :: s.live.eraseP fun r => r.addr = q.addr ∧ r.cnt = q.cnt) := by
      rw [herase, hl]
      exact List.perm_middle
    obtain ⟨map, mem, hfree, hmap⟩ := hI.free hp (hperm.mem_iff.mpr List.mem_cons_self)
    simp only [step, hfree, Option.some.injEq] at hs
    exact hs ▸ hI.give hp hperm hmap

/-- Over any requests for pages and any frees of what was got: the grants are
disjoint and in their pools, and their pages are those that have come into use;
a grant can be freed; and the next request gets the lowest free run, or fails
for want of one, exactly when that run does not start at the number that stands
for none. -/
theorem grants_apart_and_serves_iff (hp : ps₀.Ok) {es : List Event} (hG : Run.Always step Permitted ⟨ps₀, []⟩ es)
    (hs : Run.run step ⟨ps₀, []⟩ es = some s) :
    Safe ps₀ s ∧ (∀ r ∈ s.live, ∃ ps, pallocFreeMultiple s.pools r.addr r.cnt = .ok ps) ∧
      ∀ flags cnt, 1 ≤ cnt → cnt < u64 →
        (Serves s.pools flags cnt ↔ ¬ Lowest (s.pools.pool flags.user).usedMap 0 cnt false bitmapError) := by
  have hI : Inv ps₀ s := Run.run_invariant (fun s e s' hI he hs => step_inv hp hI he hs) (.start ps₀) hs hG
  refine ⟨hI.safe, fun r hr => ?_, fun flags cnt hcnt _ => serves_iff (hI.same.ok hp) flags hcnt⟩
  obtain ⟨map, mem, hfree, -⟩ := hI.free hp hr
  exact ⟨_, hfree⟩

/-- Eight pages for the kernel, of which two are in use, and four for users. -/
def twelvePages : Pools where
  kernelPool := ⟨⟨8, #v[3]⟩, kernBase⟩
  userPool := ⟨⟨4, #v[0]⟩, kernBase + 8 * pgSize⟩
  mem := fun _ => 0

theorem grants_apart_twelve :
    ∃ s, Run.run step ⟨twelvePages, []⟩ [.get ⟨false, true, false⟩ 2, .get ⟨true, false, true⟩ 3,
        .get ⟨false, false, false⟩ 5, .free 549822930944 2, .get ⟨true, false, false⟩ 1] = some s ∧
      Safe twelvePages s ∧ (∀ r ∈ s.live, ∃ ps, pallocFreeMultiple s.pools r.addr r.cnt = .ok ps) ∧
      ∀ flags cnt, 1 ≤ cnt → cnt < u64 →
        (Serves s.pools flags cnt ↔ ¬ Lowest (s.pools.pool flags.user).usedMap 0 cnt false bitmapError) := by
  have hok : twelvePages.Ok := by
    refine ⟨fun user => ?_, fun user => ?_, fun user => ?_, ?_⟩
    · cases user <;> decide
    · cases user <;> decide
    · cases user <;> decide
    · exact Set.Ico_disjoint_Ico_same
  obtain ⟨s, hs⟩ := Option.isSome_iff_exists.mp (show (Run.run step ⟨twelvePages, []⟩ [.get ⟨false, true, false⟩ 2,
    .get ⟨true, false, true⟩ 3, .get ⟨false, false, false⟩ 5, .free 549822930944 2,
    .get ⟨true, false, false⟩ 1]).isSome = true by decide +kernel)
  exact ⟨s, hs, grants_apart_and_serves_iff hok (by decide +kernel) hs⟩

/-- A pool of `2 ^ 32` pages, of which the last is free. -/
def lastFree : Pools where
  kernelPool := ⟨bitmapReset ⟨2 ^ 32, Vector.replicate _ (BitVec.allOnes 64)⟩ bitmapError, kernBase⟩
  userPool := ⟨⟨0, #v[]⟩, kernBase + pgSize * 2 ^ 32⟩
  mem := fun _ => 0

theorem lastFree_bit {x : Nat} (hx : x < 2 ^ 32) :
    lastFree.kernelPool.usedMap.toBitmap.bit x = !decide (x = bitmapError) := by
  let full : PackedBitmap := ⟨2 ^ 32, Vector.replicate _ (BitVec.allOnes 64)⟩
  have hfull : full.toBitmap.bit x = true := by
    have hmod : x % elemBits < 64 := Nat.mod_lt _ (by decide)
    have helem : full.elem (elemIdx x) = BitVec.allOnes 64 := by
      unfold PackedBitmap.elem
      rw [Vector.getElem?_replicate_of_lt (@elemIdx_lt full x hx)]
      rfl
    rw [toBitmap_bit, helem, BitVec.getLsbD_allOnes]
    exact decide_eq_true hmod
  obtain ⟨map, hset, hmap⟩ := @bitmapSet_eq full bitmapError (by decide) false
  have hres : lastFree.kernelPool.usedMap = map := Option.some.inj hset
  rw [hres, hmap, Bitmap.set_bit]
  by_cases he : x = bitmapError
  · simp only [he, if_true, decide_true, Bool.not_true]
  · simp only [he, if_false, decide_false, Bool.not_false, hfull]

/-- The page at index `2 ^ 32 - 1` is free, and a request for a page fails. -/
theorem not_grants_served : ∃ ps : Pools, ps.Ok ∧ ∃ flags cnt, 1 ≤ cnt ∧ cnt < u64 ∧ ¬ Serves ps flags cnt := by
  have hok : lastFree.Ok := by
    refine ⟨fun user => ?_, fun user => ?_, fun user => ?_, ?_⟩
    · cases user <;> decide
    · cases user <;> decide
    · cases user <;> decide
    · exact Set.disjoint_left.mpr fun n _ hn => absurd (hn.1.trans_lt hn.2) (Nat.lt_irrefl _)
  refine ⟨lastFree, hok, ⟨false, false, false⟩, 1, by decide, by decide, ?_⟩
  rw [serves_iff hok _ (Nat.le_refl 1), not_not]
  refine ⟨⟨Nat.zero_le _, by decide, fun x hx hx' => ?_⟩, fun j ⟨_, hfit, hj⟩ => ?_⟩
  · obtain rfl : x = bitmapError := by omega
    exact lastFree_bit (by decide)
  · have hbit := hj j (Nat.le_refl j) (Nat.lt_succ_self j)
    have hlt : j < 2 ^ 32 := hfit
    have hlast := (lastFree_bit hlt).symm.trans hbit
    simp only [Bool.not_eq_false', decide_eq_true_eq] at hlast
    exact hlast.ge

end PintosKaist.Threads.Palloc
