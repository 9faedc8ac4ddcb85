/-
When the page allocator is set up as it should be: for a memory map in order
with room for the bitmaps, `populate_pools` gets through, with two pools that
have no page in common, and leaves free the usable pages behind the bitmaps,
exactly when the cut between the pools is one that its two loops can deal with.
-/
import PintosKaist.Threads.PallocFree

namespace PintosKaist.Threads.Palloc

open PintosKaist.LibKernel

/-- The cut between the two pools. -/
def plan (limit : Nat) (rs : List Region) : Option Cut := findCut (total rs - userShare limit rs) rs

/-- The first page behind the kernel image. -/
def bitmapStart (kernelEnd : Nat) : Nat := pgNo (pgRoundUp kernelEnd)

/-- A memory map whose usable entries are whole pages, in order, with an
address each, and have room for the bitmaps behind the kernel image. -/
structure MapOk (entries : List E820Entry) (limit kernelEnd : Nat) : Prop where
  aligned : ∀ e ∈ entries, e.usable = true → e.start % pgSize = 0 ∧ e.size % pgSize = 0
  sorted : (entries.filter E820Entry.usable).Pairwise fun e e' => e.start + e.size ≤ e'.start
  addressable : ∀ e ∈ entries, e.usable = true → e.start + e.size + kernBase < u64
  limit_lt : limit < u64
  room : ∃ k, plan limit (regions entries) = some k ∧ ∀ n, bitmapStart kernelEnd ≤ n → n < k.bound (bitmapStart kernelEnd) →
    ∃ r ∈ regions entries, r.first ≤ n ∧ n < r.stop

/-- The pages whose bits are clear. -/
def Pools.free (ps : Pools) : Set Nat :=
  {n | ∃ user, ∃ x < (ps.pool user).usedMap.bitCnt,
    n = pgNo (ps.pool user).base + x ∧ (ps.pool user).usedMap.toBitmap.bit x = false}

/-- The set-up gets through, the pools have no page in common, and the pages
left free are those of the usable entries at or above the end of the bitmaps. -/
def SetsUp (entries : List E820Entry) (limit kernelEnd : Nat) (words : Nat → BitVec 64) (mem : Memory) : Prop :=
  ∃ ps usableBound, pallocInit entries limit kernelEnd words mem = some (ps, usableBound) ∧
    Disjoint ps.kernelPool.pages ps.userPool.pages ∧
    ps.free = {n | usableBound ≤ pgSize * n ∧
      ∃ e ∈ entries, e.usable = true ∧ ptov e.start ≤ pgSize * n ∧ pgSize * n < ptov e.start + e.size}

/-- The cut is one that both loops can deal with. -/
def Cut.Good (k : Cut) (bound : Nat) (rs : List Region) : Prop := k.Claims ∧ k.Apart ∧ ∀ r ∈ rs, k.Finds bound r

variable {entries : List E820Entry} {limit kernelEnd n : Nat} {words : Nat → BitVec 64} {mem : Memory} {ps : Pools}
  {rs : List Region} {r : Region} {e : E820Entry} {k : Cut}

/-! ## The regions of a map -/

/-- An entry is the pages of its region. -/
theorem MapOk.pages (hm : MapOk entries limit kernelEnd) (he : e ∈ entries) (hu : e.usable = true) :
    pgSize * e.region.first = e.start + kernBase ∧ pgSize * e.region.cnt = e.size := by
  obtain ⟨hs, hz⟩ := hm.aligned e he hu
  have hsum : (e.start + kernBase) % pgSize = 0 := by
    rw [Nat.add_mod, hs]
    decide
  exact ⟨Nat.mul_div_cancel' (Nat.dvd_of_mod_eq_zero hsum), Nat.mul_div_cancel' (Nat.dvd_of_mod_eq_zero hz)⟩

theorem MapOk.entry (hm : MapOk entries limit kernelEnd) (he : e ∈ entries) (hu : e.usable = true) :
    ptov e.start = pgSize * e.region.first ∧ Addressable e.region ∧ kernBase ≤ pgSize * e.region.first := by
  obtain ⟨hfirst, hcnt⟩ := hm.pages he hu
  have hlt := hm.addressable e he hu
  refine ⟨?_, ?_, by omega⟩
  · rw [hfirst]
    exact Nat.mod_eq_of_lt (by omega)
  · unfold Addressable Region.stop
    rw [Nat.mul_add, hfirst, hcnt]
    omega

theorem MapOk.region (hm : MapOk entries limit kernelEnd) (hr : r ∈ regions entries) :
    Addressable r ∧ kernBase ≤ pgSize * r.first := by
  obtain ⟨e, he, rfl⟩ := List.mem_map.mp hr
  obtain ⟨he, hu⟩ := List.mem_filter.mp he
  exact (hm.entry he hu).2

theorem MapOk.sorted_regions (hm : MapOk entries limit kernelEnd) : Sorted (regions entries) := by
  refine List.pairwise_map.mpr (hm.sorted.imp_of_mem fun {e e'} he he' hle => ?_)
  obtain ⟨he, hu⟩ := List.mem_filter.mp he
  obtain ⟨he', hu'⟩ := List.mem_filter.mp he'
  obtain ⟨hfirst, hcnt⟩ := hm.pages he hu
  obtain ⟨hfirst', -⟩ := hm.pages he' hu'
  refine Nat.le_of_mul_le_mul_left ?_ (show 0 < pgSize by decide)
  unfold Region.stop
  rw [Nat.mul_add, hfirst, hcnt, hfirst']
  omega

/-- All the usable pages have room in the address space. -/
theorem total_lt (hs : Sorted rs) (hrs : ∀ r ∈ rs, Addressable r) : pgSize * total rs < u64 := by
  have hle := total_le_lastStop hs fun r _ => Nat.zero_le r.first
  rcases lastStop_mem 0 rs with h0 | ⟨r, hr, hlast⟩
  · have hzero : total rs = 0 := by omega
    rw [hzero]
    decide
  · have hr : pgSize * r.stop < u64 := hrs r hr
    exact (Nat.mul_le_mul_left _ (by omega : total rs ≤ r.stop)).trans_lt hr

/-! ## `resolve_area_info` -/

theorem extend_size {area : Area} {start size : Nat} (h : area.size + size < u64) :
    (area.extend start size).size = area.size + size := by
  unfold Area.extend
  split
  case isTrue h0 => rw [h0, Nat.zero_add]
  case isFalse => exact Nat.mod_eq_of_lt h

/-- The two areas have the sizes of the usable entries. -/
theorem resolveAreaInfo_size {m : Area × Area}
    (h : m.1.size + m.2.size + ((entries.filter E820Entry.usable).map E820Entry.size).sum < u64) :
    (resolveAreaInfo entries m).1.size + (resolveAreaInfo entries m).2.size =
      m.1.size + m.2.size + ((entries.filter E820Entry.usable).map E820Entry.size).sum := by
  induction entries generalizing m with
  | nil => rfl
  | cons e entries ih =>
    by_cases hu : e.usable = true
    · rw [List.filter_cons_of_pos hu, List.map_cons, List.sum_cons] at h ⊢
      have hturn : (resolveTurn m e).1.size + (resolveTurn m e).2.size = m.1.size + m.2.size + e.size := by
        unfold resolveTurn
        rw [if_pos hu]
        split
        · show (m.1.extend e.start e.size).size + m.2.size = _
          rw [extend_size (by omega)]
          omega
        · show m.1.size + (m.2.extend e.start e.size).size = _
          rw [extend_size (by omega)]
          omega
      have hrest := @ih (resolveTurn m e) (by omega)
      rw [show resolveAreaInfo (e :: entries) m = resolveAreaInfo entries (resolveTurn m e) from rfl, hrest]
      omega
    · rw [List.filter_cons_of_neg hu] at h ⊢
      have hturn : resolveTurn m e = m := if_neg hu
      rw [show resolveAreaInfo (e :: entries) m = resolveAreaInfo entries (resolveTurn m e) from rfl, hturn]
      exact ih h

theorem sum_sizes (hm : MapOk entries limit kernelEnd) :
    ((entries.filter E820Entry.usable).map E820Entry.size).sum = pgSize * total (regions entries) := by
  have hsize : ∀ e ∈ entries.filter E820Entry.usable, e.size = pgSize * e.region.cnt := fun e he =>
    (hm.pages (List.mem_filter.mp he).1 (List.mem_filter.mp he).2).2.symm
  unfold regions
  generalize entries.filter E820Entry.usable = es at hsize
  induction es with
  | nil => rfl
  | cons e es ih =>
    rw [List.map_cons, List.sum_cons, List.map_cons, total_cons, Nat.mul_add, hsize e List.mem_cons_self,
      ih fun q hq => hsize q (List.mem_cons_of_mem e hq)]

/-! ## The room -/

theorem bitmapPages_pos (bitCnt : Nat) : 0 < bitmapPages bitCnt := by
  have hpg : pgSize = 4096 := rfl
  unfold bitmapPages divRoundUp bitmapBufSize
  rw [hpg]
  omega

/-- The bitmaps end at an address, in front of the end of a region with pages. -/
theorem MapOk.bound_lt (hm : MapOk entries limit kernelEnd) (hk : plan limit (regions entries) = some k) :
    pgSize * k.bound (bitmapStart kernelEnd) < u64 ∧ 0 < total (regions entries) := by
  obtain ⟨k', hk', hroom⟩ := hm.room
  obtain rfl := Option.some.inj (hk.symm.trans hk')
  have hpos := bitmapPages_pos (k.kernelStop - k.kernelStart)
  have hlt : bitmapStart kernelEnd < k.bound (bitmapStart kernelEnd) := by
    unfold Cut.bound
    omega
  obtain ⟨r, hr, hfirst, hstop⟩ := hroom (k.bound (bitmapStart kernelEnd) - 1) (by omega) (by omega)
  have haddr : pgSize * r.stop < u64 := (hm.region hr).1
  refine ⟨(Nat.mul_le_mul_left _ (by omega : _ ≤ r.stop)).trans_lt haddr, ?_⟩
  have hcnt := cnt_le_total hr
  unfold Region.stop at hstop
  omega

/-! ## The pools -/

theorem Fresh.pages {p : Pool} {first cnt : Nat} (h : Fresh p first cnt) : p.pages = Set.Ico first (first + cnt) := by
  unfold Pool.pages
  rw [h.1, h.2.1, pgNo_mul]

/-- The pools of a plan: what `Palloc` asks of its pools, and that all their
pages are in use. -/
structure PoolsOf (ps : Pools) (k : Cut) : Prop where
  kernel : Fresh ps.kernelPool k.kernelStart (k.kernelStop - k.kernelStart)
  user : Fresh ps.userPool k.userStart (k.userStop - k.userStart)

theorem PoolsOf.fresh (h : PoolsOf ps k) (user : Bool) : ∃ first cnt, Fresh (ps.pool user) first cnt := by
  cases user with
  | false => exact ⟨_, _, h.kernel⟩
  | true => exact ⟨_, _, h.user⟩

theorem PoolsOf.ok (h : PoolsOf ps k) (hap : k.Apart) (hs : Sorted (k.before ++ k.region :: k.after))
    (hrem : k.rem ≤ k.region.cnt) (hlo : kernBase ≤ pgSize * k.kernelStart) (hhi : pgSize * k.userStop < u64) :
    ps.Ok ∧ ps.Ends := by
  obtain ⟨-, -, hstart, -⟩ := Cut.sorted hs
  have hkern : k.region.first ≤ k.kernelStop := Nat.le_add_right _ _
  obtain ⟨hle, hle', -⟩ := hap.order hs hrem
  have hends : ps.Ends := by
    intro user
    have hend : ∃ stop ≤ k.userStop, (ps.pool user).base + pgSize * (ps.pool user).usedMap.bitCnt = pgSize * stop := by
      cases user with
      | false =>
        refine ⟨k.kernelStop, hle.trans hle', ?_⟩
        show ps.kernelPool.base + pgSize * ps.kernelPool.usedMap.bitCnt = _
        rw [h.kernel.1, h.kernel.2.1, ← Nat.mul_add, Nat.add_sub_cancel' (hstart.trans hkern)]
      | true =>
        refine ⟨k.userStop, Nat.le_refl _, ?_⟩
        show ps.userPool.base + pgSize * ps.userPool.usedMap.bitCnt = _
        rw [h.user.1, h.user.2.1, ← Nat.mul_add, Nat.add_sub_cancel' hle']
    obtain ⟨stop, hstop, he⟩ := hend
    rw [he]
    exact (Nat.mul_le_mul_left _ hstop).trans_lt hhi
  refine ⟨⟨fun user => ?_, fun user => ?_, fun user => (hends user).le, ?_⟩, hends⟩
  · obtain ⟨first, cnt, hbase, -⟩ := h.fresh user
    rw [hbase]
    exact Nat.mul_mod_right _ _
  · cases user with
    | false => exact h.kernel.1 ▸ hlo
    | true => exact h.user.1 ▸ hlo.trans (Nat.mul_le_mul_left _ (hstart.trans (hkern.trans hle)))
  · rw [h.kernel.pages, h.user.pages]
    refine Set.disjoint_left.mpr fun n hn hn' => ?_
    have hlt := hn.2
    have hge := hn'.1
    omega

theorem PoolsOf.has (h : PoolsOf ps k) (hk : k.kernelStart ≤ k.kernelStop) (hu : k.userStart ≤ k.userStop) (n : Nat) :
    ps.Has n ↔ k.InPool n := by
  have hkern : n ∈ ps.kernelPool.pages ↔ k.kernelStart ≤ n ∧ n < k.kernelStop := by
    rw [h.kernel.pages, Set.mem_Ico, Nat.add_sub_cancel' hk]
  have huser : n ∈ ps.userPool.pages ↔ k.userStart ≤ n ∧ n < k.userStop := by
    rw [h.user.pages, Set.mem_Ico, Nat.add_sub_cancel' hu]
  constructor
  · rintro ⟨user, hn⟩
    cases user with
    | false => exact .inl (hkern.mp hn)
    | true => exact .inr (huser.mp hn)
  · rintro (hn | hn)
    · exact ⟨false, hkern.mpr hn⟩
    · exact ⟨true, huser.mpr hn⟩

theorem PoolsOf.used (h : PoolsOf ps k) (n : Nat) : n ∈ ps.used ↔ ps.Has n := by
  constructor
  · exact used_pages
  · rintro ⟨user, hn⟩
    obtain ⟨first, cnt, hbase, hcnt, hbit⟩ := h.fresh user
    obtain ⟨hle, hlt⟩ := Set.mem_Ico.mp hn
    exact ⟨user, n - pgNo (ps.pool user).base, by omega, by omega, hbit _ (by omega)⟩

/-- A page of the pools is free when it is not in use. -/
theorem mem_free (hp : ps.Ok) : n ∈ ps.free ↔ ps.Has n ∧ n ∉ ps.used := by
  constructor
  · rintro ⟨user, x, hx, rfl, hbit⟩
    have hin : pgNo (ps.pool user).base + x ∈ (ps.pool user).pages :=
      ⟨Nat.le_add_right _ x, Nat.add_lt_add_left hx _⟩
    refine ⟨⟨user, hin⟩, fun hu => ?_⟩
    have hset := (mem_used hp hin).mp hu
    rw [Nat.add_sub_cancel_left, hbit] at hset
    cases hset
  · rintro ⟨⟨user, hin⟩, hno⟩
    obtain ⟨hle, hlt⟩ := Set.mem_Ico.mp hin
    exact ⟨user, n - pgNo (ps.pool user).base, by omega, by omega,
      Bool.eq_false_iff.mpr fun hbit => hno ((mem_used hp hin).mpr hbit)⟩

/-! ## The set-up -/

/-- The first loop, the making of the user pool and the second loop, with runs
of pages. -/
def setUpRegions (rs : List Region) (userPages start : Nat) (words : Nat → BitVec 64) (mem : Memory) : Option (Pools × Nat) := do
  let c ← Run.run (claimAt words userPages) ⟨.kernStart, total rs - userPages, 0, 0, pgSize * start, noPool⟩ rs
  let (userPool, usableBound) ← initPool words c.freeStart c.regionStart c.stop
  let ps ← Run.run (fun ps (r : Region) => freeRegion usableBound ps (pgSize * r.first) (pgSize * r.cnt))
    ⟨c.kernelPool, userPool, mem⟩ rs
  some (ps, usableBound)

theorem setUpRegions_eq {userPages start bound : Nat} {c : Claim} {p : Pool}
    (hrun : Run.run (claimAt words userPages) ⟨.kernStart, total rs - userPages, 0, 0, pgSize * start, noPool⟩ rs = some c)
    (hp : initPool words c.freeStart c.regionStart c.stop = some (p, pgSize * bound)) :
    setUpRegions rs userPages start words mem =
      (Run.run (freeAt bound) ⟨c.kernelPool, p, mem⟩ rs).map (·, pgSize * bound) := by
  have hfree : (fun ps (r : Region) => freeRegion (pgSize * bound) ps (pgSize * r.first) (pgSize * r.cnt)) =
      freeAt bound := rfl
  unfold setUpRegions
  rw [hrun, Option.bind_eq_bind, Option.bind_some, hp, Option.bind_eq_bind, Option.bind_some]
  simp only [hfree]
  cases Run.run (freeAt bound) ⟨c.kernelPool, p, mem⟩ rs <;> rfl

theorem pallocInit_regions (hm : MapOk entries limit kernelEnd) : pallocInit entries limit kernelEnd words mem =
    setUpRegions (regions entries) (userShare limit (regions entries)) (bitmapStart kernelEnd) words mem := by
  have hlt := total_lt hm.sorted_regions fun r hr => (hm.region hr).1
  have hareas := @resolveAreaInfo_size entries (⟨0, 0, 0⟩, ⟨0, 0, 0⟩) (by simpa [sum_sizes hm] using hlt)
  simp only [sum_sizes hm, Nat.zero_add] at hareas
  have hclaim : ∀ userPages c, Run.run (claimTurn words userPages) c entries =
      Run.run (claimAt words userPages) c (regions entries) := fun userPages c =>
    Run.run_filter_map fun e he s => by
      unfold claimTurn claimAt
      split
      case isTrue hu => rw [(hm.entry he hu).1, (hm.pages he hu).2]
      case isFalse => rfl
  have hfree : ∀ bound ps, Run.run (freeTurn bound) ps entries =
      Run.run (fun ps (r : Region) => freeRegion bound ps (pgSize * r.first) (pgSize * r.cnt)) ps (regions entries) :=
    fun bound ps => Run.run_filter_map fun e he s => by
      unfold freeTurn
      split
      case isTrue hu => rw [(hm.entry he hu).1, (hm.pages he hu).2]
      case isFalse => rfl
  have hshare : (if total (regions entries) / 2 > limit then limit else total (regions entries) / 2) =
      userShare limit (regions entries) := by
    unfold userShare
    split <;> omega
  have hstart : pgRoundUp kernelEnd = pgSize * bitmapStart kernelEnd := by
    unfold bitmapStart pgRoundUp
    rw [Nat.mul_comm _ pgSize, pgNo_mul]
  unfold pallocInit populatePools setUpRegions
  simp only [hareas, Nat.mod_eq_of_lt hlt, Nat.mul_div_cancel_left _ (show 0 < pgSize by decide), hshare, hclaim, hfree,
    hstart]

/-- The cut of a plan, in the regions of the map. -/
theorem plan_some (hm : MapOk entries limit kernelEnd) (hk : plan limit (regions entries) = some k) :
    regions entries = k.before ++ k.region :: k.after ∧ k.rem ≤ k.region.cnt ∧
      kernBase ≤ pgSize * k.kernelStart ∧ pgSize * k.userStop < u64 := by
  obtain ⟨hrs, hrem, -⟩ := findCut_some hk
  have hregion : ∀ r ∈ k.before ++ k.region :: k.after, Addressable r ∧ kernBase ≤ pgSize * r.first := fun r hr =>
    hm.region (hrs ▸ hr)
  refine ⟨hrs, hrem, ?_, ?_⟩
  · unfold Cut.kernelStart
    cases hb : k.before with
    | nil => exact (hregion k.region (by simp)).2
    | cons q qs => exact (hregion q (by simp [hb])).2
  · unfold Cut.userStop
    obtain he | ⟨q, hq, he⟩ := lastStop_mem k.region.stop k.after
    · rw [he]
      exact (hregion k.region (by simp)).1
    · rw [he]
      exact (hregion q (by simp [hq])).1

theorem userStart_le (hs : Sorted (k.before ++ k.region :: k.after)) (hrem : k.rem ≤ k.region.cnt) :
    k.kernelStart ≤ k.kernelStop ∧ k.userStart ≤ k.userStop := by
  obtain ⟨-, -, hstart, -⟩ := Cut.sorted hs
  have hkern : k.kernelStart ≤ k.kernelStop := hstart.trans (Nat.le_add_right _ _)
  refine ⟨hkern, ?_⟩
  by_cases hap : k.Apart
  · exact (hap.order hs hrem).2.1
  · obtain ⟨hstart', hstop'⟩ := Cut.not_apart hap hrem
    omega

/-- The set-up up to the second loop: the two pools of the plan, or a failed
assertion. -/
theorem pallocInit_claims (hm : MapOk entries limit kernelEnd) (hk : plan limit (regions entries) = some k) :
    k.Claims ∧ (∃ ps, PoolsOf ps k ∧ pallocInit entries limit kernelEnd words mem =
        (Run.run (freeAt (k.bound (bitmapStart kernelEnd))) ps (regions entries)).map
          (·, pgSize * k.bound (bitmapStart kernelEnd))) ∨
      ¬ k.Claims ∧ pallocInit entries limit kernelEnd words mem = none := by
  obtain ⟨hrs, hrem, hlo, hhi⟩ := plan_some hm hk
  obtain ⟨hbound, hpos⟩ := hm.bound_lt hk
  have hsorted := hm.sorted_regions
  have hlt := hm.limit_lt
  have hshare : userShare limit (regions entries) ≤ total (regions entries) / 2 ∧ userShare limit (regions entries) ≤ limit := by
    unfold userShare
    omega
  rw [pallocInit_regions hm]
  rcases @claim_run (regions entries) words (userShare limit (regions entries)) _ (pgSize * bitmapStart kernelEnd) k noPool
      (fun r hr => (hm.region hr).1) hsorted hk (by omega) (by omega) (by omega) with
    ⟨hcl, c, hrun, hfree, hreg, hstop, hkernel⟩ | ⟨hcl, hnone⟩
  · obtain ⟨-, hus⟩ := userStart_le (hrs ▸ hsorted) hrem
    obtain ⟨p, hp, huser⟩ := initPool_eq words c.freeStart hus hhi
    have hend : (c.freeStart + bitmapPages (k.userStop - k.userStart) * pgSize) % u64 =
        pgSize * k.bound (bitmapStart kernelEnd) := by
      rw [hfree, Nat.mod_add_mod, ← Nat.mod_eq_of_lt hbound]
      unfold Cut.bound
      rw [Nat.mul_add, Nat.mul_add, Nat.mul_comm pgSize (bitmapPages _), Nat.mul_comm pgSize (bitmapPages _)]
    refine .inl ⟨hcl, ⟨c.kernelPool, p, mem⟩, ⟨hkernel, huser⟩, ?_⟩
    rw [hend, ← hreg, ← hstop] at hp
    exact setUpRegions_eq hrun hp
  · refine .inr ⟨hcl, ?_⟩
    unfold setUpRegions
    rw [hnone]
    rfl

/-- The pages of the usable regions behind the bitmaps, by their addresses. -/
theorem above_iff (hm : MapOk entries limit kernelEnd) {bound : Nat} : Above bound (regions entries) n ↔
    pgSize * bound ≤ pgSize * n ∧
      ∃ e ∈ entries, e.usable = true ∧ ptov e.start ≤ pgSize * n ∧ pgSize * n < ptov e.start + e.size := by
  have hpos : 0 < pgSize := by decide
  have hentry : ∀ e ∈ entries, e.usable = true →
      (ptov e.start ≤ pgSize * n ∧ pgSize * n < ptov e.start + e.size ↔ e.region.first ≤ n ∧ n < e.region.stop) := by
    intro e he hu
    obtain ⟨hfirst, -⟩ := hm.entry he hu
    unfold Region.stop
    rw [hfirst, ← (hm.pages he hu).2, ← Nat.mul_add]
    exact and_congr (Nat.mul_le_mul_left_iff hpos) (Nat.mul_lt_mul_left hpos)
  refine and_congr (Nat.mul_le_mul_left_iff hpos).symm ⟨?_, ?_⟩
  · rintro ⟨r, hr, hn⟩
    obtain ⟨e, he, rfl⟩ := List.mem_map.mp hr
    obtain ⟨he, hu⟩ := List.mem_filter.mp he
    exact ⟨e, he, hu, (hentry e he hu).mpr hn⟩
  · rintro ⟨e, he, hu, hn⟩
    exact ⟨e.region, List.mem_map_of_mem (List.mem_filter.mpr ⟨he, hu⟩), (hentry e he hu).mp hn⟩

/-- With a good cut the set-up ends with pools in which the pages above the
bound are free; with a region that the second loop finds no pool for it does
not end. -/
theorem pallocInit_apart (hm : MapOk entries limit kernelEnd) (hk : plan limit (regions entries) = some k)
    (hcl : k.Claims) (hap : k.Apart) :
    let bound := k.bound (bitmapStart kernelEnd)
    (∀ r ∈ regions entries, k.Finds bound r) ∧ (∃ ps, pallocInit entries limit kernelEnd words mem = some (ps, pgSize * bound) ∧
        ps.Ok ∧ ∀ n, n ∈ ps.free ↔ Above bound (regions entries) n) ∨
      ¬ (∀ r ∈ regions entries, k.Finds bound r) ∧ pallocInit entries limit kernelEnd words mem = none := by
  intro bound
  obtain ⟨hrs, hrem, hlo, hhi⟩ := plan_some hm hk
  have hsorted := hm.sorted_regions
  rw [hrs] at hsorted
  obtain ⟨hks, hus⟩ := userStart_le hsorted hrem
  obtain ⟨-, ps, hps, hinit⟩ | ⟨hno, -⟩ := @pallocInit_claims entries limit kernelEnd words mem k hm hk
  case inr => exact absurd hcl hno
  obtain ⟨hok, hends⟩ := hps.ok hap hsorted hrem hlo hhi
  have hhas := hps.has hks hus
  have hin : ∀ r ∈ regions entries, ∀ n, r.first ≤ n → n < r.stop → ps.Has n := fun r hr n hn hn' =>
    (hhas n).mpr (hap.inPool hsorted hrem (hrs ▸ hr) hn hn')
  have hfinds : ∀ r, ps.Finds bound r ↔ k.Finds bound r := fun r => by
    unfold Pools.Finds Cut.Finds
    rw [hhas]
    rfl
  simp only [← hfinds]
  rw [hinit]
  rcases @free_run ps bound (regions entries) hok hends (fun r hr => (hm.region hr).1) hin with
    ⟨hall, ps', hrun, hfrees⟩ | ⟨hno, hnone⟩
  · refine .inl ⟨hall, ps', by rw [hrun]; rfl, hfrees.same.ok hok, fun n => ?_⟩
    rw [mem_free (hfrees.same.ok hok), hfrees.same.has, hfrees.used, hps.used]
    constructor
    · rintro ⟨hn, hno⟩
      exact by_contra fun habove => hno ⟨hn, habove⟩
    · rintro habove
      obtain ⟨-, r, hr, hn, hn'⟩ := id habove
      exact ⟨hin r hr n hn hn', fun h => h.2 habove⟩
  · exact .inr ⟨hno, by rw [hnone]; rfl⟩

/-- When nothing is left for users, the pools have the kernel's first page in
common. -/
theorem pallocInit_overlap {bound : Nat} (hm : MapOk entries limit kernelEnd) (hk : plan limit (regions entries) = some k)
    (hap : ¬ k.Apart) (hinit : pallocInit entries limit kernelEnd words mem = some (ps, bound)) :
    ¬ Disjoint ps.kernelPool.pages ps.userPool.pages := by
  obtain ⟨hrs, hrem, -⟩ := plan_some hm hk
  obtain ⟨hstart, hstop⟩ := Cut.not_apart hap hrem
  have hsorted := hm.sorted_regions
  rw [hrs] at hsorted
  obtain ⟨-, -, hfirst, -⟩ := Cut.sorted hsorted
  have hpages : 0 < total (regions entries) - userShare limit (regions entries) := by
    have hpos := (hm.bound_lt hk).2
    unfold userShare
    omega
  have hlt : k.region.first < k.kernelStop := Nat.lt_add_of_pos_right (findCut_pos hk hpages)
  obtain ⟨-, ps₁, hps, hrun⟩ | ⟨-, hnone⟩ := @pallocInit_claims entries limit kernelEnd words mem k hm hk
  case inr => cases hnone.symm.trans hinit
  rw [hrun] at hinit
  obtain ⟨ps', hfree, he⟩ := Option.map_eq_some_iff.mp hinit
  obtain rfl := (Prod.mk.inj he).1
  have hsame := freeRun_same hfree
  have hkern := hsame.pages false
  have huser := hsame.pages true
  have hin : ∀ p, Fresh p k.kernelStart (k.kernelStop - k.kernelStart) → k.kernelStart ∈ p.pages := fun p hp => by
    rw [hp.pages]
    exact ⟨Nat.le_refl _, by omega⟩
  have hboth := hps.user
  rw [hstart, hstop] at hboth
  exact fun hdis => Set.disjoint_left.mp hdis (hkern ▸ hin _ hps.kernel) (huser ▸ hin _ hboth)

/-- **The set-up is right exactly when the cut is good**: no pages come after
the cut, or it is at the end of a region and the next is not empty; something is
left for users; and where the second loop begins in a region, at or behind the
bound, there is a pool. -/
theorem palloc_sets_up_iff (hm : MapOk entries limit kernelEnd) : SetsUp entries limit kernelEnd words mem ↔
    ∃ k, plan limit (regions entries) = some k ∧ k.Good (k.bound (bitmapStart kernelEnd)) (regions entries) := by
  obtain ⟨k, hk, -⟩ := hm.room
  have hplan : (∃ k', plan limit (regions entries) = some k' ∧
      k'.Good (k'.bound (bitmapStart kernelEnd)) (regions entries)) ↔
      k.Good (k.bound (bitmapStart kernelEnd)) (regions entries) := by
    constructor
    · rintro ⟨k', hk', hgood⟩
      exact Option.some.inj (hk'.symm.trans hk) ▸ hgood
    · exact fun hgood => ⟨k, hk, hgood⟩
  rw [hplan]
  constructor
  · rintro ⟨ps, bound, hinit, hdis, -⟩
    obtain ⟨hcl, ps₁, hps, hrun⟩ | ⟨-, hnone⟩ := @pallocInit_claims entries limit kernelEnd words mem k hm hk
    case inr => cases hnone.symm.trans hinit
    have hap : k.Apart := by_contra fun hap => pallocInit_overlap hm hk hap hinit hdis
    refine ⟨hcl, hap, ?_⟩
    obtain ⟨hfinds, -⟩ | ⟨-, hnone⟩ := @pallocInit_apart entries limit kernelEnd words mem k hm hk hcl hap
    · exact hfinds
    · cases hnone.symm.trans hinit
  · rintro ⟨hcl, hap, hfinds⟩
    obtain ⟨-, ps, hinit, hok, hfree⟩ | ⟨hno, -⟩ := @pallocInit_apart entries limit kernelEnd words mem k hm hk hcl hap
    case inr => exact absurd hfinds hno
    refine ⟨ps, _, hinit, hok.apart, Set.ext fun n => ?_⟩
    exact (hfree n).trans (above_iff hm)

/-- 128 MB, without what is below 1 MB and not RAM. -/
def smallMap : List E820Entry :=
  [⟨0, 0, 0x9f000, 0, 1⟩, ⟨0x9f000, 0, 0x61000, 0, 2⟩, ⟨0x100000, 0, 0x7ee0000, 0, 1⟩, ⟨0x7fe0000, 0, 0x20000, 0, 2⟩]

/-- 4 GB, of which one is above the devices. -/
def bigMap : List E820Entry := [⟨0, 0, 0x9f000, 0, 1⟩, ⟨0x100000, 0, 0xbfee0000, 0, 1⟩, ⟨0, 1, 0x40000000, 0, 1⟩]

/-- There is room when a region begins in front of the bitmaps and goes on behind
them. -/
theorem room_of_region (hk : plan limit (regions entries) = some k) (hr : r ∈ regions entries)
    (hfirst : r.first ≤ bitmapStart kernelEnd) (hstop : k.bound (bitmapStart kernelEnd) ≤ r.stop) :
    ∃ k, plan limit (regions entries) = some k ∧ ∀ n, bitmapStart kernelEnd ≤ n →
      n < k.bound (bitmapStart kernelEnd) → ∃ r ∈ regions entries, r.first ≤ n ∧ n < r.stop :=
  ⟨k, hk, fun _ hn hn' => ⟨r, hr, hfirst.trans hn, hn'.trans_le hstop⟩⟩

theorem palloc_sets_up_small : SetsUp smallMap (2 ^ 64 - 1) (kernBase + 0x22a3b8) (fun _ => 0) fun _ => 0xcc := by
  have hk : plan (2 ^ 64 - 1) (regions smallMap) =
      some ⟨[⟨134234112, 159⟩], ⟨134234368, 32480⟩, 16161, []⟩ := by decide
  refine (palloc_sets_up_iff ⟨by decide, by decide, by decide, by decide,
    room_of_region hk (show ⟨134234368, 32480⟩ ∈ regions smallMap by decide) (by decide) (by decide)⟩).mpr
    ⟨_, hk, .inl rfl, .inl (by decide), ?_⟩
  unfold Cut.Finds Cut.InPool
  decide

/-- Pages come after the cut: the assertion fails that compares the number of
the pages that are left with the size of a region in bytes. With a limit of no
pages for users both pools are the kernel's. -/
theorem not_palloc_sets_up :
    (MapOk bigMap (2 ^ 64 - 1) (kernBase + 0x22a3b8) ∧
        ¬ SetsUp bigMap (2 ^ 64 - 1) (kernBase + 0x22a3b8) (fun _ => 0) fun _ => 0xcc) ∧
      MapOk smallMap 0 (kernBase + 0x22a3b8) ∧ ¬ SetsUp smallMap 0 (kernBase + 0x22a3b8) (fun _ => 0) fun _ => 0xcc := by
  have hbig : plan (2 ^ 64 - 1) (regions bigMap) =
      some ⟨[⟨134234112, 159⟩], ⟨134234368, 786144⟩, 524065, [⟨135282688, 262144⟩]⟩ := by decide
  have hsmall : plan 0 (regions smallMap) = some ⟨[⟨134234112, 159⟩], ⟨134234368, 32480⟩, 32480, []⟩ := by decide
  have hokbig : MapOk bigMap (2 ^ 64 - 1) (kernBase + 0x22a3b8) := ⟨by decide, by decide, by decide, by decide,
    room_of_region hbig (show ⟨134234368, 786144⟩ ∈ regions bigMap by decide) (by decide) (by decide)⟩
  have hoksmall : MapOk smallMap 0 (kernBase + 0x22a3b8) := ⟨by decide, by decide, by decide, by decide,
    room_of_region hsmall (show ⟨134234368, 32480⟩ ∈ regions smallMap by decide) (by decide) (by decide)⟩
  refine ⟨⟨hokbig, ?_⟩, hoksmall, ?_⟩
  · rintro ⟨ps, bound, hinit, -⟩
    rcases pallocInit_claims hokbig hbig with ⟨hcl, -⟩ | ⟨-, hnone⟩
    · have hno : ¬ Cut.Claims ⟨[⟨134234112, 159⟩], ⟨134234368, 786144⟩, 524065, [⟨135282688, 262144⟩]⟩ := by
        rintro (h | ⟨h, -⟩)
        · exact absurd h (by decide)
        · exact absurd h (by decide)
      exact hno hcl
    · cases hnone.symm.trans hinit
  · rintro ⟨ps, bound, hinit, hdis, -⟩
    refine pallocInit_overlap hoksmall hsmall ?_ hinit hdis
    rintro (h | h)
    · exact absurd h (by decide)
    · exact h rfl

end PintosKaist.Threads.Palloc
