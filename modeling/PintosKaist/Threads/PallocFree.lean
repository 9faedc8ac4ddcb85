/-
The second loop of `populate_pools`: it clears the bits of the usable pages
above the bound, region by region, in whichever pool they are, and does not get
through a region whose first page is in neither.
-/
import PintosKaist.Threads.PallocClaim

namespace PintosKaist.Threads.Palloc

open PintosKaist.LibKernel PintosKaist.While

/-- A turn of the loop, with a run of pages. -/
def freeAt (bound : Nat) (ps : Pools) (r : Region) : Option Pools :=
  freeRegion (pgSize * bound) ps (pgSize * r.first) (pgSize * r.cnt)

/-- The page is in one of the pools. -/
def Pools.Has (ps : Pools) (n : Nat) : Prop := ∃ user, n ∈ (ps.pool user).pages

/-- The pages that meet `P` are no longer in use, and nothing else is different. -/
structure Frees (ps ps' : Pools) (P : Nat → Prop) : Prop where
  same : SamePlaces ps ps'
  used : ∀ n, n ∈ ps'.used ↔ n ∈ ps.used ∧ ¬ P n

/-- Every pool ends at an address. -/
def Pools.Ends (ps : Pools) : Prop := ∀ user, (ps.pool user).base + pgSize * (ps.pool user).usedMap.bitCnt < u64

variable {ps ps' ps'' : Pools} {user : Bool} {bound x y n : Nat} {r : Region} {rs : List Region} {P Q : Nat → Prop}

theorem Frees.refl (ps : Pools) (hP : ∀ n, ¬ P n) : Frees ps ps P := ⟨.refl ps, fun n => by simp [hP n]⟩

theorem Frees.trans (h : Frees ps ps' P) (h' : Frees ps' ps'' Q) : Frees ps ps'' fun n => P n ∨ Q n :=
  ⟨h.same.trans h'.same, fun n => by rw [h'.used, h.used, not_or, and_assoc]⟩

theorem Frees.congr (h : Frees ps ps' P) (hPQ : ∀ n, P n ↔ Q n) : Frees ps ps' Q :=
  ⟨h.same, fun n => by rw [h.used, hPQ]⟩

theorem SamePlaces.has (h : SamePlaces ps ps') : ps'.Has n ↔ ps.Has n := by
  unfold Pools.Has
  simp only [h.pages]

theorem SamePlaces.ends (h : SamePlaces ps ps') (he : ps.Ends) : ps'.Ends := fun user => by
  rw [(h user).1, (h user).2]
  exact he user

theorem base_eq (hp : ps.Ok) (user : Bool) : (ps.pool user).base = pgSize * pgNo (ps.pool user).base :=
  (Nat.mul_div_cancel' (Nat.dvd_of_mod_eq_zero (hp.aligned user))).symm

/-! ## A region -/

theorem splitTurn_none (hp : ps.Ok) (hno : ¬ ps.Has x) : splitTurn (pgSize * y) (ps, pgSize * x) = none := by
  have hpool := poolOf_none hp fun user (hin : pgNo (pgSize * x) ∈ _) => hno ⟨user, by simpa using hin⟩
  simp only [splitTurn, hpool]
  rfl

/-- Clearing the bits of a run of pages of a pool frees them. -/
theorem clear_run (hp : ps.Ok) (hx : pgNo (ps.pool user).base ≤ x) (hxy : x ≤ y)
    (hy : y ≤ pgNo (ps.pool user).base + (ps.pool user).usedMap.bitCnt) (hlt : pgSize * y < u64) :
    ∃ map, bitmapSetMultiple (ps.pool user).usedMap (pgNo (pgSize * x) - pgNo (ps.pool user).base)
        (sub64 (pgSize * y) (pgSize * x) / pgSize) false = some map ∧
      Frees ps (ps.setMap user map) fun n => x ≤ n ∧ n < y := by
  rw [pgNo_mul, sub64_mul hxy hlt, Nat.mul_div_cancel_left _ (by decide)]
  have hfit : x - pgNo (ps.pool user).base + (y - x) ≤ (ps.pool user).usedMap.bitCnt := by omega
  obtain ⟨map, hset, hmap⟩ := bitmapSetMultiple_eq hfit false
  refine ⟨map, hset, samePlaces_setMap (congrArg Bitmap.size hmap), fun n => ?_⟩
  have hrun : n ∈ ps.runPages user (x - pgNo (ps.pool user).base) (y - x) ↔ x ≤ n ∧ n < y := by
    unfold Pools.runPages
    rw [Set.mem_Ico]
    omega
  rw [used_setMap hp hfit hmap, hrun]
  simp only [Bool.false_eq_true, and_false, false_or]
  exact and_comm

/-- A turn at `split` frees the pages up to the end of the region or of the
pool. -/
theorem splitTurn_in (hp : ps.Ok) (he : ps.Ends) (hx : x ∈ (ps.pool user).pages) (hxy : x ≤ y) (hy : pgSize * y < u64) :
    let poolEnd := pgNo (ps.pool user).base + (ps.pool user).usedMap.bitCnt
    ∃ ps', Frees ps ps' (fun n => x ≤ n ∧ n < min poolEnd y) ∧ splitTurn (pgSize * y) (ps, pgSize * x) =
      some (if poolEnd < y then .yield (ps', pgSize * poolEnd) else .done (ps', pgSize * x)) := by
  intro poolEnd
  obtain ⟨hle, hlt⟩ := Set.mem_Ico.mp hx
  have hend : ((ps.pool user).base + bitmapSize (ps.pool user).usedMap * pgSize) % u64 = pgSize * poolEnd := by
    have hends := he user
    unfold bitmapSize
    rw [Nat.mul_comm, Nat.mod_eq_of_lt hends]
    show _ = pgSize * (pgNo (ps.pool user).base + _)
    rw [Nat.mul_add, ← base_eq hp user]
  have hendlt : pgSize * poolEnd < u64 := by
    rw [← hend]
    exact Nat.mod_lt _ (by decide)
  have hpool : poolOf ps (pgSize * x) = some user := poolOf_in hp (by simpa using hx)
  have hcmp : pgSize * poolEnd < pgSize * y ↔ poolEnd < y := Nat.mul_lt_mul_left (by decide)
  unfold splitTurn
  simp only [hpool, Option.bind_eq_bind, Option.bind_some, hend, hcmp]
  split
  case isTrue hlt' =>
    obtain ⟨map, hset, hfrees⟩ := clear_run hp hle hlt.le (Nat.le_refl _) hendlt
    refine ⟨ps.setMap user map, ?_, by rw [hset]; rfl⟩
    rwa [Nat.min_eq_left hlt'.le]
  case isFalse hge =>
    obtain ⟨map, hset, hfrees⟩ := clear_run hp hle hxy (by omega) hy
    refine ⟨ps.setMap user map, ?_, by rw [hset]; rfl⟩
    rwa [Nat.min_eq_right (by omega)]

/-- The loop at `split` frees a run of pages that are in the pools. -/
theorem split_run (hp : ps.Ok) (he : ps.Ends) (hx : ps.Has x) (hall : ∀ n, x ≤ n → n < y → ps.Has n) (hxy : x ≤ y)
    (hy : pgSize * y < u64) :
    ∃ ps' s, whileLoop (splitTurn (pgSize * y)) (pgSize * y + 1) (ps, pgSize * x) = some (ps', s) ∧
      Frees ps ps' fun n => x ≤ n ∧ n < y := by
  let Inv (t : Pools × Nat) : Prop :=
    ∃ z, t.2 = pgSize * z ∧ x ≤ z ∧ z ≤ y ∧ ps.Has z ∧ Frees ps t.1 fun n => x ≤ n ∧ n < z
  let Post (t : Pools × Nat) : Prop := Frees ps t.1 fun n => x ≤ n ∧ n < y
  have hturn : ∀ t, Inv t → Turns (splitTurn (pgSize * y)) Inv Post (fun t => pgSize * y - t.2) t := by
    rintro ⟨qs, s⟩ ⟨z, rfl, hxz, hzy, hz, hfrees⟩
    obtain ⟨user, hin⟩ := hfrees.same.has.mpr hz
    obtain ⟨qs', hfrees', hrun⟩ := splitTurn_in (hfrees.same.ok hp) (hfrees.same.ends he) hin hzy hy
    have hlt := hin.2
    set poolEnd := pgNo (qs.pool user).base + (qs.pool user).usedMap.bitCnt
    have hboth := hfrees.trans hfrees'
    by_cases hend : poolEnd < y
    · -- the region goes on behind the pool
      rw [if_pos hend] at hrun
      have hmul : pgSize * z < pgSize * poolEnd := Nat.mul_lt_mul_of_pos_left hlt (by decide)
      have hmul' : pgSize * poolEnd < pgSize * y := Nat.mul_lt_mul_of_pos_left hend (by decide)
      refine .inr ⟨_, hrun, ⟨poolEnd, rfl, by omega, by omega, hall _ (by omega) hend, hboth.congr fun n => ?_⟩, ?_⟩
      · omega
      · show pgSize * y - pgSize * poolEnd < pgSize * y - pgSize * z
        omega
    · rw [if_neg hend] at hrun
      exact .inl ⟨_, hrun, hboth.congr fun n => by omega⟩
  obtain ⟨⟨ps', s⟩, hrun, hpost⟩ := whileLoop_ends hturn (show Inv (ps, pgSize * x) from
    ⟨x, rfl, Nat.le_refl x, hxy, hx, .refl ps fun n hn => by omega⟩)
    (show pgSize * y - pgSize * x < pgSize * y + 1 by omega)
  exact ⟨ps', s, hrun, hpost⟩

theorem pgRoundUp_mul (h : pgSize * x < u64) : pgRoundUp (pgSize * x) = pgSize * x := by
  have hpg : pgSize = 4096 := rfl
  have hu : u64 = 2 ^ 64 := rfl
  unfold pgRoundUp
  simp only [hpg, hu] at h ⊢
  omega

/-- The first page of the region that is to be freed, or the page behind the
region, when none is. -/
def firstFree (bound : Nat) (r : Region) : Nat := max r.first bound

/-- The second loop finds a pool for the region. -/
def Pools.Finds (ps : Pools) (bound : Nat) (r : Region) : Prop := bound ≤ r.stop → ps.Has (firstFree bound r)

theorem freeAt_above (hr : Addressable r) (hb : bound ≤ r.stop) : freeAt bound ps r =
    (whileLoop (splitTurn (pgSize * r.stop)) (pgSize * r.stop + 1) (ps, pgSize * firstFree bound r)).map Prod.fst := by
  have hlt : ¬ pgSize * r.stop < pgSize * bound := Nat.not_lt.mpr (Nat.mul_le_mul_left _ hb)
  have hfirst : r.first ≤ r.stop := Nat.le_add_right _ _
  have hx : pgSize * firstFree bound r < u64 :=
    (Nat.mul_le_mul_left _ (Nat.max_le.mpr ⟨hfirst, hb⟩)).trans_lt hr
  have hstart : (if pgSize * r.first ≥ pgSize * bound then pgSize * r.first else pgSize * bound) =
      pgSize * firstFree bound r := by
    unfold firstFree
    split
    case isTrue hge => rw [Nat.max_eq_left (Nat.le_of_mul_le_mul_left hge (by decide))]
    case isFalse hge => rw [Nat.max_eq_right (Nat.le_of_mul_le_mul_left (Nat.le_of_not_ge hge) (by decide))]
  unfold freeAt freeRegion
  simp only [stop_eq hr, if_neg hlt, hstart, pgRoundUp_mul hx]

theorem freeAt_below (hr : Addressable r) (hb : r.stop < bound) : freeAt bound ps r = some ps := by
  unfold freeAt freeRegion
  simp only [stop_eq hr, if_pos (Nat.mul_lt_mul_of_pos_left hb (show 0 < pgSize by decide))]

/-- A turn of the second loop frees the pages of the region above the bound,
when it finds a pool for it. -/
theorem freeAt_finds (hp : ps.Ok) (he : ps.Ends) (hr : Addressable r) (hall : ∀ n, r.first ≤ n → n < r.stop → ps.Has n)
    (hfind : ps.Finds bound r) :
    ∃ ps', freeAt bound ps r = some ps' ∧ Frees ps ps' fun n => bound ≤ n ∧ r.first ≤ n ∧ n < r.stop := by
  rcases Nat.lt_or_ge r.stop bound with hb | hb
  · exact ⟨ps, freeAt_below hr hb, .refl ps fun n hn => by omega⟩
  · have hfirst : r.first ≤ r.stop := Nat.le_add_right _ _
    obtain ⟨ps', s, hrun, hfrees⟩ := split_run hp he (hfind hb)
      (fun n hn hn' => hall n ((Nat.le_max_left _ _).trans hn) hn') (Nat.max_le.mpr ⟨hfirst, hb⟩) hr
    refine ⟨ps', by rw [freeAt_above hr hb, hrun]; rfl, hfrees.congr fun n => ?_⟩
    unfold firstFree
    omega

theorem freeAt_none (hp : ps.Ok) (hr : Addressable r) (hfind : ¬ ps.Finds bound r) : freeAt bound ps r = none := by
  unfold Pools.Finds at hfind
  obtain ⟨hb, hno⟩ := Classical.not_imp.mp hfind
  rw [freeAt_above hr hb, whileLoop, splitTurn_none hp hno]
  rfl

theorem SamePlaces.finds (h : SamePlaces ps ps') : ps'.Finds bound r ↔ ps.Finds bound r := by
  unfold Pools.Finds
  rw [h.has]

/-- What a turn at `split` leaves, the pools are where they were. -/
theorem splitTurn_same (stop : Nat) {t : Pools × Nat} (ht : SamePlaces ps t.1) :
    Keeps (splitTurn stop) (fun t => SamePlaces ps t.1) (fun t => SamePlaces ps t.1) t := by
  obtain ⟨qs, s⟩ := t
  have hset {user : Bool} {map : PackedBitmap} {start cnt : Nat}
      (h : bitmapSetMultiple (qs.pool user).usedMap start cnt false = some map) : SamePlaces ps (qs.setMap user map) :=
    ht.trans (samePlaces_setMap (bitmapSetMultiple_bitCnt h))
  simp only [Keeps, splitTurn]
  cases poolOf qs s with
  | none => exact trivial
  | some user =>
    simp only [Option.bind_eq_bind, Option.bind_some]
    by_cases hend : ((qs.pool user).base + bitmapSize (qs.pool user).usedMap * pgSize) % u64 < stop
    · simp only [if_pos hend]
      cases hmap : bitmapSetMultiple (qs.pool user).usedMap _ _ false with
      | none => exact trivial
      | some map => exact hset hmap
    · simp only [if_neg hend]
      cases hmap : bitmapSetMultiple (qs.pool user).usedMap _ _ false with
      | none => exact trivial
      | some map => exact hset hmap

theorem freeAt_same (h : freeAt bound ps r = some ps') : SamePlaces ps ps' := by
  unfold freeAt freeRegion at h
  simp only at h
  split at h
  case isTrue =>
    obtain rfl := Option.some.inj h
    exact .refl ps
  case isFalse =>
    obtain ⟨t, hrun, rfl⟩ := Option.map_eq_some_iff.mp h
    have hsame := whileLoop_post (fun t ht => splitTurn_same _ ht) (SamePlaces.refl ps) hrun
    exact hsame

/-! ## The loop -/

theorem freeRun_same (h : Run.run (freeAt bound) ps rs = some ps') : SamePlaces ps ps' := by
  have hkeep : ∀ qs r qs', SamePlaces ps qs → True → freeAt bound qs r = some qs' → SamePlaces ps qs' :=
    fun qs r qs' hsame _ hturn => hsame.trans (freeAt_same hturn)
  exact Run.run_invariant hkeep (.refl ps) h (Run.always_of_mem ps fun _ _ _ => trivial)

/-- The pages of the regions above the bound. -/
def Above (bound : Nat) (rs : List Region) (n : Nat) : Prop := bound ≤ n ∧ ∃ r ∈ rs, r.first ≤ n ∧ n < r.stop

/-- **The second loop** frees the pages above the bound, when it finds a pool
for each region, and fails at the first for which it does not. -/
theorem free_run (hp : ps.Ok) (he : ps.Ends) (hrs : ∀ r ∈ rs, Addressable r)
    (hall : ∀ r ∈ rs, ∀ n, r.first ≤ n → n < r.stop → ps.Has n) :
    (∀ r ∈ rs, ps.Finds bound r) ∧ (∃ ps', Run.run (freeAt bound) ps rs = some ps' ∧ Frees ps ps' (Above bound rs)) ∨
      ¬ (∀ r ∈ rs, ps.Finds bound r) ∧ Run.run (freeAt bound) ps rs = none := by
  induction rs generalizing ps with
  | nil => exact .inl ⟨fun r hr => (by cases hr), ps, rfl, .refl ps fun n ⟨_, r, hr, _⟩ => by cases hr⟩
  | cons r rs ih =>
    have hr := hrs r List.mem_cons_self
    by_cases hfind : ps.Finds bound r
    · obtain ⟨ps₁, hturn, hfrees⟩ := freeAt_finds hp he hr (hall r List.mem_cons_self) hfind
      have hsame := hfrees.same
      have hrest := ih (hsame.ok hp) (hsame.ends he) (fun q hq => hrs q (List.mem_cons_of_mem r hq))
        fun q hq n hn hn' => hsame.has.mpr (hall q (List.mem_cons_of_mem r hq) n hn hn')
      simp only [hsame.finds] at hrest
      rw [Run.run, hturn, Option.bind_some, List.forall_mem_cons]
      rcases hrest with ⟨hfinds, ps', hrun, hfrees'⟩ | ⟨hno, hnone⟩
      · refine .inl ⟨⟨hfind, hfinds⟩, ps', hrun, (hfrees.trans hfrees').congr fun n => ?_⟩
        unfold Above
        simp only [List.mem_cons, exists_eq_or_imp]
        rw [← and_or_left]
      · exact .inr ⟨fun h => hno h.2, hnone⟩
    · refine .inr ⟨fun h => hfind (h r List.mem_cons_self), ?_⟩
      rw [Run.run, freeAt_none hp hr hfind]
      rfl

end PintosKaist.Threads.Palloc
