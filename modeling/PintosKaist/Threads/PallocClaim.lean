/-
The first loop of `populate_pools`, region by region: it claims the pages up to
the cut for the kernel pool, and ends where the plan has the user pool, unless
the assertion that compares pages with bytes fails.
-/
import PintosKaist.Threads.PallocPlan

namespace PintosKaist.Threads.Palloc

open PintosKaist.LibKernel

/-- A turn of the loop, with a run of pages. -/
def claimAt (words : Nat → BitVec 64) (userPages : Nat) (c : Claim) (r : Region) : Option Claim :=
  claimRegion words userPages c (pgSize * r.first) (pgSize * r.cnt)

/-- The region is in memory that has an address. -/
def Addressable (r : Region) : Prop := pgSize * r.stop < u64

variable {rs : List Region} {r : Region} {c c' : Claim} {words : Nat → BitVec 64} {userPages first d : Nat}

theorem stop_eq (hr : Addressable r) : (pgSize * r.first + pgSize * r.cnt) % u64 = pgSize * r.stop := by
  rw [← Nat.mul_add]
  exact Nat.mod_eq_of_lt hr

theorem size_in_pg (r : Region) : pgSize * r.cnt / pgSize = r.cnt := Nat.mul_div_cancel_left _ (by decide)

/-- `a - b + c`, where it is not negative. -/
theorem sub64_add {a b c : Nat} (hc : c ≤ b) (hle : b - c ≤ a) (ha : a < u64) (hb : b < u64) :
    (sub64 a b + c) % u64 = a - (b - c) := by
  unfold sub64
  rw [Nat.mod_add_mod, show a + u64 - b + c = a - (b - c) + u64 by omega, Nat.add_mod_right]
  exact Nat.mod_eq_of_lt (by omega)

/-! ## A turn -/

theorem claimAt_start (hc : c.state = .kernStart) : claimAt words userPages c r =
    claimAt words userPages { c with regionStart := pgSize * r.first, state := .kern } r := by
  unfold claimAt claimRegion
  simp [hc]

theorem claimAt_kern (hr : Addressable r) (hc : c.state = .kern) (hlt : r.cnt < c.rem) :
    claimAt words userPages c r = some { c with rem := c.rem - r.cnt, stop := pgSize * r.stop } := by
  unfold claimAt claimRegion
  simp [hc, size_in_pg, stop_eq hr, hlt]

theorem claimAt_user (hr : Addressable r) (hc : c.state = .user) : claimAt words userPages c r =
    if r.cnt < c.rem then some { c with rem := c.rem - r.cnt, stop := pgSize * r.stop }
    else if c.rem = pgSize * r.cnt then some { c with stop := pgSize * r.stop } else none := by
  unfold claimAt claimRegion
  simp [hc, size_in_pg, stop_eq hr]

theorem claimAt_userStart (hr : Addressable r) (hc : c.state = .userStart) : claimAt words userPages c r =
    some { c with regionStart := pgSize * r.first, state := .user, stop := pgSize * r.stop } := by
  unfold claimAt claimRegion
  simp [hc, stop_eq hr]

/-- The turn in which the kernel's share ends. -/
theorem claimAt_cut (hr : Addressable r) (hc : c.state = .kern) (hle : c.rem ≤ r.cnt) (hreg : c.regionStart = pgSize * first)
    (hfirst : first ≤ r.first) (hup : r.cnt - c.rem ≤ userPages) (hu64 : userPages < u64) :
    ∃ p, Fresh p first (r.first + c.rem - first) ∧ claimAt words userPages c r = some
      (if c.rem = r.cnt then
        { c with
          rem := userPages, state := .userStart, stop := pgSize * r.stop, kernelPool := p
          freeStart := (c.freeStart + bitmapPages (r.first + c.rem - first) * pgSize) % u64 }
      else
        { c with
          rem := userPages - (r.cnt - c.rem), state := .user, stop := pgSize * r.stop, kernelPool := p
          regionStart := pgSize * (r.first + c.rem)
          freeStart := (c.freeStart + bitmapPages (r.first + c.rem - first) * pgSize) % u64 }) := by
  have hcut : pgSize * (r.first + c.rem) < u64 :=
    (Nat.mul_le_mul_left _ (Nat.add_le_add_left hle r.first)).trans_lt hr
  have hcut' : (pgSize * r.first + c.rem * pgSize) % u64 = pgSize * (r.first + c.rem) := by
    rw [Nat.mul_comm c.rem, ← Nat.mul_add]
    exact Nat.mod_eq_of_lt hcut
  obtain ⟨p, hp, hfresh⟩ := initPool_eq words c.freeStart (by omega : first ≤ r.first + c.rem) hcut
  refine ⟨p, hfresh, ?_⟩
  have hcnt : r.cnt < u64 := by
    have hmul : r.cnt ≤ pgSize * r.stop := (Nat.le_add_left _ _).trans (Nat.le_mul_of_pos_left _ (by decide))
    exact hmul.trans_lt hr
  have hrem := sub64_add hle hup hu64 hcnt
  have hgt : ¬ r.cnt < c.rem := Nat.not_lt.mpr hle
  unfold claimAt claimRegion
  simp only [hc, size_in_pg, stop_eq hr, hgt, hcut', hreg, hp, hrem, reduceCtorEq, if_false,
    Option.bind_eq_bind, Option.bind_some]
  split <;> rfl

/-! ## The regions before the cut, and behind it -/

/-- What the regions before the cut and behind it leave alone. -/
def SameClaim (c c' : Claim) : Prop :=
  c'.state = c.state ∧ c'.regionStart = c.regionStart ∧ c'.freeStart = c.freeStart ∧ c'.kernelPool = c.kernelPool

theorem claim_before (hrs : ∀ r ∈ rs, Addressable r) (hc : c.state = .kern) (hrem : c.rem = total rs + d) (hd : 0 < d) :
    ∃ c', Run.run (claimAt words userPages) c rs = some c' ∧ SameClaim c c' ∧ c'.rem = d := by
  induction rs generalizing c with
  | nil => exact ⟨c, rfl, ⟨rfl, rfl, rfl, rfl⟩, by simpa using hrem⟩
  | cons r rs ih =>
    rw [total_cons] at hrem
    have hturn := @claimAt_kern r c words userPages (hrs r List.mem_cons_self) hc (by omega)
    obtain ⟨c', hrun, hsame, hrem'⟩ := ih (c := { c with rem := c.rem - r.cnt, stop := pgSize * r.stop })
      (fun q hq => hrs q (List.mem_cons_of_mem r hq)) hc (by simp only; omega)
    exact ⟨c', Run.run_cons.mpr ⟨_, hturn, hrun⟩, hsame, hrem'⟩

/-- Behind the cut `d` pages more than there are remain to be claimed: when
there are some, or no region has pages, no assertion fails. -/
theorem claim_after (hrs : ∀ r ∈ rs, Addressable r) (hc : c.state = .user) (hrem : c.rem = total rs + d)
    (hd : 0 < d ∨ total rs = 0) {stop : Nat} (hstop : c.stop = pgSize * stop) :
    ∃ c', Run.run (claimAt words userPages) c rs = some c' ∧ SameClaim c c' ∧ c'.stop = pgSize * lastStop stop rs := by
  induction rs generalizing c stop with
  | nil => exact ⟨c, rfl, ⟨rfl, rfl, rfl, rfl⟩, hstop⟩
  | cons r rs ih =>
    rw [total_cons] at hrem hd
    have hrs' : ∀ q ∈ rs, Addressable q := fun q hq => hrs q (List.mem_cons_of_mem r hq)
    have hturn := @claimAt_user r c words userPages (hrs r List.mem_cons_self) hc
    by_cases hlt : r.cnt < c.rem
    · rw [if_pos hlt] at hturn
      obtain ⟨c', hrun, hsame, hlast⟩ := ih (c := { c with rem := c.rem - r.cnt, stop := pgSize * r.stop })
        hrs' hc (by simp only; omega) (by omega) rfl
      exact ⟨c', Run.run_cons.mpr ⟨_, hturn, hrun⟩, hsame, hlast⟩
    · obtain ⟨hcnt, hrem0⟩ : r.cnt = 0 ∧ c.rem = 0 := by omega
      have hzero : c.rem = pgSize * r.cnt := by rw [hcnt, Nat.mul_zero, hrem0]
      rw [if_neg hlt, if_pos hzero] at hturn
      obtain ⟨c', hrun, hsame, hlast⟩ := ih (c := { c with stop := pgSize * r.stop }) hrs' hc (by simp only; omega)
        (by omega) rfl
      exact ⟨c', Run.run_cons.mpr ⟨_, hturn, hrun⟩, hsame, hlast⟩

/-- When as many pages remain to be claimed as there are, the assertion fails at
the last region that has some. -/
theorem claim_fails (hrs : ∀ r ∈ rs, Addressable r) (hc : c.state = .user) (hrem : c.rem = total rs) (hpos : 0 < total rs) :
    Run.run (claimAt words userPages) c rs = none := by
  induction rs generalizing c with
  | nil => exact absurd hpos (Nat.lt_irrefl 0)
  | cons r rs ih =>
    rw [total_cons] at hrem hpos
    have hturn := @claimAt_user r c words userPages (hrs r List.mem_cons_self) hc
    by_cases hlt : r.cnt < c.rem
    · rw [if_pos hlt] at hturn
      rw [Run.run, hturn, Option.bind_some]
      exact ih (fun q hq => hrs q (List.mem_cons_of_mem r hq)) hc (by simp only; omega) (by omega)
    · have hne : c.rem ≠ pgSize * r.cnt := by
        have hpg : pgSize = 4096 := rfl
        rw [hpg]
        omega
      rw [if_neg hlt, if_neg hne] at hturn
      rw [Run.run, hturn, Option.bind_none]

/-- Behind a cut within a region, or at the end of one. -/
theorem claim_rest (hrs : ∀ r ∈ rs, Addressable r) (hc : c.state = .userStart ∨ c.state = .user) (hrem : c.rem = total rs)
    {stop : Nat} (hstop : c.stop = pgSize * stop) :
    (total rs = 0 ∨ c.state = .userStart ∧ ∃ r ∈ rs.head?, 0 < r.cnt) ∧
        (∃ c', Run.run (claimAt words userPages) c rs = some c' ∧ c'.freeStart = c.freeStart ∧ c'.kernelPool = c.kernelPool ∧
          c'.stop = pgSize * lastStop stop rs ∧ c'.regionStart =
            if c.state = .user then c.regionStart else (rs.head?.map fun r => pgSize * r.first).getD c.regionStart) ∨
      ¬ (total rs = 0 ∨ c.state = .userStart ∧ ∃ r ∈ rs.head?, 0 < r.cnt) ∧ Run.run (claimAt words userPages) c rs = none := by
  rcases hc with hc | hc
  · cases rs with
    | nil => exact .inl ⟨.inl rfl, c, rfl, rfl, rfl, hstop, by simp⟩
    | cons r rs =>
      rw [total_cons] at hrem
      have hrs' : ∀ q ∈ rs, Addressable q := fun q hq => hrs q (List.mem_cons_of_mem r hq)
      have hturn := @claimAt_userStart r c words userPages (hrs r List.mem_cons_self) hc
      simp only [hc, total_cons, List.head?_cons, Option.mem_def, Option.some.injEq, exists_eq_left', true_and,
        Option.map_some, Option.getD_some, reduceCtorEq, if_false]
      by_cases hd : 0 < r.cnt ∨ total rs = 0
      · obtain ⟨c', hrun, ⟨-, hreg, hfree, hpool⟩, hlast⟩ := @claim_after rs
          { c with regionStart := pgSize * r.first, state := .user, stop := pgSize * r.stop } words userPages r.cnt
          hrs' rfl (by simp only; omega) hd r.stop rfl
        exact .inl ⟨by omega, c', Run.run_cons.mpr ⟨_, hturn, hrun⟩, hfree, hpool, hlast, hreg⟩
      · refine .inr ⟨by omega, ?_⟩
        rw [Run.run, hturn, Option.bind_some]
        exact claim_fails hrs' rfl (by simp only; omega) (by omega)
  · simp only [hc, reduceCtorEq, false_and, or_false, if_true]
    by_cases hd : total rs = 0
    · obtain ⟨c', hrun, ⟨-, hreg, hfree, hpool⟩, hlast⟩ := @claim_after rs c words userPages 0 hrs hc hrem (.inr hd) stop hstop
      exact .inl ⟨hd, c', hrun, hfree, hpool, hlast, hreg⟩
    · exact .inr ⟨hd, claim_fails hrs hc hrem (by omega)⟩

/-! ## The loop -/

/-- The first region of all starts the kernel pool. -/
theorem claim_first (k : Cut) (hc : c.state = .kernStart) :
    Run.run (claimAt words userPages) c (k.before ++ k.region :: k.after) =
      Run.run (claimAt words userPages) { c with regionStart := pgSize * k.kernelStart, state := .kern }
        (k.before ++ k.region :: k.after) := by
  unfold Cut.kernelStart
  cases k.before with
  | nil => exact congrArg (Option.bind · _) (claimAt_start hc)
  | cons r rs => exact congrArg (Option.bind · _) (claimAt_start hc)

/-- **The first loop** goes through when the cut is one that it can claim, and
then leaves the two pools where the plan has them. -/
theorem claim_run {pages freeStart : Nat} {k : Cut} {pool : Pool} (hrs : ∀ r ∈ rs, Addressable r) (hsorted : Sorted rs)
    (hcut : findCut pages rs = some k) (hpos : 0 < pages) (hup : pages + userPages = total rs) (hu64 : userPages < u64) :
    k.Claims ∧ (∃ c, Run.run (claimAt words userPages) ⟨.kernStart, pages, 0, 0, freeStart, pool⟩ rs = some c ∧
        c.freeStart = (freeStart + bitmapPages (k.kernelStop - k.kernelStart) * pgSize) % u64 ∧
        c.regionStart = pgSize * k.userStart ∧ c.stop = pgSize * k.userStop ∧
        Fresh c.kernelPool k.kernelStart (k.kernelStop - k.kernelStart)) ∨
      ¬ k.Claims ∧ Run.run (claimAt words userPages) ⟨.kernStart, pages, 0, 0, freeStart, pool⟩ rs = none := by
  obtain ⟨rfl, hle, hpages⟩ := findCut_some hcut
  have hd := findCut_pos hcut hpos
  have hbefore : ∀ r ∈ k.before, Addressable r := fun r hr => hrs r (by simp [hr])
  have hafter : ∀ r ∈ k.after, Addressable r := fun r hr => hrs r (by simp [hr])
  rw [total_append, total_cons] at hup
  obtain ⟨c₁, hrun₁, ⟨hst, hreg, hfree, -⟩, hrem⟩ := @claim_before k.before
    ⟨.kern, pages, pgSize * k.kernelStart, 0, freeStart, pool⟩ words userPages k.rem hbefore rfl hpages hd
  obtain ⟨p, hfresh, hturn⟩ := @claimAt_cut k.region c₁ words userPages k.kernelStart (hrs k.region (by simp)) hst
    (by omega) hreg (Cut.sorted hsorted).2.2.1 (by omega) hu64
  have hrun : ∀ c₂, claimAt words userPages c₁ k.region = some c₂ →
      Run.run (claimAt words userPages) ⟨.kernStart, pages, 0, 0, freeStart, pool⟩ (k.before ++ k.region :: k.after) =
        Run.run (claimAt words userPages) c₂ k.after := fun c₂ h₂ => by
    rw [claim_first k rfl, Run.run_append, hrun₁, Option.bind_some, Run.run, h₂, Option.bind_some]
  rw [hrem] at hfresh hturn
  obtain ⟨c₂, hc₂⟩ : ∃ c₂, claimAt words userPages c₁ k.region = some c₂ := ⟨_, hturn⟩
  have he := Option.some.inj (hc₂.symm.trans hturn)
  rw [hrun c₂ hc₂]
  have hfree₂ : c₂.freeStart = (freeStart + bitmapPages (k.kernelStop - k.kernelStart) * pgSize) % u64 := by
    rw [he, hfree]
    split <;> rfl
  have hfresh₂ : Fresh c₂.kernelPool k.kernelStart (k.kernelStop - k.kernelStart) := by
    rw [he]
    split <;> exact hfresh
  by_cases hex : k.rem = k.region.cnt
  · rw [if_pos hex] at he
    have hstart : pgSize * k.userStart =
        (k.after.head?.map fun r => pgSize * r.first).getD (pgSize * k.kernelStart) := by
      unfold Cut.userStart
      rw [if_neg (by omega)]
      cases k.after <;> rfl
    have hst₂ : c₂.state = .userStart := by rw [he]
    have hrem₂ : c₂.rem = total k.after := by
      rw [he]
      show userPages = _
      omega
    rcases @claim_rest k.after c₂ words userPages hafter (.inl hst₂) hrem₂ k.region.stop (by rw [he]) with
      ⟨hcl, c, hr, hf, hp, hs, hg⟩ | ⟨hcl, hnone⟩
    · refine .inl ⟨hcl.imp_right fun h => ⟨hex, h.2⟩, c, hr, hf.trans hfree₂, ?_, hs, hp ▸ hfresh₂⟩
      rw [hg, hst₂, if_neg (by simp), hstart, he, hreg]
    · exact .inr ⟨fun h => hcl (h.imp_right fun h => ⟨hst₂, h.2⟩), hnone⟩
  · rw [if_neg hex] at he
    have hst₂ : c₂.state = .user := by rw [he]
    have hrem₂ : c₂.rem = total k.after := by
      rw [he]
      show userPages - (k.region.cnt - k.rem) = _
      omega
    have hno : ¬ c₂.state = .userStart := fun h => by cases hst₂.symm.trans h
    rcases @claim_rest k.after c₂ words userPages hafter (.inr hst₂) hrem₂ k.region.stop (by rw [he]) with
      ⟨hcl, c, hr, hf, hp, hs, hg⟩ | ⟨hcl, hnone⟩
    · refine .inl ⟨.inl (hcl.resolve_right fun h => hno h.1), c, hr, hf.trans hfree₂, ?_, hs, hp ▸ hfresh₂⟩
      have hstart : k.userStart = k.kernelStop := if_pos (by omega)
      rw [hg, if_pos hst₂, he, hstart]
      rfl
    · exact .inr ⟨fun h => hcl (.inl (h.resolve_right fun h => hex h.1)), hnone⟩

end PintosKaist.Threads.Palloc
