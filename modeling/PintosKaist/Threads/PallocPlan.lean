/-
Which pages `populate_pools` gives to which pool. The usable regions are taken
as runs of page numbers; the first loop cuts their sequence where the kernel's
share of the pages ends.
-/
import PintosKaist.Threads.PallocInit

namespace PintosKaist.Threads.Palloc

open PintosKaist.LibKernel

/-- A run of pages, from page number `first` on. -/
structure Region where
  first : Nat
  cnt : Nat
deriving DecidableEq

def Region.stop (r : Region) : Nat := r.first + r.cnt

def total (rs : List Region) : Nat := (rs.map Region.cnt).sum

/-- The pages of an entry, as the kernel addresses them. -/
def E820Entry.region (e : E820Entry) : Region := ⟨pgNo (e.start + kernBase), pgNo e.size⟩

/-- The usable regions of a memory map. -/
def regions (entries : List E820Entry) : List Region := (entries.filter E820Entry.usable).map E820Entry.region

/-- The pages that the user pool gets. -/
def userShare (limit : Nat) (rs : List Region) : Nat := min (total rs / 2) limit

/-- The regions, cut after `rem` pages of one of them. -/
structure Cut where
  before : List Region
  region : Region
  rem : Nat
  after : List Region
deriving DecidableEq

/-- The cut after the first `pages` pages. -/
def findCut : Nat → List Region → Option Cut
  | _, [] => none
  | pages, r :: rs =>
    if r.cnt < pages then (findCut (pages - r.cnt) rs).map fun c => { c with before := r :: c.before }
    else some ⟨[], r, pages, rs⟩

/-- The end of the last region. -/
def lastStop : Nat → List Region → Nat
  | stop, [] => stop
  | _, r :: rs => lastStop r.stop rs

namespace Cut

/-- The first page of the kernel pool. -/
def kernelStart (c : Cut) : Nat := (c.before.head?.map Region.first).getD c.region.first

/-- The first page behind the kernel pool. -/
def kernelStop (c : Cut) : Nat := c.region.first + c.rem

/-- The first page of the user pool: that of the kernel pool, when no region is
left for users. -/
def userStart (c : Cut) : Nat :=
  if c.rem < c.region.cnt then c.kernelStop else (c.after.head?.map Region.first).getD c.kernelStart

/-- The first page behind the user pool. -/
def userStop (c : Cut) : Nat := lastStop c.region.stop c.after

/-- The first page behind the bitmaps, which begin at page `start`. -/
def bound (c : Cut) (start : Nat) : Nat :=
  start + bitmapPages (c.kernelStop - c.kernelStart) + bitmapPages (c.userStop - c.userStart)

/-- No assertion fails in the first loop: no pages come after the cut, or the
cut is at the end of a region and the next is not empty. -/
def Claims (c : Cut) : Prop := total c.after = 0 ∨ c.rem = c.region.cnt ∧ ∃ r ∈ c.after.head?, 0 < r.cnt

/-- A region, or a part of one, is left for users. -/
def Apart (c : Cut) : Prop := c.rem < c.region.cnt ∨ c.after ≠ []

/-- The page is in one of the pools. -/
def InPool (c : Cut) (n : Nat) : Prop := c.kernelStart ≤ n ∧ n < c.kernelStop ∨ c.userStart ≤ n ∧ n < c.userStop

/-- The second loop finds a pool for the region: it ends below the bound, or the
page at which the loop begins, at the bound or in the region, is in a pool. -/
def Finds (c : Cut) (bound : Nat) (r : Region) : Prop := bound ≤ r.stop → c.InPool (max r.first bound)

end Cut

variable {rs rs' : List Region} {r : Region} {c : Cut} {pages n a b x y d : Nat} {words : Nat → BitVec 64} {userPages : Nat}

/-! ## The cut -/

@[simp] theorem total_nil : total [] = 0 := rfl

@[simp] theorem total_cons (r : Region) (rs : List Region) : total (r :: rs) = r.cnt + total rs := List.sum_cons

@[simp] theorem total_append (rs rs' : List Region) : total (rs ++ rs') = total rs + total rs' := by
  simp [total]

theorem cnt_le_total (hr : r ∈ rs) : r.cnt ≤ total rs := by
  obtain ⟨l₁, l₂, rfl⟩ := List.append_of_mem hr
  rw [total_append, total_cons]
  omega

/-- The cut is in the first region, or in the others. -/
theorem findCut_cons (h : findCut pages (r :: rs) = some c) :
    (r.cnt < pages ∧ ∃ c', findCut (pages - r.cnt) rs = some c' ∧ { c' with before := r :: c'.before } = c) ∨
      pages ≤ r.cnt ∧ ⟨[], r, pages, rs⟩ = c := by
  unfold findCut at h
  split at h
  · rename_i hlt
    exact .inl ⟨hlt, Option.map_eq_some_iff.mp h⟩
  · rename_i hge
    exact .inr ⟨Nat.not_lt.mp hge, Option.some.inj h⟩

theorem findCut_some (h : findCut pages rs = some c) :
    rs = c.before ++ c.region :: c.after ∧ c.rem ≤ c.region.cnt ∧ pages = total c.before + c.rem := by
  induction rs generalizing pages c with
  | nil => cases h
  | cons r rs ih =>
    obtain ⟨hlt, c', hc', rfl⟩ | ⟨hle, rfl⟩ := findCut_cons h
    · obtain ⟨hrs, hrem, hpages⟩ := ih hc'
      refine ⟨by simp [← hrs], hrem, ?_⟩
      show pages = total (r :: c'.before) + c'.rem
      rw [total_cons]
      omega
    · exact ⟨rfl, hle, by simp⟩

/-- Something of the region at the cut is the kernel's. -/
theorem findCut_pos (h : findCut pages rs = some c) (hpos : 0 < pages) : 0 < c.rem := by
  induction rs generalizing pages c with
  | nil => cases h
  | cons r rs ih =>
    obtain ⟨hlt, c', hc', rfl⟩ | ⟨-, rfl⟩ := findCut_cons h
    · have hrem : 0 < c'.rem := ih hc' (by omega)
      exact hrem
    · exact hpos

/-- Regions in order: each begins where the one before it ends, or behind. -/
def Sorted (rs : List Region) : Prop := rs.Pairwise fun r r' => r.stop ≤ r'.first

theorem total_le_lastStop {stop : Nat} (hs : Sorted rs) (hstop : ∀ r ∈ rs, stop ≤ r.first) :
    stop + total rs ≤ lastStop stop rs := by
  induction rs generalizing stop with
  | nil => exact Nat.le_refl stop
  | cons r rs ih =>
    obtain ⟨hr, hs⟩ := List.pairwise_cons.mp hs
    have hle := ih hs hr
    have hfirst := hstop r List.mem_cons_self
    rw [total_cons]
    unfold lastStop
    unfold Region.stop at hle ⊢
    omega

theorem lastStop_of_mem {stop : Nat} (hs : Sorted rs) (hstop : ∀ r ∈ rs, stop ≤ r.first) :
    stop ≤ lastStop stop rs ∧ ∀ r ∈ rs, r.stop ≤ lastStop stop rs := by
  induction rs generalizing stop with
  | nil => exact ⟨Nat.le_refl stop, fun r hr => by cases hr⟩
  | cons r rs ih =>
    obtain ⟨hr, hs⟩ := List.pairwise_cons.mp hs
    obtain ⟨hle, hall⟩ := ih hs hr
    have hfirst := hstop r List.mem_cons_self
    refine ⟨by unfold lastStop; unfold Region.stop at hle ⊢; omega, fun q hq => ?_⟩
    obtain rfl | hq := List.mem_cons.mp hq
    · exact hle
    · exact hall q hq

/-- The end of the last region is the start or the end of one. -/
theorem lastStop_mem (stop : Nat) (rs : List Region) : lastStop stop rs = stop ∨ ∃ r ∈ rs, lastStop stop rs = r.stop := by
  induction rs generalizing stop with
  | nil => exact .inl rfl
  | cons r rs ih =>
    obtain he | ⟨q, hq, he⟩ := ih r.stop
    · exact .inr ⟨r, List.mem_cons_self, he⟩
    · exact .inr ⟨q, List.mem_cons_of_mem r hq, he⟩

/-! ## Where the pools are -/

/-- The parts of a sequence that is cut are in order. -/
theorem Cut.sorted (hs : Sorted (c.before ++ c.region :: c.after)) :
    (∀ r ∈ c.before, c.kernelStart ≤ r.first ∧ r.stop ≤ c.region.first) ∧
      (Sorted c.after ∧ ∀ r ∈ c.after, c.region.stop ≤ r.first) ∧
      c.kernelStart ≤ c.region.first ∧ c.region.stop ≤ c.userStop := by
  obtain ⟨hb, hra, hba⟩ := List.pairwise_append.mp hs
  obtain ⟨hr, ha⟩ := List.pairwise_cons.mp hra
  have hlast := (lastStop_of_mem ha hr).1
  have hregion : ∀ r ∈ c.before, r.stop ≤ c.region.first := fun r hr => hba r hr c.region List.mem_cons_self
  have hstart : ∀ r ∈ c.before, c.kernelStart ≤ r.first := by
    unfold Cut.kernelStart
    cases hbe : c.before with
    | nil => exact fun r hr => by cases hr
    | cons q qs =>
      rw [hbe] at hb
      intro r hr
      obtain rfl | hr := List.mem_cons.mp hr
      · exact Nat.le_refl _
      · exact (Nat.le_add_right q.first q.cnt).trans ((List.pairwise_cons.mp hb).1 r hr)
  refine ⟨fun r hr => ⟨hstart r hr, hregion r hr⟩, ⟨ha, hr⟩, ?_, hlast⟩
  unfold Cut.kernelStart
  cases hbe : c.before with
  | nil => exact Nat.le_refl _
  | cons q qs =>
    have hq := hregion q (by rw [hbe]; exact List.mem_cons_self)
    exact (Nat.le_add_right q.first q.cnt).trans hq

/-- The user pool begins behind the kernel's, and in front of the regions that
come after the cut. -/
theorem Cut.Apart.order (hap : c.Apart) (hs : Sorted (c.before ++ c.region :: c.after)) (hrem : c.rem ≤ c.region.cnt) :
    c.kernelStop ≤ c.userStart ∧ c.userStart ≤ c.userStop ∧ ∀ r ∈ c.after, c.userStart ≤ r.first := by
  obtain ⟨-, ⟨ha, hfirst⟩, -, hlast⟩ := Cut.sorted hs
  have hstop : c.kernelStop ≤ c.region.stop := Nat.add_le_add_left hrem _
  unfold Cut.userStart
  split
  case isTrue => exact ⟨Nat.le_refl _, hstop.trans hlast, fun r hr => hstop.trans (hfirst r hr)⟩
  case isFalse hge =>
    have hall := (lastStop_of_mem ha hfirst).2
    cases hafter : c.after with
    | nil => exact absurd hafter (hap.resolve_left hge)
    | cons q qs =>
      rw [hafter] at ha hfirst hall
      have hq := hfirst q List.mem_cons_self
      have hqstop : q.stop ≤ c.userStop := by
        unfold Cut.userStop
        rw [hafter]
        exact hall q List.mem_cons_self
      refine ⟨hstop.trans hq, (Nat.le_add_right q.first q.cnt).trans hqstop, fun r hr => ?_⟩
      obtain rfl | hr := List.mem_cons.mp hr
      · exact Nat.le_refl _
      · exact (Nat.le_add_right q.first q.cnt).trans ((List.pairwise_cons.mp ha).1 r hr)

/-- Every page of a region is in one of the pools. -/
theorem Cut.Apart.inPool (hap : c.Apart) (hs : Sorted (c.before ++ c.region :: c.after)) (hrem : c.rem ≤ c.region.cnt)
    (hr : r ∈ c.before ++ c.region :: c.after) (hn : r.first ≤ n) (hn' : n < r.stop) : c.InPool n := by
  obtain ⟨hbefore, ⟨ha, hfirst⟩, hstart, hlast⟩ := Cut.sorted hs
  obtain ⟨-, -, hafter⟩ := hap.order hs hrem
  obtain hr | hr := List.mem_append.mp hr
  · obtain ⟨h1, h2⟩ := hbefore r hr
    have hle : c.region.first ≤ c.kernelStop := Nat.le_add_right _ _
    exact .inl ⟨by omega, by omega⟩
  obtain rfl | hr := List.mem_cons.mp hr
  · by_cases hk : n < c.kernelStop
    · exact .inl ⟨by omega, hk⟩
    · have hcut : c.rem < c.region.cnt := by
        unfold Cut.kernelStop at hk
        unfold Region.stop at hn'
        omega
      have hus : c.userStart = c.kernelStop := if_pos hcut
      exact .inr ⟨by omega, by omega⟩
  · have hstop := (lastStop_of_mem ha hfirst).2 r hr
    have hus := hafter r hr
    exact .inr ⟨by omega, hn'.trans_le hstop⟩

/-- When no region is left for users, the two pools are the same. -/
theorem Cut.not_apart (hap : ¬ c.Apart) (hrem : c.rem ≤ c.region.cnt) :
    c.userStart = c.kernelStart ∧ c.userStop = c.kernelStop := by
  obtain ⟨hge, hnil⟩ := not_or.mp hap
  have hnil : c.after = [] := not_not.mp hnil
  unfold Cut.userStart Cut.userStop
  rw [if_neg hge, hnil]
  refine ⟨rfl, ?_⟩
  show c.region.first + c.region.cnt = c.region.first + c.rem
  omega

/-! ## Addresses of pages -/

theorem sub64_mul (hxy : x ≤ y) (hy : pgSize * y < u64) : sub64 (pgSize * y) (pgSize * x) = pgSize * (y - x) := by
  have hle : pgSize * x ≤ pgSize * y := Nat.mul_le_mul_left _ hxy
  unfold sub64
  rw [Nat.mul_sub, show pgSize * y + u64 - pgSize * x = pgSize * y - pgSize * x + u64 by omega, Nat.add_mod_right,
    Nat.mod_eq_of_lt (by omega)]

@[simp] theorem pgNo_mul (n : Nat) : pgNo (pgSize * n) = n := Nat.mul_div_cancel_left n (by decide)

/-- A pool that is set up has all its pages in use. -/
def Fresh (p : Pool) (first cnt : Nat) : Prop :=
  p.base = pgSize * first ∧ p.usedMap.bitCnt = cnt ∧ ∀ i < cnt, p.usedMap.toBitmap.bit i = true

theorem bitmapPages_enough (bitCnt : Nat) : bitmapBufSize bitCnt ≤ bitmapPages bitCnt * pgSize := by
  have hpg : pgSize = 4096 := rfl
  unfold bitmapPages divRoundUp
  rw [hpg]
  omega

theorem initPool_eq (words : Nat → BitVec 64) (bmBase : Nat) (hxy : x ≤ y) (hy : pgSize * y < u64) :
    ∃ p, initPool words bmBase (pgSize * x) (pgSize * y) = some (p, (bmBase + bitmapPages (y - x) * pgSize) % u64) ∧
      Fresh p x (y - x) := by
  have hcnt : sub64 (pgSize * y) (pgSize * x) / pgSize = y - x := by
    rw [sub64_mul hxy hy, Nat.mul_div_cancel_left _ (by decide)]
  obtain ⟨m₁, h₁, hs₁, -⟩ := bitmapCreateInBuf_eq (fun i => words (bmBase + 16 + 8 * i)) (bitmapPages_enough (y - x))
  obtain ⟨m₂, h₂, hm₂⟩ := bitmapSetAll_eq m₁ true
  have hs₂ : m₂.bitCnt = m₁.bitCnt := congrArg Bitmap.size hm₂
  refine ⟨⟨m₂, pgSize * x⟩, ?_, rfl, hs₂.trans hs₁, fun i hi => ?_⟩
  · unfold initPool
    simp only [hcnt, h₁, h₂, Option.bind_eq_bind, Option.bind_some]
  · rw [hm₂, Bitmap.setMultiple_bit, if_pos (by omega)]

end PintosKaist.Threads.Palloc
