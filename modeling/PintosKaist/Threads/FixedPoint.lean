/-
The arithmetic of the multi-level feedback queue scheduler as the machine does
it: `fixed_t` and `int` have 32 bits, and `mul_fp` and `div_fp` go through 64.
A function here has no result where one of its operations overflows or divides
by zero, and else the one of `Threads.Mlfqs`, where they go around.
-/
import PintosKaist.Lib.CInt
import PintosKaist.Threads.Mlfqs

namespace PintosKaist.Threads

open CInt

namespace Checked

/-! ## `fixed-point.c` -/

def intToFp (n : Int) : Option Int := int32 (n * fpOne)

def fpToIntRound (x : Int) : Option Int := do
  let half ← quot fpOne 2
  let y ← int32 (if 0 ≤ x then x + half else x - half)
  quot y fpOne

def addFp (x y : Int) : Option Int := int32 (x + y)

def addFpInt (x n : Int) : Option Int := do
  let m ← int32 (n * fpOne)
  int32 (x + m)

def mulFp (x y : Int) : Option Int := do
  let p ← int64 (x * y)
  let q ← quot p fpOne
  int32 q

def mulFpInt (x n : Int) : Option Int := int32 (x * n)

def divFp (x y : Int) : Option Int := do
  let p ← int64 (x * fpOne)
  let q ← quot p y
  int32 q

def divFpInt (x n : Int) : Option Int := do
  let q ← quot x n
  int32 q

/-! ## `thread.c` -/

/-- What `update_priority` computes. -/
def newPriority (recentCpu nice : Int) : Option Int := do
  let quarter ← divFpInt recentCpu 4
  let r ← fpToIntRound quarter
  let d ← int32 (priMax - r)
  let n ← int32 (nice * 2)
  let p ← int32 (d - n)
  let p₁ := if p > priMax then priMax else p
  some (if p₁ < priMin then priMin else p₁)

/-- `update_priority`. -/
def updatePriority (s : Mlfqs) (k : Kernel) (t : Nat) : Option Kernel :=
  if t = k.idleThread then some k
  else do
    let p ← newPriority (s.recentCpu t) (s.nice t)
    some (k.modify t fun th => { th with priority := p })

/-- `update_recent_cpu`. -/
def updateRecentCpu (s : Mlfqs) : Option Mlfqs := do
  let r ← addFpInt (s.recentCpu s.kern.cur) 1
  some { s with recentCpu := Function.update s.recentCpu s.kern.cur r }

/-- The `ready_threads` of `update_load_avg`. -/
def readyThreads (k : Kernel) : Int := k.readyList.length + if k.cur ≠ k.idleThread then 1 else 0

/-- `update_load_avg`. -/
def updateLoadAvg (s : Mlfqs) : Option Mlfqs := do
  let ready ← int32 (readyThreads s.kern)
  let weighted ← mulFpInt s.loadAvg 59
  let term₁ ← divFpInt weighted 60
  let one ← intToFp 1
  let sixtieth ← divFpInt one 60
  let term₂ ← mulFpInt sixtieth ready
  let load ← addFp term₁ term₂
  some { s with loadAvg := load }

/-- The new `recent_cpu` of a thread in `update_recent_cpu_all`. -/
def decayed (loadAvg recent nice : Int) : Option Int := do
  let load₁ ← mulFpInt loadAvg 2
  let load₂ ← mulFpInt loadAvg 2
  let below ← addFpInt load₂ 1
  let coeff ← divFp load₁ below
  let r ← mulFp coeff recent
  let n ← intToFp nice
  addFp r n

/-- `update_recent_cpu_all`. -/
def updateRecentCpuAll (s : Mlfqs) : Option Mlfqs := do
  let recentCpu ← s.allList.foldlM (fun recent t =>
    if s.skips t then some recent
    else do
      let r ← decayed s.loadAvg (recent t) (s.nice t)
      some (Function.update recent t r)) s.recentCpu
  some { s with recentCpu := recentCpu }

/-- `update_all_priority`, in a handler. -/
def updateAllPriority (s : Mlfqs) : Option Mlfqs := do
  let k ← s.allList.foldlM (fun k t => if s.skips t then some k else updatePriority s k t) s.kern
  some { s with kern := k.sortReady }

/-- What `mlfqs_on_tick` does once a second. -/
def onSecond (s : Mlfqs) : Option Mlfqs :=
  if s.ticks % timerFreq = 0 then (updateLoadAvg s).bind updateRecentCpuAll else some s

/-- `timer_interrupt` and `mlfqs_on_tick`. -/
def mlfqsOnTick (s : Mlfqs) : Option Mlfqs := do
  let s₁ ← updateRecentCpu { s with ticks := s.ticks + 1 }
  let s₂ ← onSecond s₁
  if s₂.ticks % 4 = 0 then
    let s₃ ← updateAllPriority s₂
    let s₄ := s₃.record fun t => t < s.kern.next ∧ ¬ s.skips t
    some { s₄ with kern := s₄.kern.sortReady }
  else some s₂

/-- `thread_get_recent_cpu`. -/
def threadGetRecentCpu (s : Mlfqs) : Option Int := do
  let x ← int32 (s.recentCpu s.kern.cur * 100)
  fpToIntRound x

/-- `thread_get_load_avg`. -/
def threadGetLoadAvg (s : Mlfqs) : Option Int := do
  let x ← int32 (s.loadAvg * 100)
  fpToIntRound x

/-! ## Where nothing overflows -/

variable {x r n load ready N : Int} {s : Mlfqs}

theorem fpToIntRound_of (h₁ : -2147475456 ≤ x) (h₂ : x ≤ 2147475455) :
    fpToIntRound x = some (Threads.fpToIntRound x) := by
  have hquot : quot fpOne 2 = some 8192 := rfl
  have hhalf : fpOne.tdiv 2 = 8192 := rfl
  have hone : quot (if 0 ≤ x then x + 8192 else x - 8192) fpOne =
      some ((if 0 ≤ x then x + 8192 else x - 8192).tdiv fpOne) :=
    quot_of (by decide)
  simp only [fpToIntRound, Threads.fpToIntRound, hquot, hhalf, Option.bind_eq_bind, Option.bind_some]
  rw [int32_of (by split <;> omega) (by split <;> omega), Option.bind_some, hone]
  split
  · rw [wrap_of (by omega) (by omega)]
  · rw [wrap_of (by omega) (by omega)]

theorem fpToIntRound_none (h : x < -2147475456 ∨ 2147475455 < x) : fpToIntRound x = none := by
  have hquot : quot fpOne 2 = some 8192 := rfl
  simp only [fpToIntRound, hquot, Option.bind_eq_bind, Option.bind_some]
  rw [int32_none (by split <;> omega), Option.bind_none]

/-- The bounds of a rounded value. -/
theorem fpToIntRound_bounds (hN : N ≤ 131071) (h₁ : -(N * 16384) ≤ x) (h₂ : x ≤ N * 16384) :
    -(N + 1) ≤ Threads.fpToIntRound x ∧ Threads.fpToIntRound x ≤ N + 1 := by
  have hhalf : fpOne.tdiv 2 = 8192 := rfl
  simp only [Threads.fpToIntRound, hhalf]
  rw [wrap_of (by omega) (by omega), wrap_of (by omega) (by omega)]
  split
  · exact ⟨le_tdiv (by decide) (by simp only [fpOne]; omega), tdiv_le (by decide) (by simp only [fpOne]; omega)⟩
  · exact ⟨le_tdiv (by decide) (by simp only [fpOne]; omega), tdiv_le (by decide) (by simp only [fpOne]; omega)⟩

theorem newPriority_of (h₁ : -268435456 ≤ r) (h₂ : r ≤ 268435456) (hn₁ : -20 ≤ n) (hn₂ : n ≤ 20) :
    newPriority r n = some (Threads.newPriority r n) := by
  have hq₁ : -67108864 ≤ r.tdiv 4 := le_tdiv (by decide) (by omega)
  have hq₂ : r.tdiv 4 ≤ 67108864 := tdiv_le (by decide) (by omega)
  obtain ⟨hr₁, hr₂⟩ := fpToIntRound_bounds (N := 4096) (x := r.tdiv 4) (by decide) (by omega) (by omega)
  have hwrap : wrap (wrap (63 - Threads.fpToIntRound (r.tdiv 4)) - wrap (n * 2)) =
      63 - Threads.fpToIntRound (r.tdiv 4) - n * 2 := by
    rw [wrap_sub_wrap, wrap_of (by omega) (by omega)]
  simp only [newPriority, Threads.newPriority, divFpInt, Threads.divFpInt, quot_of (by decide : (4 : Int) ≠ 0),
    Option.bind_eq_bind, Option.bind_some]
  rw [int32_of (by omega) (by omega), Option.bind_some, fpToIntRound_of (by omega) (by omega), Option.bind_some]
  simp only [priMax, priMin]
  rw [int32_of (by omega) (by omega), Option.bind_some, int32_of (by omega) (by omega), Option.bind_some,
    int32_of (by omega) (by omega), Option.bind_some]
  simp only [hwrap]
  rfl

/-! ## `update_load_avg` -/

/-- The new load average stays under the same multiple of the unit as the old. -/
theorem load_bounds (h₁ : 0 ≤ load) (h₂ : load ≤ N * 16384) (hr₁ : 0 ≤ ready) (hr₂ : ready ≤ N) :
    0 ≤ (load * 59).tdiv 60 + 273 * ready ∧ (load * 59).tdiv 60 + 273 * ready ≤ N * 16384 := by
  rw [Int.tdiv_eq_ediv_of_nonneg (by omega)]
  omega

theorem readyThreads_nonneg {k : Kernel} : 0 ≤ readyThreads k := by
  unfold readyThreads
  split <;> omega

/-- The new load average, without overflow. -/
theorem loadAvg_updateLoadAvg (hN : N ≤ 1310) (h₁ : 0 ≤ s.loadAvg) (h₂ : s.loadAvg ≤ N * 16384)
    (hr : readyThreads s.kern ≤ N) :
    (Threads.updateLoadAvg s).loadAvg = (s.loadAvg * 59).tdiv 60 + 273 * readyThreads s.kern := by
  have hr₁ : 0 ≤ readyThreads s.kern := readyThreads_nonneg
  have hb := load_bounds h₁ h₂ hr₁ hr
  have hload : (Threads.updateLoadAvg s).loadAvg =
      wrap ((wrap (s.loadAvg * 59)).tdiv 60 + wrap (273 * readyThreads s.kern)) := rfl
  rw [hload, wrap_of (x := s.loadAvg * 59) (by omega) (by omega),
    wrap_of (x := 273 * readyThreads s.kern) (by omega) (by omega), wrap_of (by omega) (by omega)]

theorem updateLoadAvg_of (hN : N ≤ 1310) (h₁ : 0 ≤ s.loadAvg) (h₂ : s.loadAvg ≤ N * 16384)
    (hr : readyThreads s.kern ≤ N) : updateLoadAvg s = some (Threads.updateLoadAvg s) := by
  have hr₁ : 0 ≤ readyThreads s.kern := readyThreads_nonneg
  have hb := load_bounds h₁ h₂ hr₁ hr
  have hterm : 0 ≤ (s.loadAvg * 59).tdiv 60 := Int.tdiv_nonneg (by omega) (by decide)
  have hone : intToFp 1 = some 16384 := rfl
  have hsix : divFpInt 16384 60 = some 273 := rfl
  have hexact : Threads.updateLoadAvg s =
      { s with loadAvg := (s.loadAvg * 59).tdiv 60 + 273 * readyThreads s.kern } :=
    congrArg (fun load => { s with loadAvg := load }) (loadAvg_updateLoadAvg hN h₁ h₂ hr)
  rw [hexact]
  simp only [updateLoadAvg, mulFpInt, addFp, hone, hsix, Option.bind_eq_bind, Option.bind_some]
  rw [int32_of (by omega) (by omega), Option.bind_some, int32_of (by omega) (by omega), Option.bind_some]
  simp only [divFpInt, quot_of (by decide : (60 : Int) ≠ 0), Option.bind_eq_bind, Option.bind_some]
  rw [int32_of (by omega) (by omega), Option.bind_some, int32_of (by omega) (by omega), Option.bind_some,
    int32_of (by omega) (by omega), Option.bind_some]

theorem threadGetLoadAvg_of (h₁ : 0 ≤ s.loadAvg) (h₂ : s.loadAvg ≤ 1310 * 16384) : (threadGetLoadAvg s).isSome := by
  simp only [threadGetLoadAvg, Option.bind_eq_bind]
  rw [int32_of (by omega) (by omega), Option.bind_some, fpToIntRound_of (by omega) (by omega)]
  rfl

theorem threadGetRecentCpu_iff : (threadGetRecentCpu s).isSome ↔
    -21474754 ≤ s.recentCpu s.kern.cur ∧ s.recentCpu s.kern.cur ≤ 21474754 := by
  simp only [threadGetRecentCpu, Option.bind_eq_bind]
  generalize s.recentCpu s.kern.cur = r
  by_cases h : -21474754 ≤ r ∧ r ≤ 21474754
  · rw [int32_of (by omega) (by omega), Option.bind_some, fpToIntRound_of (by omega) (by omega)]
    exact iff_of_true rfl h
  · refine iff_of_false (fun hs => ?_) h
    by_cases hm : -2147483648 ≤ r * 100 ∧ r * 100 < 2147483648
    · rw [int32_of hm.1 hm.2, Option.bind_some, fpToIntRound_none (by omega)] at hs
      cases hs
    · rw [int32_none (by omega)] at hs
      cases hs

/-! ## `update_recent_cpu_all` -/

/-- The new `recent_cpu`, without overflow. -/
def decay (load r n : Int) : Int :=
  Threads.addFp (Threads.mulFp (Threads.divFp (Threads.mulFpInt load 2) (Threads.addFpInt (Threads.mulFpInt load 2) 1)) r)
    (Threads.intToFp n)

/-- The coefficient is at most 120/121: the load average is at most 60. -/
theorem coeff_bounds (h₁ : 0 ≤ load) (h₂ : load ≤ 983040) :
    0 ≤ (load * 2 * 16384).tdiv (load * 2 + 16384) ∧ (load * 2 * 16384).tdiv (load * 2 + 16384) ≤ 16248 := by
  have hpos : 0 < load * 2 + 16384 := by omega
  refine ⟨Int.tdiv_nonneg (by omega) hpos.le, ?_⟩
  rw [Int.tdiv_eq_ediv_of_nonneg (by omega), Int.ediv_le_iff_le_mul hpos]
  omega

theorem product_bounds {c : Int} (hc₁ : 0 ≤ c) (hc₂ : c ≤ 16248) (hr₁ : -39649280 ≤ r) (hr₂ : r ≤ 237895680) :
    16248 * -39649280 ≤ c * r ∧ c * r ≤ 16248 * 237895680 := by
  rcases le_total 0 r with h | h
  · exact ⟨le_trans (by decide) (Int.mul_nonneg hc₁ h), Int.mul_le_mul hc₂ hr₂ h (by decide)⟩
  · exact ⟨le_trans (Int.mul_le_mul_of_nonneg_left hr₁ (by decide)) (Int.mul_le_mul_of_nonpos_right hc₂ h),
      le_trans (Int.mul_nonpos_of_nonneg_of_nonpos hc₁ h) (by decide)⟩

/-- Decay takes a value between these bounds, with the ticks of a second on
top, back between the bounds. -/
theorem decayed_of (h₁ : 0 ≤ load) (h₂ : load ≤ 983040) (hr₁ : -39649280 ≤ r) (hr₂ : r ≤ 237895680)
    (hn₁ : -20 ≤ n) (hn₂ : n ≤ 20) : decayed load r n = some (decay load r n) ∧ -39649280 ≤ decay load r n ∧
      decay load r n ≤ 236257280 := by
  obtain ⟨hc₁, hc₂⟩ := coeff_bounds h₁ h₂
  obtain ⟨hp₁, hp₂⟩ := product_bounds hc₁ hc₂ hr₁ hr₂
  have hm₁ : -39321600 ≤ ((load * 2 * 16384).tdiv (load * 2 + 16384) * r).tdiv 16384 := le_tdiv (by decide) (by omega)
  have hm₂ : ((load * 2 * 16384).tdiv (load * 2 + 16384) * r).tdiv 16384 ≤ 235929600 := tdiv_le (by decide) (by omega)
  have hone : fpOne = 16384 := rfl
  have hdecay : decay load r n = ((load * 2 * 16384).tdiv (load * 2 + 16384) * r).tdiv 16384 + n * 16384 := by
    simp only [decay, Threads.addFp, Threads.mulFp, Threads.divFp, Threads.mulFpInt, Threads.addFpInt, Threads.intToFp,
      hone, one_mul]
    rw [wrap_of (x := load * 2) (by omega) (by omega), wrap_of (x := 16384) (by decide) (by decide),
      wrap_of (x := load * 2 + 16384) (by omega) (by omega),
      wrap_of (x := (load * 2 * 16384).tdiv (load * 2 + 16384)) (by omega) (by omega),
      wrap_of (x := Int.tdiv _ 16384) (by omega) (by omega), wrap_of (x := n * 16384) (by omega) (by omega),
      wrap_of (by omega) (by omega)]
  rw [hdecay]
  refine ⟨?_, by omega, by omega⟩
  simp only [decayed, mulFpInt, addFpInt, divFp, mulFp, intToFp, addFp, hone, Option.bind_eq_bind, one_mul]
  rw [int32_of (by omega) (by omega), Option.bind_some, Option.bind_some, int32_of (by decide) (by decide),
    Option.bind_some, int32_of (by omega) (by omega), Option.bind_some, int64_of (by omega) (by omega),
    Option.bind_some, quot_of (by omega), Option.bind_some, int32_of (by omega) (by omega), Option.bind_some,
    int64_of (by omega) (by omega), Option.bind_some, quot_of (by decide), Option.bind_some,
    int32_of (by omega) (by omega), Option.bind_some, int32_of (by omega) (by omega), Option.bind_some,
    int32_of (by omega) (by omega)]

end Checked
end PintosKaist.Threads
