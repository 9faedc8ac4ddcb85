/-
64-bit division and remainder (`lib/arithmetic.c`) out of the `divl`
instruction, which divides 64 bits by 32.

A function has no result where a `divl` traps or a division has the divisor 0.
Signed operations wrap around.
-/
import Mathlib.Data.BitVec
import PintosKaist.Lib.LongDiv

namespace PintosKaist.Arithmetic

open LongDiv

abbrev U32 := BitVec 32
abbrev U64 := BitVec 64

variable {n d : U64} {x : U32}

/-! ## Functions -/

/-- The instruction `divl`: the quotient and the remainder of EDX:EAX. It traps
where the quotient does not fit in 32 bits. -/
def divlInstr (edx eax d : U32) : Option (U32 × U32) :=
  let n := (edx ++ eax).toNat
  if d = 0 ∨ 2 ^ 32 ≤ n / d.toNat then none else some (.ofNat 32 (n / d.toNat), .ofNat 32 (n % d.toNat))

/-- `divl`. -/
def divl (n : U64) (d : U32) : Option U32 :=
  let n1 : U32 := (n >>> 32).setWidth 32
  let n0 : U32 := n.setWidth 32
  (divlInstr n1 n0 d).map fun (q, _) => q

/-- One `if` of `nlz`. -/
def nlzStep (k : Nat) (bound : U32) : Nat × U32 → Nat × U32
  | (n, x) => if x ≤ bound then (n + k, x <<< k) else (n, x)

/-- `nlz`. -/
def nlz (x : U32) : Nat :=
  let (n, x) := nlzStep 16 0x0000FFFF (0, x)
  let (n, x) := nlzStep 8 0x00FFFFFF (n, x)
  let (n, x) := nlzStep 4 0x0FFFFFFF (n, x)
  let (n, x) := nlzStep 2 0x3FFFFFFF (n, x)
  if x ≤ 0x7FFFFFFF then n + 1 else n

/-- `udiv64`. -/
def udiv64 (n d : U64) : Option U64 :=
  if d >>> 32 = 0 then
    let b : U64 := 1 <<< 32
    let n1 : U32 := (n >>> 32).setWidth 32
    let n0 : U32 := n.setWidth 32
    let d0 : U32 := d.setWidth 32
    if d0 = 0 then none
    else
      (divl (b * (n1 % d0).setWidth 64 + n0.setWidth 64) d0).map fun q => q.setWidth 64 + b * (n1 / d0).setWidth 64
  else if n < d then some 0
  else
    let d1 : U32 := (d >>> 32).setWidth 32
    let s := nlz d1
    (divl (n >>> 1) (((d <<< s) >>> 32).setWidth 32)).map fun (q : U32) =>
      let q : U64 := (q >>> (31 - s)).setWidth 64
      if n - (q - 1) * d < d then q - 1 else q

/-- `umod64`, which returns a `uint32_t`. -/
def umod64 (n d : U64) : Option U32 := (udiv64 n d).map fun q => (n - d * q).setWidth 32

/-- `n >= 0 ? (uint64_t) n : -(uint64_t) n`. -/
def magnitude (n : U64) : U64 := if 0 ≤ n.toInt then n else -n

/-- `sdiv64`. -/
def sdiv64 (n d : U64) : Option U64 :=
  (udiv64 (magnitude n) (magnitude d)).map fun q => if (n.toInt < 0 ↔ d.toInt < 0) then q else -q

/-- `smod64`, which returns an `int32_t`. -/
def smod64 (n d : U64) : Option U32 := (sdiv64 n d).map fun q => (n - d * q).setWidth 32

/-- `__divdi3`. -/
def divdi3 (n d : U64) : Option U64 := sdiv64 n d

/-- `__moddi3`. -/
def moddi3 (n d : U64) : Option U64 := (smod64 n d).map (·.signExtend 64)

/-- `__udivdi3`. -/
def udivdi3 (n d : U64) : Option U64 := udiv64 n d

/-- `__umoddi3`. -/
def umoddi3 (n d : U64) : Option U64 := (umod64 n d).map (·.setWidth 64)

/-! ## The instruction -/

/-- EDX:EAX is the dividend. -/
theorem halves_append (n : U64) : (n >>> 32).setWidth 32 ++ n.setWidth 32 = n := by
  apply BitVec.eq_of_getLsbD_eq
  intro i hi
  rw [BitVec.getLsbD_append, BitVec.getLsbD_setWidth, BitVec.getLsbD_setWidth, BitVec.getLsbD_ushiftRight]
  by_cases hlow : i < 32
  · simp [hlow]
  · have hback : 32 + (i - 32) = i := by omega
    have hhigh : i - 32 < 32 := by omega
    simp [hlow, hback, hhigh]

/-- A `divl` has a result when its quotient fits, and it is the quotient. -/
theorem divl_eq_some {q : U32} : divl n x = some q ↔ x ≠ 0 ∧ q.toNat = n.toNat / x.toNat := by
  have hcat : divl n x = if x = 0 ∨ 2 ^ 32 ≤ n.toNat / x.toNat then none else some (.ofNat 32 (n.toNat / x.toNat)) := by
    simp only [divl, divlInstr, halves_append]
    split
    · rfl
    · rfl
  rw [hcat]
  constructor
  · intro h
    split_ifs at h with hfit
    obtain ⟨hx, hlt⟩ := not_or.mp hfit
    refine ⟨hx, ?_⟩
    rw [← Option.some.inj h, BitVec.toNat_ofNat, Nat.mod_eq_of_lt (Nat.not_le.mp hlt)]
  · rintro ⟨hx, hq⟩
    have hfit : ¬ (x = 0 ∨ 2 ^ 32 ≤ n.toNat / x.toNat) := fun h => h.elim hx fun hle => Nat.not_lt.mpr (hq ▸ hle) q.isLt
    rw [if_neg hfit, ← hq, BitVec.ofNat_toNat, BitVec.setWidth_eq]

/-- A quotient that fits. -/
theorem divl_fits (hx : x ≠ 0) (h : n.toNat / x.toNat < 2 ^ 32) :
    ∃ q, divl n x = some q ∧ q.toNat = n.toNat / x.toNat := by
  have hq : (BitVec.ofNat 32 (n.toNat / x.toNat)).toNat = n.toNat / x.toNat := by
    rw [BitVec.toNat_ofNat, Nat.mod_eq_of_lt h]
  exact ⟨_, divl_eq_some.mpr ⟨hx, hq⟩, hq⟩

/-! ## Leading zeros -/

/-- `s` is `x` shifted to the left, without loss, to `2 ^ (32 - k)` at least. -/
structure Scaled (x : U32) (k : Nat) (s : Nat × U32) : Prop where
  le : s.1 ≤ 32 - k
  shifted : s.2.toNat = x.toNat * 2 ^ s.1
  large : 2 ^ (32 - k) ≤ s.2.toNat

theorem Scaled.start (hx : x ≠ 0) : Scaled x 32 (0, x) := by
  refine ⟨Nat.le_refl 0, (Nat.mul_one _).symm, ?_⟩
  exact Nat.pos_of_ne_zero fun h => hx (BitVec.eq_of_toNat_eq h)

/-- Half as far from the top. -/
theorem Scaled.step {s : Nat × U32} (k : Nat) (bound : U32) (h : Scaled x (2 * k) s) (hk : 0 < k ∧ k ≤ 16)
    (hb : bound.toNat + 1 = 2 ^ (32 - k)) : Scaled x k (nlzStep k bound s) := by
  obtain ⟨n, y⟩ := s
  have hle : n ≤ 32 - 2 * k := h.le
  have hsplit : 2 ^ (32 - k) * 2 ^ k = 2 ^ 32 := by rw [← Nat.pow_add]; congr 1; omega
  have hhalf : 2 ^ (32 - k) = 2 ^ (32 - 2 * k) * 2 ^ k := by rw [← Nat.pow_add]; congr 1; omega
  show Scaled x k (if y ≤ bound then (n + k, y <<< k) else (n, y))
  split
  · rename_i hy
    have hy : y.toNat < 2 ^ (32 - k) := by
      rw [← hb]
      exact Nat.lt_succ_of_le hy
    have hfit : y.toNat * 2 ^ k < 2 ^ 32 := by
      rw [← hsplit]
      exact Nat.mul_lt_mul_of_pos_right hy (Nat.two_pow_pos k)
    have hshift : (y <<< k).toNat = y.toNat * 2 ^ k := by
      rw [BitVec.toNat_shiftLeft, Nat.shiftLeft_eq, Nat.mod_eq_of_lt hfit]
    refine ⟨?_, ?_, ?_⟩
    · show n + k ≤ 32 - k
      omega
    · rw [hshift, h.shifted, Nat.mul_assoc, ← Nat.pow_add]
    · rw [hshift, hhalf]
      exact Nat.mul_le_mul_right _ h.large
  · rename_i hy
    refine ⟨?_, h.shifted, ?_⟩
    · show n ≤ 32 - k
      omega
    · rw [← hb]
      exact Nat.lt_of_not_le hy

/-- **The leading zeros**: shifting them out leaves the top bit set. -/
theorem nlz_spec (hx : x ≠ 0) :
    nlz x ≤ 31 ∧ 2 ^ 31 ≤ x.toNat * 2 ^ nlz x ∧ x.toNat * 2 ^ nlz x < 2 ^ 32 := by
  have h16 := Scaled.step 16 0x0000FFFF (.start hx) (by decide) rfl
  have h8 := Scaled.step 8 0x00FFFFFF h16 (by decide) rfl
  have h4 := Scaled.step 4 0x0FFFFFFF h8 (by decide) rfl
  have h2 := Scaled.step 2 0x3FFFFFFF h4 (by decide) rfl
  have h1 := Scaled.step 1 0x7FFFFFFF h2 (by decide) rfl
  have hn : nlz x = (nlzStep 1 0x7FFFFFFF (nlzStep 2 0x3FFFFFFF (nlzStep 4 0x0FFFFFFF (nlzStep 8 0x00FFFFFF
      (nlzStep 16 0x0000FFFF (0, x)))))).1 := by
    show (if _ then _ else _) = (if _ then _ else _ : Nat × U32).1
    split
    · rfl
    · rfl
  rw [hn, ← h1.shifted]
  exact ⟨h1.le, h1.large, BitVec.isLt _⟩

/-! ## Division -/

/-- The upper half of a word. -/
theorem high_toNat (n : U64) : ((n >>> 32).setWidth 32 : U32).toNat = n.toNat / 2 ^ 32 := by
  have hlt := n.isLt
  rw [BitVec.toNat_setWidth, BitVec.toNat_ushiftRight, Nat.shiftRight_eq_div_pow]
  omega

/-- A divisor of 32 bits: two digits in the base 2^32. -/
theorem udiv64_small (hd : d ≠ 0) (hsmall : d.toNat < 2 ^ 32) :
    ∃ q, udiv64 n d = some q ∧ q.toNat = n.toNat / d.toNat := by
  have hpos : 0 < d.toNat := Nat.pos_of_ne_zero fun h => hd (BitVec.eq_of_toNat_eq h)
  have hlt := n.isLt
  have hbranch : d >>> 32 = 0 := by
    apply BitVec.eq_of_toNat_eq
    rw [BitVec.toNat_ushiftRight, Nat.shiftRight_eq_div_pow]
    exact Nat.div_eq_of_lt hsmall
  have hd0 : (d.setWidth 32 : U32).toNat = d.toNat := by rw [BitVec.toNat_setWidth, Nat.mod_eq_of_lt hsmall]
  have hne : (d.setWidth 32 : U32) ≠ 0 := fun h => by
    rw [h] at hd0
    exact Nat.ne_of_gt hpos hd0.symm
  have hn0 : (n.setWidth 32 : U32).toNat = n.toNat % 2 ^ 32 := BitVec.toNat_setWidth ..
  have hn1 := high_toNat n
  generalize hd0w : (d.setWidth 32 : U32) = d0 at hd0 hne
  generalize hn0w : (n.setWidth 32 : U32) = n0 at hn0
  generalize hn1w : ((n >>> 32).setWidth 32 : U32) = n1 at hn1
  have hb : (1 <<< 32 : U64).toNat = 2 ^ 32 := rfl
  have hmod : n1.toNat % d.toNat ≤ n1.toNat := Nat.mod_le _ _
  -- the dividend of the lower digit
  have hdividend : ((1 <<< 32 : U64) * (n1 % d0).setWidth 64 + n0.setWidth 64).toNat =
      2 ^ 32 * (n1.toNat % d.toNat) + n0.toNat := by
    rw [BitVec.toNat_add, BitVec.toNat_mul, BitVec.toNat_setWidth, BitVec.toNat_setWidth, BitVec.toNat_umod, hd0, hb]
    omega
  have hfit : (2 ^ 32 * (n1.toNat % d.toNat) + n0.toNat) / d.toNat < 2 ^ 32 := two_digit_lt hpos (by omega)
  obtain ⟨q, hq, hqv⟩ := divl_fits hne (n := (1 <<< 32 : U64) * (n1 % d0).setWidth 64 + n0.setWidth 64) (by
    rw [hdividend, hd0]
    exact hfit)
  refine ⟨q.setWidth 64 + (1 <<< 32 : U64) * (n1 / d0).setWidth 64, ?_, ?_⟩
  · simp only [udiv64, if_pos hbranch, hd0w, hn0w, hn1w, if_neg hne, hq, Option.map_some]
  · have htwo : (2 ^ 32 * (n1.toNat % d.toNat) + n0.toNat) / d.toNat + 2 ^ 32 * (n1.toNat / d.toNat) =
        n.toNat / d.toNat := by
      rw [two_digit hpos, hn1, hn0, Nat.div_add_mod]
    have hdiv : n1.toNat / d.toNat ≤ n1.toNat := Nat.div_le_self _ _
    have hle : n.toNat / d.toNat ≤ n.toNat := Nat.div_le_self _ _
    rw [hdividend, hd0] at hqv
    rw [BitVec.toNat_add, BitVec.toNat_mul, BitVec.toNat_setWidth, BitVec.toNat_setWidth, BitVec.toNat_udiv, hd0, hb,
      hqv]
    omega

/-- The top 32 bits of a divisor whose upper half has `s` leading zeros. -/
theorem top_toNat {s : Nat} (hs : s ≤ 31) (htop : 2 ^ 31 ≤ d.toNat / 2 ^ 32 * 2 ^ s)
    (hfits : d.toNat / 2 ^ 32 * 2 ^ s < 2 ^ 32) :
    (((d <<< s) >>> 32).setWidth 32 : U32).toNat = d.toNat / 2 ^ (32 - s) ∧ 2 ^ (63 - s) ≤ d.toNat := by
  have hcut : 2 ^ 32 = 2 ^ (32 - s) * 2 ^ s := by rw [← Nat.pow_add]; congr 1; omega
  have hhigh : d.toNat / 2 ^ 32 < 2 ^ (32 - s) := Nat.lt_of_mul_lt_mul_right (Nat.lt_of_lt_of_eq hfits hcut)
  have hlt : d.toNat < 2 ^ (32 - s) * 2 ^ 32 := (Nat.div_lt_iff_lt_mul (by decide)).mp hhigh
  have hshift : d.toNat * 2 ^ s < 2 ^ 64 := by
    calc d.toNat * 2 ^ s < 2 ^ (32 - s) * 2 ^ 32 * 2 ^ s := Nat.mul_lt_mul_of_pos_right hlt (Nat.two_pow_pos s)
      _ = 2 ^ (32 - s) * 2 ^ s * 2 ^ 32 := Nat.mul_right_comm ..
      _ = 2 ^ 32 * 2 ^ 32 := by rw [← hcut]
  constructor
  · calc (((d <<< s) >>> 32).setWidth 32 : U32).toNat = d.toNat * 2 ^ s / 2 ^ 32 := by
          rw [high_toNat, BitVec.toNat_shiftLeft, Nat.shiftLeft_eq, Nat.mod_eq_of_lt hshift]
      _ = d.toNat * 2 ^ s / (2 ^ (32 - s) * 2 ^ s) := by rw [← hcut]
      _ = d.toNat / 2 ^ (32 - s) := Nat.mul_div_mul_right _ _ (Nat.two_pow_pos s)
  · refine Nat.le_of_mul_le_mul_right ?_ (Nat.two_pow_pos s)
    have hnorm : 2 ^ (63 - s) * 2 ^ s = 2 ^ 63 := by rw [← Nat.pow_add]; congr 1; omega
    calc 2 ^ (63 - s) * 2 ^ s = 2 ^ 31 * 2 ^ 32 := hnorm
      _ ≤ d.toNat / 2 ^ 32 * 2 ^ s * 2 ^ 32 := Nat.mul_le_mul_right _ htop
      _ = d.toNat / 2 ^ 32 * 2 ^ 32 * 2 ^ s := Nat.mul_right_comm ..
      _ ≤ d.toNat * 2 ^ s := Nat.mul_le_mul_right _ (Nat.div_mul_le_self _ _)

/-- The correction, in words. -/
theorem correct_toNat {q : U64} (hpos : 0 < d.toNat) (hle : d.toNat ≤ n.toNat)
    (hq : q.toNat = n.toNat / d.toNat ∨ q.toNat = n.toNat / d.toNat + 1) :
    (if n - (q - 1) * d < d then q - 1 else q).toNat = n.toNat / d.toNat := by
  have hn := n.isLt
  have hone : 1 ≤ n.toNat / d.toNat := (Nat.one_le_div_iff hpos).mpr hle
  have hprev : (q - 1).toNat = q.toNat - 1 := BitVec.toNat_sub_of_le (by
    rw [BitVec.le_def]
    show 1 ≤ q.toNat
    omega)
  have hmul : (q.toNat - 1) * d.toNat ≤ n.toNat := by
    refine Nat.le_trans (Nat.mul_le_mul_right _ ?_) (Nat.div_mul_le_self n.toNat d.toNat)
    omega
  have hprod : ((q - 1) * d).toNat = (q.toNat - 1) * d.toNat := by
    rw [BitVec.toNat_mul, hprev, Nat.mod_eq_of_lt (by omega)]
  have hdiff : (n - (q - 1) * d).toNat = n.toNat - (q.toNat - 1) * d.toNat := by
    rw [BitVec.toNat_sub_of_le (by rw [BitVec.le_def, hprod]; exact hmul), hprod]
  have hlt : n - (q - 1) * d < d ↔ n.toNat - (q.toNat - 1) * d.toNat < d.toNat := by rw [BitVec.lt_def, hdiff]
  rw [← correct hpos hle hq]
  by_cases h : n - (q - 1) * d < d
  · rw [if_pos h, if_pos (hlt.mp h), hprev]
  · rw [if_neg h, if_neg (mt hlt.mpr h)]

/-- A larger divisor: the quotient by its top 32 bits, corrected. -/
theorem udiv64_large (hlarge : 2 ^ 32 ≤ d.toNat) : ∃ q, udiv64 n d = some q ∧ q.toNat = n.toNat / d.toNat := by
  have hn := n.isLt
  have hd := d.isLt
  have hpos : 0 < d.toNat := by omega
  have hbranch : d >>> 32 ≠ 0 := fun h => by
    have hz := congrArg BitVec.toNat h
    rw [BitVec.toNat_ushiftRight, Nat.shiftRight_eq_div_pow] at hz
    have hz : d.toNat / 2 ^ 32 = 0 := hz
    omega
  by_cases hle : n < d
  · refine ⟨0, ?_, (Nat.div_eq_of_lt hle).symm⟩
    simp only [udiv64, if_neg hbranch, if_pos hle]
  have hd1 := high_toNat d
  generalize hd1w : ((d >>> 32).setWidth 32 : U32) = d1 at hd1
  have hne : d1 ≠ 0 := fun h => by
    rw [h] at hd1
    have hd1 : 0 = d.toNat / 2 ^ 32 := hd1
    omega
  obtain ⟨hs, htop, hfits⟩ := nlz_spec hne
  generalize hsw : nlz d1 = s at hs htop hfits
  rw [hd1] at htop hfits
  obtain ⟨hv, hnorm⟩ := top_toNat hs htop hfits
  generalize hvw : (((d <<< s) >>> 32).setWidth 32 : U32) = v at hv
  have hvle : 2 ^ 31 ≤ v.toNat := by
    rw [hv, Nat.le_div_iff_mul_le (Nat.two_pow_pos _), ← Nat.pow_add]
    rwa [show 31 + (32 - s) = 63 - s by omega]
  have hhalf : (n >>> 1).toNat = n.toNat / 2 := by rw [BitVec.toNat_ushiftRight, Nat.shiftRight_eq_div_pow]
  have hfit : (n >>> 1).toNat / v.toNat < 2 ^ 32 := by
    rw [hhalf, Nat.div_lt_iff_lt_mul (by omega)]
    omega
  have hvne : v ≠ 0 := fun h => by
    rw [h] at hvle
    exact absurd hvle (by decide)
  obtain ⟨q, hq, hqv⟩ := divl_fits hvne hfit
  -- the quotient of the halved dividend, shifted, is that by the divisor without its low bits
  have hest : ((q >>> (31 - s)).setWidth 64 : U64).toNat = n.toNat / (d.toNat / 2 ^ (32 - s) * 2 ^ (32 - s)) := by
    have hpow : 2 * (v.toNat * 2 ^ (31 - s)) = v.toNat * 2 ^ (32 - s) := by
      rw [show 32 - s = 31 - s + 1 by omega, Nat.pow_succ]
      ring
    have hlt := (q >>> (31 - s)).isLt
    rw [BitVec.toNat_setWidth, Nat.mod_eq_of_lt (by omega), BitVec.toNat_ushiftRight, Nat.shiftRight_eq_div_pow, hqv,
      hhalf, Nat.div_div_eq_div_mul, Nat.div_div_eq_div_mul, hpow, hv]
  refine ⟨_, ?_, correct_toNat hpos (Nat.le_of_not_lt hle) (hest ▸ estimate_normalised (w := 32) (by omega) hn hnorm)⟩
  simp only [udiv64, if_neg hbranch, if_neg hle, hd1w, hsw, hvw, hq, Option.map_some]

/-- `udiv64` divides. -/
theorem udiv64_eq (n : U64) (hd : d ≠ 0) : ∃ q, udiv64 n d = some q ∧ q.toNat = n.toNat / d.toNat := by
  by_cases hsmall : d.toNat < 2 ^ 32
  · exact udiv64_small hd hsmall
  · exact udiv64_large (Nat.not_lt.mp hsmall)

/-! ## Signed division -/

theorem magnitude_toNat (n : U64) : (magnitude n).toNat = n.toInt.natAbs := by
  have hlt := n.isLt
  unfold magnitude
  by_cases hpos : 2 * n.toNat < 2 ^ 64
  · have hint : n.toInt = n.toNat := by rw [BitVec.toInt_eq_toNat_cond, if_pos hpos]
    rw [if_pos (by omega), hint]
    rfl
  · have hint : n.toInt = n.toNat - 2 ^ 64 := by rw [BitVec.toInt_eq_toNat_cond, if_neg hpos]; rfl
    rw [if_neg (by omega), BitVec.toNat_neg, hint]
    omega

/-- Truncated division: the magnitudes are divided, and the signs make the sign. -/
theorem tdiv_eq_signs (x y : Int) :
    x.tdiv y =
      if (x < 0 ↔ y < 0) then ((x.natAbs / y.natAbs : Nat) : Int) else -((x.natAbs / y.natAbs : Nat) : Int) := by
  have hnot (k : Nat) : ¬ Int.ofNat k < 0 := Int.not_lt.mpr (Int.natCast_nonneg k)
  cases x with
  | ofNat a =>
    cases y with
    | ofNat b => exact (if_pos (iff_of_false (hnot a) (hnot b))).symm
    | negSucc b => exact (if_neg fun h => hnot a (h.mpr (Int.negSucc_lt_zero b))).symm
  | negSucc a =>
    cases y with
    | ofNat b => exact (if_neg fun h => hnot b (h.mp (Int.negSucc_lt_zero a))).symm
    | negSucc b => exact (if_pos (iff_of_true (Int.negSucc_lt_zero a) (Int.negSucc_lt_zero b))).symm

theorem toInt_of_lt {q : U64} (h : q.toNat < 2 ^ 63) : q.toInt = q.toNat := by
  rw [BitVec.toInt_eq_toNat_cond, if_pos (by omega)]

/-- The negation of a number up to 2^63, also of 2^63 itself. -/
theorem toInt_neg_of_le {q : U64} (h : q.toNat ≤ 2 ^ 63) : (-q).toInt = -(q.toNat : Int) := by
  rw [BitVec.toInt_eq_toNat_cond, BitVec.toNat_neg]
  split_ifs
  · omega
  · omega

/-- The quotient of the magnitudes is below 2^63, but for that of -2^63 by 1
and by -1. -/
theorem natAbs_div_le (n : U64) {d : U64} (hd : d ≠ 0) :
    n.toInt.natAbs / d.toInt.natAbs ≤ 2 ^ 63 ∧
      (n.toInt.natAbs / d.toInt.natAbs = 2 ^ 63 → n.toInt = -2 ^ 63 ∧ (d.toInt = 1 ∨ d.toInt = -1)) := by
  have hlo := BitVec.le_toInt n
  have hhi := BitVec.toInt_lt (x := n)
  have hne : d.toInt ≠ 0 := fun h => hd (BitVec.eq_of_toInt_eq (h.trans (BitVec.toInt_zero).symm))
  by_cases hone : d.toInt.natAbs = 1
  · rw [hone, Nat.div_one]
    omega
  · have hhalf : n.toInt.natAbs / d.toInt.natAbs ≤ n.toInt.natAbs / 2 := Nat.div_le_div_left (by omega) (by decide)
    omega

theorem magnitude_ne_zero (hd : d ≠ 0) : magnitude d ≠ 0 := by
  intro h
  have hz := magnitude_toNat d
  rw [h] at hz
  exact hd (BitVec.eq_of_toInt_eq ((Int.natAbs_eq_zero.mp hz.symm).trans (BitVec.toInt_zero).symm))

/-- `sdiv64` divides and truncates. -/
theorem sdiv64_eq (hd : d ≠ 0) (hov : ¬ (n.toInt = -2 ^ 63 ∧ d.toInt = -1)) :
    ∃ q, sdiv64 n d = some q ∧ q.toInt = n.toInt.tdiv d.toInt := by
  obtain ⟨q, hq, hqv⟩ := udiv64_eq (magnitude n) (magnitude_ne_zero hd)
  rw [magnitude_toNat, magnitude_toNat] at hqv
  obtain ⟨hle, heq⟩ := natAbs_div_le n hd
  refine ⟨_, by rw [sdiv64, hq, Option.map_some], ?_⟩
  rw [tdiv_eq_signs, ← hqv]
  rw [← hqv] at hle heq
  split_ifs with hsign
  · refine toInt_of_lt (Nat.lt_of_le_of_ne hle fun h => ?_)
    obtain ⟨hn, hd1⟩ := heq h
    rw [hn] at hsign
    exact hov ⟨hn, hd1.resolve_left fun h1 => by rw [h1] at hsign; exact absurd hsign (by decide)⟩
  · exact toInt_neg_of_le hle

/-- **64-bit division is exact**, and no `divl` in it traps: `udiv64` gives the
quotient, and `sdiv64` the truncated one where it fits. -/
theorem division_exact :
    (∀ n d : U64, d ≠ 0 → ∃ q, udiv64 n d = some q ∧ q.toNat = n.toNat / d.toNat) ∧
      ∀ n d : U64, d ≠ 0 → ¬ (n.toInt = -2 ^ 63 ∧ d.toInt = -1) →
        ∃ q, sdiv64 n d = some q ∧ q.toInt = n.toInt.tdiv d.toInt :=
  ⟨fun n _ hd => udiv64_eq n hd, fun _ _ hd hov => sdiv64_eq hd hov⟩

/-- A divisor just above 32 bits, and the one quotient of -2^63 that is as large. -/
theorem division_exact_ends :
    (∃ q, udiv64 0xFFFFFFFFFFFFFFFF 0x1FFFFFFFF = some q ∧ q.toNat = 0xFFFFFFFFFFFFFFFF / 0x1FFFFFFFF) ∧
      ∃ q, sdiv64 0x8000000000000000 1 = some q ∧ q.toInt = (-2 ^ 63 : Int).tdiv 1 :=
  ⟨division_exact.1 _ _ (by decide), division_exact.2 0x8000000000000000 1 (by decide) (by decide)⟩

/-- Only for -2^63 by 1 does `sdiv64` negate the least `int64_t`, which as a
negation without wrapping around would not fit. -/
theorem sdiv64_wraps_iff (hd : d ≠ 0) :
    (∃ q, udiv64 (magnitude n) (magnitude d) = some q ∧ ¬ (n.toInt < 0 ↔ d.toInt < 0) ∧ q.toInt = -2 ^ 63) ↔
      n.toInt = -2 ^ 63 ∧ d.toInt = 1 := by
  obtain ⟨q, hq, hqv⟩ := udiv64_eq (magnitude n) (magnitude_ne_zero hd)
  rw [magnitude_toNat, magnitude_toNat] at hqv
  have hmin : q.toInt = -2 ^ 63 ↔ q.toNat = 2 ^ 63 := by
    have hlt := q.isLt
    rw [BitVec.toInt_eq_toNat_cond]
    split_ifs <;> omega
  constructor
  · rintro ⟨q', hq', hsign, hq63⟩
    obtain rfl := Option.some.inj (hq.symm.trans hq')
    obtain ⟨hn, hd1⟩ := (natAbs_div_le n hd).2 (hqv ▸ hmin.mp hq63)
    rw [hn] at hsign
    exact ⟨hn, hd1.resolve_right fun h1 => hsign (by rw [h1]; decide)⟩
  · rintro ⟨hn, hd1⟩
    rw [hn, hd1] at hqv
    exact ⟨q, hq, by rw [hn, hd1]; decide, hmin.mpr hqv⟩

/-! ## Remainders -/

/-- `__umoddi3` keeps 32 bits of the remainder. -/
theorem umoddi3_eq (n : U64) (hd : d ≠ 0) :
    ∃ r, umoddi3 n d = some r ∧ r.toNat = n.toNat % d.toNat % 2 ^ 32 := by
  obtain ⟨q, hq, hqv⟩ := udiv64_eq n hd
  refine ⟨_, by rw [umoddi3, umod64, hq, Option.map_some, Option.map_some], ?_⟩
  have hmul : (d * q).toNat = d.toNat * (n.toNat / d.toNat) := by
    have hlt := n.isLt
    have hle := Nat.mul_div_le n.toNat d.toNat
    rw [BitVec.toNat_mul, hqv, Nat.mod_eq_of_lt (by omega)]
  have hsub : (n - d * q).toNat = n.toNat % d.toNat := by
    have hmod := Nat.div_add_mod n.toNat d.toNat
    rw [BitVec.toNat_sub_of_le (by rw [BitVec.le_def, hmul]; exact Nat.mul_div_le _ _), hmul]
    omega
  rw [BitVec.toNat_setWidth, BitVec.toNat_setWidth, hsub]
  omega

/-- `__moddi3` keeps 32 bits of the remainder, with the sign they have. -/
theorem moddi3_eq (hd : d ≠ 0) (hov : ¬ (n.toInt = -2 ^ 63 ∧ d.toInt = -1)) :
    ∃ r, moddi3 n d = some r ∧ r.toInt = (n.toInt.tmod d.toInt).bmod (2 ^ 32) := by
  obtain ⟨q, hq, hqv⟩ := sdiv64_eq hd hov
  refine ⟨_, by rw [moddi3, smod64, hq, Option.map_some, Option.map_some], ?_⟩
  have hsub : (n - d * q).toInt = (n.toInt.tmod d.toInt).bmod (2 ^ 64) := by
    rw [BitVec.toInt_sub, BitVec.toInt_mul, hqv, Int.sub_bmod_bmod, Int.tmod_def]
  have hdvd : 2 ^ 32 ∣ 2 ^ 64 := Nat.pow_dvd_pow 2 (by decide)
  have hlow : ((n - d * q).toNat : Int).bmod (2 ^ 32) = (n - d * q).toInt.bmod (2 ^ 32) := by
    rw [BitVec.toInt_eq_toNat_bmod, Int.bmod_bmod_of_dvd hdvd]
  rw [BitVec.toInt_signExtend_of_le (by decide), BitVec.toInt_setWidth, hlow, hsub, Int.bmod_bmod_of_dvd hdvd]

/-- **When a 64-bit remainder is exact**: when it fits in the 32 bits that the
helpers return. -/
theorem remainder_exact_iff (n d : U64) (hd : d ≠ 0) :
    ((∃ r, umoddi3 n d = some r ∧ r.toNat = n.toNat % d.toNat) ↔ n.toNat % d.toNat < 2 ^ 32) ∧
      (¬ (n.toInt = -2 ^ 63 ∧ d.toInt = -1) →
        ((∃ q r, divdi3 n d = some q ∧ moddi3 n d = some r ∧ r.toInt = n.toInt.tmod d.toInt ∧
            d.toInt * q.toInt + r.toInt = n.toInt) ↔
          -2 ^ 31 ≤ n.toInt.tmod d.toInt ∧ n.toInt.tmod d.toInt < 2 ^ 31)) := by
  refine ⟨?_, fun hov => ?_⟩
  · obtain ⟨r, hr, hrv⟩ := umoddi3_eq n hd
    constructor
    · rintro ⟨r', hr', hexact⟩
      obtain rfl := Option.some.inj (hr.symm.trans hr')
      omega
    · intro hfit
      exact ⟨r, hr, by omega⟩
  · obtain ⟨q, hq, hqv⟩ := sdiv64_eq hd hov
    obtain ⟨r, hr, hrv⟩ := moddi3_eq hd hov
    constructor
    · rintro ⟨q', r', -, hr', hexact, -⟩
      obtain rfl := Option.some.inj (hr.symm.trans hr')
      have hlo := Int.le_bmod (x := n.toInt.tmod d.toInt) (m := 2 ^ 32) (by decide)
      have hhi := Int.bmod_lt (x := n.toInt.tmod d.toInt) (m := 2 ^ 32) (by decide)
      omega
    · intro ⟨hlo, hhi⟩
      have hexact : r.toInt = n.toInt.tmod d.toInt := by
        rw [hrv]
        exact Int.bmod_eq_of_le (by omega) (by omega)
      exact ⟨q, r, hq, hr, hexact, by rw [hexact, hqv]; exact Int.mul_tdiv_add_tmod ..⟩

/-- 2^32 modulo 2^32 + 1, and 2^31 modulo 2^32. -/
theorem not_remainder_exact :
    (¬ ∃ r, umoddi3 0x100000000 0x100000001 = some r ∧ r.toNat = 0x100000000 % 0x100000001) ∧
      ¬ ∃ q r, divdi3 0x80000000 0x100000000 = some q ∧ moddi3 0x80000000 0x100000000 = some r ∧
        r.toInt = (0x80000000 : Int).tmod 0x100000000 ∧ 0x100000000 * q.toInt + r.toInt = 0x80000000 := by
  constructor
  · rintro ⟨r, hr, hexact⟩
    have hzero : umoddi3 0x100000000 0x100000001 = some 0 := by decide +kernel
    obtain rfl := Option.some.inj (hzero.symm.trans hr)
    exact absurd hexact (by decide)
  · rintro ⟨q, r, -, hr, hexact, -⟩
    have hmin : moddi3 0x80000000 0x100000000 = some (-0x80000000) := by decide +kernel
    obtain rfl := Option.some.inj (hmin.symm.trans hr)
    exact absurd hexact (by decide)

theorem remainder_exact_seven :
    ((∃ r, umoddi3 7 2 = some r ∧ r.toNat = 7 % 2) ↔ 7 % 2 < 2 ^ 32) ∧
      ((∃ q r, divdi3 (-7) 2 = some q ∧ moddi3 (-7) 2 = some r ∧ r.toInt = (-7 : Int).tmod 2 ∧
          2 * q.toInt + r.toInt = -7) ↔
        -2 ^ 31 ≤ (-7 : Int).tmod 2 ∧ (-7 : Int).tmod 2 < 2 ^ 31) :=
  ⟨(remainder_exact_iff 7 2 (by decide)).1, (remainder_exact_iff (-7) 2 (by decide)).2 (by decide)⟩

end PintosKaist.Arithmetic
