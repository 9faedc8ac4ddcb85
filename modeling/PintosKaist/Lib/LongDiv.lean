/-
Long division, on numbers.

A two-digit dividend is divided digit by digit (`two_digit`), and the lower
digit of the quotient is a digit. A quotient by a divisor with its low bits cut
off is the quotient by the whole divisor or one more, when the divisor is large
enough for what has been cut off (`estimate`); and one comparison says which
(`correct`).
-/
import Mathlib.Algebra.Order.Ring.Nat
import Mathlib.Tactic.Ring

namespace PintosKaist.LongDiv

variable {n d b n₁ n₀ a e q w s : Nat}

theorem two_digit (hd : 0 < d) : (b * (n₁ % d) + n₀) / d + b * (n₁ / d) = (b * n₁ + n₀) / d := by
  have hsplit : b * n₁ + n₀ = b * (n₁ % d) + n₀ + d * (b * (n₁ / d)) := by
    have hn₁ : b * n₁ = b * (n₁ % d + d * (n₁ / d)) := by rw [Nat.mod_add_div]
    rw [hn₁]
    ring
  rw [hsplit, Nat.add_mul_div_left _ _ hd]

/-- The lower digit of the quotient is less than the base. -/
theorem two_digit_lt (hd : 0 < d) (h₀ : n₀ < b) : (b * (n₁ % d) + n₀) / d < b := by
  rw [Nat.div_lt_iff_lt_mul hd]
  have hr : n₁ % d + 1 ≤ d := Nat.mod_lt n₁ hd
  calc b * (n₁ % d) + n₀ < b * (n₁ % d) + b := Nat.add_lt_add_left h₀ _
    _ = b * (n₁ % d + 1) := by ring
    _ ≤ b * d := Nat.mul_le_mul_left b hr

/-- **Cutting `e` off the divisor** makes the quotient larger by one at most,
when there is enough left. -/
theorem estimate (ha : 0 < a) (h : (n / (a + e) + 1) * e ≤ a) :
    n / a = n / (a + e) ∨ n / a = n / (a + e) + 1 := by
  have hle : n / (a + e) ≤ n / a := Nat.div_le_div_left (Nat.le_add_right a e) ha
  have hlt : n / a < n / (a + e) + 2 := by
    rw [Nat.div_lt_iff_lt_mul ha]
    have hn : n < (a + e) * (n / (a + e) + 1) := Nat.lt_mul_div_succ n (Nat.add_pos_left ha e)
    calc n < (a + e) * (n / (a + e) + 1) := hn
      _ = (n / (a + e) + 1) * a + (n / (a + e) + 1) * e := by ring
      _ ≤ (n / (a + e) + 1) * a + a := Nat.add_le_add_left h _
      _ = (n / (a + e) + 2) * a := by ring
  omega

/-- A divisor of `2 * w - s` bits has `w` bits left when its low `w - s` bits
are cut off: enough for a dividend of `2 * w` bits. -/
theorem estimate_normalised (hs : s < w) (hn : n < 2 ^ (2 * w)) (hd : 2 ^ (2 * w - 1 - s) ≤ d) :
    n / (d / 2 ^ (w - s) * 2 ^ (w - s)) = n / d ∨ n / (d / 2 ^ (w - s) * 2 ^ (w - s)) = n / d + 1 := by
  have hsum : d / 2 ^ (w - s) * 2 ^ (w - s) + d % 2 ^ (w - s) = d := Nat.div_add_mod' d _
  have hpow : 2 ^ (2 * w - 1 - s) = 2 ^ (w - 1) * 2 ^ (w - s) := by rw [← Nat.pow_add]; congr 1; omega
  have hleft : 2 ^ (2 * w - 1 - s) ≤ d / 2 ^ (w - s) * 2 ^ (w - s) := by
    rw [hpow] at hd ⊢
    exact Nat.mul_le_mul_right _ ((Nat.le_div_iff_mul_le (Nat.two_pow_pos _)).mpr hd)
  have hpos : 0 < d / 2 ^ (w - s) * 2 ^ (w - s) := Nat.lt_of_lt_of_le (Nat.two_pow_pos _) hleft
  have hbound : (n / d + 1) * (d % 2 ^ (w - s)) ≤ d / 2 ^ (w - s) * 2 ^ (w - s) := by
    have hq : n / d + 1 ≤ 2 ^ (s + 1) := by
      refine (Nat.div_lt_iff_lt_mul (Nat.lt_of_lt_of_le (Nat.two_pow_pos _) hd)).mpr (Nat.lt_of_lt_of_le hn ?_)
      have hsplit : 2 ^ (2 * w) = 2 ^ (s + 1) * 2 ^ (2 * w - 1 - s) := by rw [← Nat.pow_add]; congr 1; omega
      rw [hsplit]
      exact Nat.mul_le_mul_left _ hd
    have he : d % 2 ^ (w - s) ≤ 2 ^ (w - s) - 1 := Nat.le_sub_one_of_lt (Nat.mod_lt d (Nat.two_pow_pos _))
    refine Nat.le_trans (Nat.mul_le_mul hq he) (Nat.le_trans ?_ hleft)
    by_cases hlast : s + 1 = w
    · -- one bit is cut off
      have hone : w - s = 1 := by omega
      rw [hone, Nat.pow_one, Nat.mul_one]
      exact Nat.pow_le_pow_right (by decide) (by omega)
    · calc 2 ^ (s + 1) * (2 ^ (w - s) - 1) ≤ 2 ^ (s + 1) * 2 ^ (w - s) := Nat.mul_le_mul_left _ (Nat.sub_le _ _)
        _ = 2 ^ (w + 1) := by rw [← Nat.pow_add]; congr 1; omega
        _ ≤ 2 ^ (2 * w - 1 - s) := Nat.pow_le_pow_right (by decide) (by omega)
  have hest := estimate hpos (by rwa [hsum])
  rwa [hsum] at hest

/-- One comparison tells the quotient from one more. -/
theorem correct (hd : 0 < d) (hle : d ≤ n) (hq : q = n / d ∨ q = n / d + 1) :
    (if n - (q - 1) * d < d then q - 1 else q) = n / d := by
  have hpos : 1 ≤ n / d := (Nat.one_le_div_iff hd).mpr hle
  have hmod := Nat.div_add_mod' n d
  have hlt := Nat.mod_lt n hd
  rcases hq with rfl | rfl
  · have hprev : (n / d - 1) * d + d = n / d * d := by rw [← Nat.succ_mul]; congr 1; omega
    rw [if_neg (by omega)]
  · rw [Nat.add_sub_cancel, if_pos (by omega)]

end PintosKaist.LongDiv
