import Mathlib.Tactic.Ring
import PipelineCanvas.Proofs.Numeric.Rounding
/-! # Rounding and the range of doubles

A ratio is read as the double nearest to it, `Double.nearest?`, if there is one. This file says when
there is one, and how far from the ratio it lies. Everything is counted in steps of `2 ^ -1074`, so
that the statements are about natural numbers.

The first question is one of order: a ratio that is not greater than some double has a nearest
double, and that is not greater either (`Double.exists_nearest?_of_le`). Rounding does not cross a
double. The reason is that the scale at which the ratio is rounded, `Double.scaleOf`, is never above
that of the double, so the double is a whole number of the units that are rounded to.

The second one is of error: the nearest double is off by one part in `2 ^ 53` at most, unless the
ratio is too small to have all its bits (`Double.near_of_nearest?`), and the ratio is always less
than the double and one in its last place (`Double.lt_of_nearest?`). These bounds are what the
reading of decimals needs, where several roundings follow one another. -/
namespace PipelineCanvas

/-! ### Rounded quotients -/

theorem roundDiv_le (n d : Nat) : roundDiv n d ≤ n / d + 1 := by
  unfold roundDiv
  split
  · exact Nat.le_succ _
  · exact Nat.le_refl _

theorem le_roundDiv (n d : Nat) : n / d ≤ roundDiv n d := by
  unfold roundDiv
  split
  · exact Nat.le_refl _
  · exact Nat.le_succ _

/-- Rounding does not lead over a whole number. -/
theorem roundDiv_le_of_le {n d q : Nat} (hd : 0 < d) (h : n ≤ q * d) : roundDiv n d ≤ q := by
  have hdiv : n / d ≤ q := Nat.div_le_of_le_mul (Nat.mul_comm q d ▸ h)
  rcases Nat.lt_or_eq_of_le hdiv with hlt | heq
  · exact Nat.le_trans (roundDiv_le n d) hlt
  · have hn : n = q * d := Nat.le_antisymm h (heq ▸ Nat.div_mul_le_self n d)
    rw [hn, roundDiv_exact hd]

/-- A quotient is rounded up by no more than half. -/
theorem two_mul_roundDiv_le (n d : Nat) : 2 * (roundDiv n d * d) ≤ 2 * n + d := by
  have hparts := Nat.div_add_mod' n d
  unfold roundDiv
  split
  · omega
  · rw [Nat.add_mul]
    omega

/-- A quotient is rounded down by no more than half. -/
theorem le_two_mul_roundDiv {n d : Nat} (hd : 0 < d) : 2 * n ≤ 2 * (roundDiv n d * d) + d := by
  have hparts := Nat.div_add_mod' n d
  have hmod := Nat.mod_lt n hd
  unfold roundDiv
  split
  · omega
  · rw [Nat.add_mul]
    omega

namespace Double
variable {negative : Bool} {n d : Nat} {x z : Double}

/-! ### The scale of a ratio -/

/-- The scale at which a ratio is rounded. -/
def scaleOf (n d : Nat) : Nat := (n <<< 1074 / d).log2 + 1 - 53

theorem steps_eq (x : Double) : x.steps = x.significand * 2 ^ x.scale := Nat.shiftLeft_eq _ _

/-- A double has no more than 53 bits above its scale. -/
theorem steps_lt (x : Double) : x.steps < 2 ^ 53 * 2 ^ x.scale := by
  rw [steps_eq]
  exact Nat.mul_lt_mul_of_pos_right x.significand_lt (Nat.two_pow_pos _)

/-- The scale leaves no more than 53 bits before rounding. -/
theorem lt_scaleOf (hd : 0 < d) : n <<< 1074 < 2 ^ 53 * (d * 2 ^ scaleOf n d) := by
  have hlog : n <<< 1074 / d < 2 ^ (53 + scaleOf n d) :=
    Nat.lt_of_lt_of_le Nat.lt_log2_self
      (Nat.pow_le_pow_right (by decide) (by unfold scaleOf; omega))
  rw [Nat.div_lt_iff_lt_mul hd, Nat.pow_add] at hlog
  rwa [Nat.mul_comm d, ← Nat.mul_assoc]

/-- Above the least scale there are as many bits as that. -/
theorem scaleOf_le (hd : 0 < d) :
    scaleOf n d = 0 ∨ 2 ^ 52 * (d * 2 ^ scaleOf n d) ≤ n <<< 1074 := by
  rcases Nat.eq_zero_or_pos (scaleOf n d) with hzero | hpos
  · exact .inl hzero
  · refine .inr ?_
    have hne : n <<< 1074 / d ≠ 0 := by
      intro hdiv
      rw [scaleOf, hdiv, Nat.log2_zero] at hpos
      omega
    have hlog : 2 ^ (52 + scaleOf n d) ≤ n <<< 1074 / d := by
      have hbits : 52 + scaleOf n d = (n <<< 1074 / d).log2 := by
        unfold scaleOf at hpos ⊢
        omega
      rw [hbits]
      exact Nat.log2_self_le hne
    rw [Nat.le_div_iff_mul_le hd, Nat.pow_add] at hlog
    rwa [Nat.mul_comm d, ← Nat.mul_assoc]

/-- A scale that leaves a bit too few to the greatest double is not above its scale. -/
theorem scaleOf_le_scale (hd : 0 < d) (h : n <<< 1074 ≤ z.steps * d) : scaleOf n d ≤ z.scale := by
  rcases scaleOf_le (n := n) hd with hzero | hfull
  · omega
  · have hlt : 2 ^ (52 + scaleOf n d) * d < 2 ^ (53 + z.scale) * d :=
      calc 2 ^ (52 + scaleOf n d) * d = 2 ^ 52 * (d * 2 ^ scaleOf n d) := by ring
        _ ≤ z.steps * d := Nat.le_trans hfull h
        _ < 2 ^ 53 * 2 ^ z.scale * d := Nat.mul_lt_mul_of_pos_right z.steps_lt hd
        _ = 2 ^ (53 + z.scale) * d := by rw [Nat.pow_add]
    have hexp := (Nat.pow_lt_pow_iff_right (by decide)).mp (Nat.lt_of_mul_lt_mul_right hlt)
    omega

/-- The nearest double in terms of the scale of the ratio. A rounded quotient of 54 bits can only be
`2 ^ 53` and moves into the scale. -/
theorem nearest?_eq (negative : Bool) (n d : Nat) : nearest? negative n d =
    if roundDiv (n <<< 1074) (d * 2 ^ scaleOf n d) = 2 ^ 53 then
      ofParts? negative (2 ^ 52) (scaleOf n d + 1)
    else ofParts? negative (roundDiv (n <<< 1074) (d * 2 ^ scaleOf n d)) (scaleOf n d) := by
  rw [← Nat.shiftLeft_eq d]
  rfl

theorem eq_of_ofParts? {significand scale : Nat}
    (h : ofParts? negative significand scale = some x) :
    x.negative = negative ∧ x.significand = significand ∧ x.scale = scale := by
  unfold ofParts? at h
  split at h
  · cases h
    exact ⟨rfl, rfl, rfl⟩
  · cases h

/-- Parts that are within bounds make a double, of as many steps as they say. -/
theorem exists_ofParts? (negative : Bool) {significand scale : Nat} (hlt : significand < 2 ^ 53)
    (hscale : scale ≤ 2045) (hfull : scale = 0 ∨ 2 ^ 52 ≤ significand) :
    ∃ x, ofParts? negative significand scale = some x ∧ x.steps = significand * 2 ^ scale := by
  refine ⟨⟨negative, significand, scale, hlt, hscale, hfull⟩, dif_pos ⟨hlt, hscale, hfull⟩, ?_⟩
  exact steps_eq _

/-- The nearest double has the steps of the rounded quotient, at the scale of the ratio or, where
rounding has reached a 54th bit, at the next one. -/
theorem steps_of_nearest? (h : nearest? negative n d = some x) :
    x.negative = negative ∧
      x.steps = roundDiv (n <<< 1074) (d * 2 ^ scaleOf n d) * 2 ^ scaleOf n d ∧
      scaleOf n d ≤ x.scale := by
  rw [nearest?_eq] at h
  rw [steps_eq]
  split at h
  · next hcarry =>
    obtain ⟨hnegative, hsignificand, hscale⟩ := eq_of_ofParts? h
    rw [hsignificand, hscale, hcarry]
    exact ⟨hnegative, by ring, Nat.le_succ _⟩
  · obtain ⟨hnegative, hsignificand, hscale⟩ := eq_of_ofParts? h
    rw [hsignificand, hscale]
    exact ⟨hnegative, rfl, Nat.le_refl _⟩

/-! ### Range -/

/-- **Rounding does not cross a double.** A ratio that is not greater than a double has a nearest
double, and that is not greater than it. -/
theorem exists_nearest?_of_le (negative : Bool) (hd : 0 < d) (h : n <<< 1074 ≤ z.steps * d) :
    ∃ x, nearest? negative n d = some x ∧ x.steps ≤ z.steps := by
  have hscale := scaleOf_le_scale hd h
  have hfull := scaleOf_le (n := n) hd
  have hlt := lt_scaleOf (n := n) hd
  rw [nearest?_eq]
  generalize scaleOf n d = scale at hscale hfull hlt
  have hunit : 0 < d * 2 ^ scale := Nat.mul_pos hd (Nat.two_pow_pos _)
  -- the double is a whole number of units, which the rounded quotient does not exceed
  have hsteps : z.steps = z.significand * 2 ^ (z.scale - scale) * 2 ^ scale := by
    rw [steps_eq, Nat.mul_assoc, ← Nat.pow_add, Nat.sub_add_cancel hscale]
  -- a quotient that is not above a whole number is not rounded above it
  have hround : roundDiv (n <<< 1074) (d * 2 ^ scale) ≤ z.significand * 2 ^ (z.scale - scale) := by
    refine roundDiv_le_of_le hunit (Nat.le_trans h (Nat.le_of_eq ?_))
    rw [hsteps, Nat.mul_assoc, Nat.mul_comm (2 ^ scale) d]
  have hbits : roundDiv (n <<< 1074) (d * 2 ^ scale) ≤ 2 ^ 53 := roundDiv_le_of_le hunit hlt.le
  have hgreater := le_roundDiv (n <<< 1074) (d * 2 ^ scale)
  generalize roundDiv (n <<< 1074) (d * 2 ^ scale) = r at hround hbits hgreater
  have hle : r * 2 ^ scale ≤ z.steps := hsteps ▸ Nat.mul_le_mul_right _ hround
  split
  · next hcarry =>
    rw [hcarry] at hle
    have hnext : scale + 1 ≤ z.scale := by
      have hstrict : 2 ^ 53 * 2 ^ scale < 2 ^ 53 * 2 ^ z.scale := Nat.lt_of_le_of_lt hle z.steps_lt
      exact (Nat.pow_lt_pow_iff_right (by decide)).mp (Nat.lt_of_mul_lt_mul_left hstrict)
    obtain ⟨x, hx, hxsteps⟩ := exists_ofParts? negative (by decide : 2 ^ 52 < 2 ^ 53)
      (Nat.le_trans hnext z.scale_le) (.inr (Nat.le_refl _))
    have hcarried : 2 ^ 52 * 2 ^ (scale + 1) = 2 ^ 53 * 2 ^ scale := by ring
    exact ⟨x, hx, by rwa [hxsteps, hcarried]⟩
  · next hne =>
    have hr : r < 2 ^ 53 := Nat.lt_of_le_of_ne hbits hne
    have hr' : scale = 0 ∨ 2 ^ 52 ≤ r := hfull.imp_right fun h =>
      Nat.le_trans ((Nat.le_div_iff_mul_le hunit).mpr h) hgreater
    obtain ⟨x, hx, hxsteps⟩ := exists_ofParts? negative hr
      (Nat.le_trans hscale z.scale_le) hr'
    exact ⟨x, hx, hxsteps ▸ hle⟩

/-- A power of two that is a double. -/
def twoPow (k : Nat) (h : k ≤ 1023) : Double where
  negative := false
  significand := 2 ^ 52
  scale := k + 1022
  significand_lt := by decide
  scale_le := by omega
  full := .inr (Nat.le_refl _)

theorem steps_twoPow (k : Nat) (h : k ≤ 1023) : (twoPow k h).steps = 2 ^ k <<< 1074 := by
  rw [Nat.shiftLeft_eq]
  calc (twoPow k h).steps = 2 ^ 52 * 2 ^ (k + 1022) := by rw [steps_eq, twoPow]
    _ = 2 ^ (52 + (k + 1022)) := (Nat.pow_add _ _ _).symm
    _ = 2 ^ (k + 1074) := by rw [show 52 + (k + 1022) = k + 1074 by omega]
    _ = 2 ^ k * 2 ^ 1074 := Nat.pow_add _ _ _

/-- Up to `2 ^ 1023` there is a nearest double. -/
theorem exists_nearest?_of_le_two_pow (negative : Bool) {k : Nat} (hk : k ≤ 1023) (hd : 0 < d)
    (h : n ≤ 2 ^ k * d) :
    ∃ x, nearest? negative n d = some x ∧ x.steps ≤ 2 ^ k <<< 1074 := by
  have hle : n <<< 1074 ≤ (twoPow k hk).steps * d := by
    rw [steps_twoPow, Nat.shiftLeft_eq, Nat.shiftLeft_eq, Nat.mul_right_comm]
    exact Nat.mul_le_mul_right _ h
  obtain ⟨x, hx, hsteps⟩ := exists_nearest?_of_le negative hd hle
  exact ⟨x, hx, steps_twoPow k hk ▸ hsteps⟩

/-! ### Errors of rounding -/

/-- The nearest double differs from the ratio by no more than one part in `2 ^ 53`, unless the ratio
is so small that it has too few bits. -/
theorem near_of_nearest? (hd : 0 < d) (hlarge : 2 ^ 52 * d ≤ n <<< 1074)
    (h : nearest? negative n d = some x) :
    (2 ^ 53 - 1) * n <<< 1074 ≤ 2 ^ 53 * (x.steps * d) ∧
      2 ^ 53 * (x.steps * d) ≤ (2 ^ 53 + 1) * n <<< 1074 := by
  obtain ⟨-, hsteps, -⟩ := steps_of_nearest? h
  have hunit : 2 ^ 52 * (d * 2 ^ scaleOf n d) ≤ n <<< 1074 := by
    rcases scaleOf_le (n := n) hd with hzero | hfull
    · rwa [hzero, Nat.pow_zero, Nat.mul_one]
    · exact hfull
  have hup := two_mul_roundDiv_le (n <<< 1074) (d * 2 ^ scaleOf n d)
  have hdown := le_two_mul_roundDiv (n := n <<< 1074)
    (Nat.mul_pos hd (Nat.two_pow_pos (scaleOf n d)))
  rw [hsteps, Nat.mul_assoc, Nat.mul_comm (2 ^ scaleOf n d) d]
  omega

/-- Whole numbers have bits enough, so their nearest doubles are near them. -/
theorem near_of_whole (hn : 0 < n) (h : nearest? negative n 1 = some x) :
    (2 ^ 53 - 1) * n <<< 1074 ≤ 2 ^ 53 * x.steps ∧
      2 ^ 53 * x.steps ≤ (2 ^ 53 + 1) * n <<< 1074 := by
  have hlarge : 2 ^ 52 * 1 ≤ n <<< 1074 := by
    rw [Nat.mul_one, Nat.shiftLeft_eq]
    exact Nat.le_trans (Nat.pow_le_pow_right (by decide) (by decide)) (Nat.le_mul_of_pos_left _ hn)
  have hnear := near_of_nearest? Nat.one_pos hlarge h
  rwa [Nat.mul_one] at hnear

/-- The nearest double is less than the ratio by less than one in the last place. -/
theorem lt_of_nearest? (hd : 0 < d) (h : nearest? negative n d = some x) :
    n <<< 1074 < (x.steps + 2 ^ x.scale) * d := by
  obtain ⟨-, hsteps, hscale⟩ := steps_of_nearest? h
  have hunit : 0 < d * 2 ^ scaleOf n d := Nat.mul_pos hd (Nat.two_pow_pos _)
  have hround := le_two_mul_roundDiv (n := n <<< 1074) hunit
  have hpow : d * 2 ^ scaleOf n d ≤ d * 2 ^ x.scale :=
    Nat.mul_le_mul_left _ (Nat.pow_le_pow_right (by decide) hscale)
  rw [Nat.add_mul, hsteps, Nat.mul_assoc, Nat.mul_comm (2 ^ scaleOf n d) d,
    Nat.mul_comm (2 ^ x.scale) d]
  omega

end Double
end PipelineCanvas
