import Mathlib.Algebra.Order.Ring.Nat
import PipelineCanvas.Numeric.Decimal
/-! # Doubles are told by their decimals

The double nearest to a ratio depends on the ratio alone (`Double.nearest?_congr`), and a ratio that
is a whole number of steps is met exactly (`Double.nearest?_eq_self`). So it makes no difference
with how many digits a decimal is given (`Decimal.toDouble?_shift`), and a double is the nearest one
to the decimal that is chosen for it (`Decimal.toDouble?_ofDouble`). So no two doubles are written
alike.

Nothing is said here of what the decimal is read as: the reader rounds more often than once
(`Decimal.approximate?`), and what it does is the subject of
`PipelineCanvas.Proofs.Numeric.Approximation`. -/
namespace PipelineCanvas

/-! ### Rounding a ratio -/

/-- A common factor makes no difference to a rounded quotient. -/
theorem roundDiv_mul_left {k : Nat} (hk : 0 < k) (n d : Nat) :
    roundDiv (k * n) (k * d) = roundDiv n d := by
  have hlt : 2 * (k * (n % d)) < k * d ↔ 2 * (n % d) < d := by
    rw [Nat.mul_left_comm]
    exact Nat.mul_lt_mul_left hk
  have heq : 2 * (k * (n % d)) = k * d ↔ 2 * (n % d) = d := by
    rw [Nat.mul_left_comm]
    exact Nat.mul_right_inj (Nat.pos_iff_ne_zero.mp hk)
  simp only [roundDiv, Nat.mul_mod_mul_left, Nat.mul_div_mul_left _ _ hk, hlt, heq]

theorem roundDiv_exact {d : Nat} (hd : 0 < d) (q : Nat) : roundDiv (q * d) d = q := by
  simp [roundDiv, hd]

theorem roundDiv_of_small {n d : Nat} (h : 2 * n < d) : roundDiv n d = 0 := by
  have hn : n < d := by omega
  simp [roundDiv, Nat.mod_eq_of_lt hn, Nat.div_eq_of_lt hn, h]

theorem log2_shiftLeft {n : Nat} (hn : n ≠ 0) (k : Nat) : (n <<< k).log2 = n.log2 + k := by
  rw [Nat.shiftLeft_eq]
  induction k with
  | zero => simp
  | succ k ih =>
    rw [Nat.pow_succ, ← Nat.mul_assoc, Nat.mul_comm _ 2,
      Nat.log2_two_mul (Nat.mul_ne_zero hn (Nat.two_pow_pos k).ne'), ih, Nat.add_assoc]

namespace Double

theorem ofParts?_self (x : Double) : ofParts? x.negative x.significand x.scale = some x :=
  dif_pos ⟨x.significand_lt, x.scale_le, x.full⟩

theorem ofParts?_of_scale_gt {negative : Bool} {significand scale : Nat} (h : 2045 < scale) :
    ofParts? negative significand scale = none :=
  dif_neg fun hparts => Nat.not_le_of_lt h hparts.2.1

/-- A common factor makes no difference to the nearest double. -/
theorem nearest?_mul_left {k : Nat} (hk : 0 < k) (negative : Bool) (n d : Nat) :
    nearest? negative (k * n) (k * d) = nearest? negative n d := by
  unfold nearest?
  simp only [Nat.shiftLeft_eq, Nat.mul_assoc k, Nat.mul_div_mul_left _ _ hk, roundDiv_mul_left hk]

/-- The nearest double depends on the ratio alone. -/
theorem nearest?_congr {negative : Bool} {n d n' d' : Nat} (hd : 0 < d) (hd' : 0 < d')
    (h : n * d' = n' * d) : nearest? negative n d = nearest? negative n' d' := by
  rw [← nearest?_mul_left hd' negative n d, ← nearest?_mul_left hd negative n' d',
    Nat.mul_comm d' n, h, Nat.mul_comm n' d, Nat.mul_comm d' d]

/-- A double has all its bits before the scale is needed, so its scale is found again. -/
theorem log2_steps (x : Double) : x.steps.log2 + 1 - 53 = x.scale := by
  have hlt : x.significand < 2 ^ 53 := by simpa [Nat.shiftLeft_eq] using x.significand_lt
  rcases Nat.eq_zero_or_pos x.significand with hzero | hpos
  · rcases x.full with hscale | hfull
    · simp [steps, hzero, hscale]
    · simp [hzero, Nat.shiftLeft_eq] at hfull
  · have hlog : x.steps.log2 = x.significand.log2 + x.scale :=
      log2_shiftLeft (Nat.pos_iff_ne_zero.mp hpos) _
    have hle : x.significand.log2 < 53 := (Nat.log2_lt (Nat.pos_iff_ne_zero.mp hpos)).mpr hlt
    rcases x.full with hscale | hfull
    · omega
    · have hge : 52 ≤ x.significand.log2 := by
        refine (Nat.le_log2 (Nat.pos_iff_ne_zero.mp hpos)).mpr ?_
        simpa [Nat.shiftLeft_eq] using hfull
      omega

/-- A ratio that is a whole number of steps of a double is met by that double. -/
theorem nearest?_eq_self (x : Double) {n d : Nat} (hd : 0 < d) (h : n <<< 1074 = x.steps * d) :
    nearest? x.negative n d = some x := by
  have hsteps : n <<< 1074 / d = x.steps := by rw [h, Nat.mul_div_cancel _ hd]
  have hround : roundDiv (n <<< 1074) (d <<< x.scale) = x.significand := by
    rw [h, steps, show x.significand <<< x.scale * d = x.significand * (d <<< x.scale) by
      rw [Nat.shiftLeft_eq, Nat.shiftLeft_eq, Nat.mul_assoc, Nat.mul_comm d]]
    exact roundDiv_exact (by rw [Nat.shiftLeft_eq]; exact Nat.mul_pos hd (Nat.two_pow_pos _)) _
  simp only [nearest?, hsteps, log2_steps, hround, Nat.ne_of_lt x.significand_lt, if_false]
  exact ofParts?_self x

/-- Less than half a step is rounded to zero. -/
theorem nearest?_of_small {negative : Bool} {n d : Nat} (h : 2 * (n <<< 1074) < d) :
    nearest? negative n d = some (zero negative) := by
  have hdiv : n <<< 1074 / d = 0 := Nat.div_eq_of_lt (by omega)
  have hround : roundDiv (n <<< 1074) (d <<< (0 + 1 - 53)) = 0 := roundDiv_of_small h
  simp only [nearest?, hdiv, Nat.log2_zero, hround]
  rfl

/-- From `2 ^ 1024` on, a ratio is too great for a double. -/
theorem nearest?_of_large {negative : Bool} {n d k : Nat} (hk : 1024 ≤ k) (hd : 0 < d)
    (h : 2 ^ k * d ≤ n) : nearest? negative n d = none := by
  have hsteps : 2 ^ (k + 1074) ≤ n <<< 1074 / d := by
    rw [Nat.le_div_iff_mul_le hd, Nat.shiftLeft_eq, Nat.pow_add, Nat.mul_right_comm]
    exact Nat.mul_le_mul_right _ h
  have hne : n <<< 1074 / d ≠ 0 :=
    Nat.pos_iff_ne_zero.mp (Nat.lt_of_lt_of_le (Nat.two_pow_pos _) hsteps)
  have hlog : k + 1074 ≤ (n <<< 1074 / d).log2 := (Nat.le_log2 hne).mpr hsteps
  have hscale : 2045 < (n <<< 1074 / d).log2 + 1 - 53 := by omega
  unfold nearest?
  simp only
  split
  · exact ofParts?_of_scale_gt (Nat.lt_succ_of_lt hscale)
  · exact ofParts?_of_scale_gt hscale

theorem eq_zero_of_steps {x : Double} (h : x.steps = 0) : x = zero x.negative := by
  obtain ⟨negative, significand, scale, hlt, hle, hfull⟩ := x
  have hsig : significand = 0 := by simpa [steps, Nat.shiftLeft_eq] using h
  have hscale : scale = 0 := by
    rcases hfull with hscale | hfull
    · exact hscale
    · simp [hsig, Nat.shiftLeft_eq] at hfull
  subst significand
  subst scale
  rfl

end Double

/-! ### Nearest doubles of decimals -/

namespace Decimal

theorem toDouble?_zero (negative : Bool) (e : Int) :
    toDouble? negative ⟨0, e⟩ = some (.zero negative) := rfl

/-- A power of ten is more than three times as many bits, so that twice a number of not so many bits
is less. -/
theorem two_mul_shiftLeft_lt {m s e : Nat} (h : m.log2 + s + 2 ≤ 3 * e) :
    2 * m <<< s < 10 ^ e := by
  have hlt : m < 2 ^ (m.log2 + 1) := Nat.lt_log2_self
  calc 2 * m <<< s = m * 2 ^ (s + 1) := by
        rw [Nat.shiftLeft_eq, Nat.mul_left_comm, Nat.pow_succ']
    _ < 2 ^ (m.log2 + 1) * 2 ^ (s + 1) := Nat.mul_lt_mul_of_pos_right hlt (Nat.two_pow_pos _)
    _ = 2 ^ (m.log2 + 1 + (s + 1)) := (Nat.pow_add _ _ _).symm
    _ ≤ 2 ^ (3 * e) := Nat.pow_le_pow_right (by decide) (by omega)
    _ = (2 ^ 3) ^ e := Nat.pow_mul _ _ _
    _ ≤ 10 ^ e := Nat.pow_le_pow_left (by decide) e

/-- Ten tens are more than thirty-three bits, which is what the bound on exponents is measured by.
-/
theorem two_pow_le_ten_pow_of_le {k e : Nat} (h : 10 * k + 1 ≤ e) :
    2 ^ (33 * k + 3) ≤ 10 ^ e := by
  refine Nat.le_trans ?_ (Nat.pow_le_pow_right (by decide) h)
  rw [Nat.pow_add, Nat.pow_mul, Nat.pow_add, Nat.pow_mul]
  exact Nat.mul_le_mul (Nat.pow_le_pow_left (by decide) k) (by decide)

/-- Where the power of ten is not computed, rounding the ratio gives the same. -/
theorem toDouble?_eq_nearest? {m : Nat} (hm : m ≠ 0) (negative : Bool) (e : Int) :
    toDouble? negative ⟨m, e⟩ = Double.nearest? negative (m * 10 ^ e.toNat) (10 ^ (-e).toNat) := by
  unfold toDouble?
  rw [if_neg hm]
  cases e with
  | ofNat e =>
    simp only [show (Int.ofNat e).toNat = e from rfl, show (-Int.ofNat e).toNat = 0 by simp,
      Nat.pow_zero]
    split
    · next he =>
      -- from `10 ^ 311` on a number has more than 1026 bits
      have hle : 2 ^ (33 * 31 + 3) * 1 ≤ m * 10 ^ e := by
        rw [Nat.mul_one]
        exact Nat.le_trans (two_pow_le_ten_pow_of_le he)
          (Nat.le_mul_of_pos_left _ (Nat.pos_iff_ne_zero.mpr hm))
      exact (Double.nearest?_of_large (by decide) Nat.one_pos hle).symm
    · rfl
  | negSucc e =>
    simp only [show (Int.negSucc e).toNat = 0 from rfl,
      show (-Int.negSucc e).toNat = e + 1 from rfl, Nat.pow_zero, Nat.mul_one]
    split
    · next he =>
      exact (Double.nearest?_of_small (two_mul_shiftLeft_lt (by omega))).symm
    · rfl

/-- Zeros at the end of the digits make no difference. -/
theorem toDouble?_shift (negative : Bool) (m k : Nat) (e : Int) :
    toDouble? negative ⟨m * 10 ^ k, e - k⟩ = toDouble? negative ⟨m, e⟩ := by
  rcases Nat.eq_zero_or_pos m with rfl | hm
  · rw [Nat.zero_mul, toDouble?_zero, toDouble?_zero]
  · have hten : ∀ n, 0 < 10 ^ n := fun n => Nat.pow_pos (by decide)
    rw [toDouble?_eq_nearest? (Nat.mul_pos hm (hten k)).ne', toDouble?_eq_nearest? hm.ne']
    refine Double.nearest?_congr (hten _) (hten _) ?_
    have hexp : k + (e - k).toNat + (-e).toNat = e.toNat + (-(e - k)).toNat := by omega
    rw [Nat.mul_assoc, Nat.mul_assoc, Nat.mul_assoc, ← Nat.pow_add, ← Nat.pow_add, ← Nat.pow_add,
      ← Nat.add_assoc, hexp]

/-- As a step is `5 ^ 1074 * 10 ^ -1074`, every double is a decimal. The exponent is a variable, so
that its powers are not computed. -/
theorem toDouble?_exact (x : Double) {k : Nat} (hk : k = 1074) :
    toDouble? x.negative ⟨x.steps * Nat.pow 5 k, -1074⟩ = some x := by
  rcases Nat.eq_zero_or_pos x.steps with hzero | hpos
  · rw [hzero, Nat.zero_mul, toDouble?_zero, ← Double.eq_zero_of_steps hzero]
  · have hdigits : 0 < x.steps * Nat.pow 5 k := Nat.mul_pos hpos (Nat.pow_pos (by decide))
    rw [toDouble?_eq_nearest? hdigits.ne', show (-1074 : Int) = -k by omega]
    refine Double.nearest?_eq_self x (Nat.pow_pos (by decide)) ?_
    rw [Nat.shiftLeft_eq, ← hk, show (-(k : Int)).toNat = 0 by omega,
      show (-(-(k : Int))).toNat = k by omega, Nat.pow_zero, Nat.mul_one, Nat.mul_assoc]
    exact congrArg (x.steps * ·) (Nat.mul_pow 5 2 k).symm

/-- **A double is the nearest one to its decimal.** -/
theorem toDouble?_ofDouble (x : Double) : (ofDouble x).toDouble? x.negative = some x := by
  delta ofDouble
  extract_lets value length candidates
  cases hfound : candidates.find? fun d => d.toDouble? x.negative == some x with
  | some d =>
    have hread := List.find?_some hfound
    exact eq_of_beq hread
  | none => exact toDouble?_exact x rfl

end Decimal
end PipelineCanvas
