import PipelineCanvas.Proofs.Numeric.Range
/-! # Which decimals are read as doubles

A decimal is read in several steps that each round (`Decimal.approximate?`): the digits, the power
of ten, and the product of the two or their quotient. It is not read where one of the steps leaves
the range of doubles, and that is not quite the same as the decimal being too great for a double.
This file says of which decimals it is certain that they are read.

With digits of 64 bits it needs a large exponent to leave the range. Up to `10 ^ 20` no step can do
it (`Decimal.isSome_approximate?_of_le`), as the product stays below `2 ^ 131`, and quotients by
powers of ten are no greater than what is divided. And of the same digits, all smaller exponents are
read where one is (`Decimal.isSome_approximate?_of_lt`): a power of ten is at least twice the one
before it, also when both are rounded.

What a double is written as lies near the double, but that alone does not say that it is read: the
digits, the power of ten and their product are all rounded, each up by as much as one part in `2 ^
53`. The three together stay within the range for all doubles but the four greatest of either sign
(`Decimal.isSome_approximate?_of_toDouble?`). For those the text decides. -/
namespace PipelineCanvas

namespace Double
variable {x y : Double}

/-- The greatest double. -/
def greatest : Double where
  negative := false
  significand := 2 ^ 53 - 1
  scale := 2045
  significand_lt := by decide
  scale_le := Nat.le_refl _
  full := .inr (by decide)

/-- The double is not one of the four greatest of its sign, so that three roundings upwards do not
lead beyond the greatest one. -/
def LeavesRoom (x : Double) : Prop := x.scale < 2045 ∨ x.significand + 4 < 2 ^ 53

/-- One in the last place more is one more in the significand. -/
theorem next_eq (x : Double) : x.steps + 2 ^ x.scale = (x.significand + 1) * 2 ^ x.scale := by
  rw [steps_eq, Nat.succ_mul]

/-- What is less than the next double may be rounded up twice and is still not beyond the greatest
one. -/
theorem LeavesRoom.le_greatest (h : x.LeavesRoom) :
    (2 ^ 53 + 1) * ((2 ^ 53 + 1) * (x.steps + 2 ^ x.scale)) ≤
      2 ^ 53 * (2 ^ 53 * greatest.steps) := by
  have hgreatest : greatest.steps = (2 ^ 53 - 1) * 2 * 2 ^ 2044 := by decide +kernel
  rw [next_eq, hgreatest]
  rcases h with hscale | hroom
  -- at a smaller scale the bound is half the range, below the greatest scale only the last places
  -- matter
  · have hlt : x.significand + 1 ≤ 2 ^ 53 := x.significand_lt
    have hpow : 2 ^ x.scale ≤ 2 ^ 2044 := Nat.pow_le_pow_right (by decide) (by omega)
    calc (2 ^ 53 + 1) * ((2 ^ 53 + 1) * ((x.significand + 1) * 2 ^ x.scale))
        ≤ (2 ^ 53 + 1) * ((2 ^ 53 + 1) * (2 ^ 53 * 2 ^ 2044)) := by gcongr
      _ ≤ 2 ^ 53 * (2 ^ 53 * ((2 ^ 53 - 1) * 2 * 2 ^ 2044)) := by decide +kernel
  · have hlt : x.significand + 1 ≤ 2 ^ 53 - 4 := by omega
    have hpow : 2 ^ x.scale ≤ 2 ^ 2045 := Nat.pow_le_pow_right (by decide) x.scale_le
    calc (2 ^ 53 + 1) * ((2 ^ 53 + 1) * ((x.significand + 1) * 2 ^ x.scale))
        ≤ (2 ^ 53 + 1) * ((2 ^ 53 + 1) * ((2 ^ 53 - 4) * 2 ^ 2045)) := by gcongr
      _ ≤ 2 ^ 53 * (2 ^ 53 * ((2 ^ 53 - 1) * 2 * 2 ^ 2044)) := by decide +kernel

/-- A quotient by one or more is no greater than what is divided. -/
theorem exists_over? (h : 2 ^ 1074 ≤ y.steps) :
    ∃ z, x.over? y = some z ∧ z.steps ≤ x.steps := by
  refine exists_nearest?_of_le _ (Nat.lt_of_lt_of_le (Nat.two_pow_pos _) h) ?_
  rw [Nat.shiftLeft_eq]
  exact Nat.mul_le_mul_left _ h

/-- Two doubles whose product is not beyond `2 ^ 1023` have one. -/
theorem isSome_times? {k : Nat} (hk : k ≤ 1023) (h : x.steps * y.steps ≤ 2 ^ k * 1 <<< 2148) :
    (x.times? y).isSome := by
  have hone : 0 < 1 <<< 2148 := by decide
  obtain ⟨z, hz, -⟩ := exists_nearest?_of_le_two_pow (x.negative != y.negative) hk hone h
  exact Option.isSome_of_eq_some hz

/-- A product that a double comes near to is less than `2 ^ 1024`. -/
theorem lt_of_isSome_times? {k : Nat} (hk : 1024 ≤ k) (h : (x.times? y).isSome) :
    x.steps * y.steps < 2 ^ k * 1 <<< 2148 := by
  by_contra hlarge
  rw [times?, nearest?_of_large hk (by decide) (Nat.le_of_not_lt hlarge)] at h
  cases h

end Double

namespace Decimal
variable {negative : Bool} {m v : Nat} {e e' : Int} {d d' : Decimal}

/-! ### Powers of ten -/

/-- The power of ten is the double nearest to it, as there is one up to `10 ^ 308`. -/
theorem nearest?_powerOfTen {e : Nat} (he : e ≤ 308) :
    Double.nearest? false (10 ^ e) 1 = some (powerOfTen e) := by
  have hgreatest : 10 ^ 308 <<< 1074 ≤ Double.greatest.steps * 1 := by decide +kernel
  have hle : 10 ^ e <<< 1074 ≤ Double.greatest.steps * 1 := by
    refine Nat.le_trans ?_ hgreatest
    rw [Nat.shiftLeft_eq, Nat.shiftLeft_eq]
    exact Nat.mul_le_mul_right _ (Nat.pow_le_pow_right (by decide) he)
  obtain ⟨x, hx, -⟩ := Double.exists_nearest?_of_le false Nat.one_pos hle
  rw [powerOfTen, Nat.pow_eq, hx]
  rfl

/-- Ten times as much is twice as much at least, rounded as it is. -/
theorem two_mul_powerOfTen_le {e : Nat} (he : e < 308) :
    2 * (powerOfTen e).steps ≤ (powerOfTen (e + 1)).steps := by
  obtain ⟨-, hup⟩ := Double.near_of_whole (Nat.pow_pos (by decide)) (nearest?_powerOfTen he.le)
  obtain ⟨hdown, -⟩ :=
    Double.near_of_whole (Nat.pow_pos (by decide)) (nearest?_powerOfTen (e := e + 1) he)
  have hten : 10 ^ (e + 1) <<< 1074 = 10 * 10 ^ e <<< 1074 := by
    rw [Nat.shiftLeft_eq, Nat.shiftLeft_eq, Nat.pow_succ', Nat.mul_assoc]
  rw [hten] at hdown
  omega

/-- Rounded powers of ten are in the order of their exponents. -/
theorem powerOfTen_le {e e' : Nat} (h : e ≤ e') (he' : e' ≤ 308) :
    (powerOfTen e).steps ≤ (powerOfTen e').steps := by
  induction e', h using Nat.le_induction with
  | base => exact Nat.le_refl _
  | succ n _ ih =>
    have hstep := two_mul_powerOfTen_le (e := n) he'
    have hle := ih (by omega)
    omega

/-- No power of ten is rounded to less than one. -/
theorem one_le_powerOfTen {e : Nat} (he : e ≤ 308) : 2 ^ 1074 ≤ (powerOfTen e).steps :=
  have hone : 2 ^ 1074 ≤ (powerOfTen 0).steps := by decide +kernel
  Nat.le_trans hone (powerOfTen_le (Nat.zero_le e) he)

/-! ### Small exponents -/

/-- Digits of 64 bits are near a double, which is not beyond `2 ^ 64`. -/
theorem exists_nearest?_digits (hm : m < 2 ^ 64) :
    ∃ x, Double.nearest? false m 1 = some x ∧ x.steps ≤ 2 ^ 64 <<< 1074 :=
  Double.exists_nearest?_of_le_two_pow false (by decide) Nat.one_pos
    (Nat.le_trans hm.le (Nat.le_of_eq (Nat.mul_one _).symm))

/-- Division by powers of ten does not leave the range, however often it is done. -/
theorem isSome_lower? (x : Double) (rounds : Nat) {e : Nat} (he : e ≤ 308) :
    (lower? x rounds e).isSome := by
  induction rounds generalizing x with
  | zero =>
    obtain ⟨y, hy, -⟩ := Double.exists_over? (x := x) (one_le_powerOfTen he)
    exact Option.isSome_of_eq_some hy
  | succ rounds ih =>
    rw [lower?]
    split
    · rfl
    · obtain ⟨y, hy, -⟩ := Double.exists_over? (x := x) (one_le_powerOfTen (Nat.le_refl 308))
      rw [hy]
      exact ih y

/-- A number is shifted by a small power of ten, or by a power that is less than one. -/
theorem isSome_shift?_of_le {x : Double} (hx : x.steps ≤ 2 ^ 64 <<< 1074) (he : e ≤ 20) :
    (shift? x e).isSome := by
  cases e with
  | negSucc k => exact isSome_lower? x _ (by omega)
  | ofNat k =>
    have hk : k ≤ 20 := Int.ofNat_le.mp he
    have hpower : (powerOfTen k).steps ≤ 2 ^ 67 <<< 1074 :=
      Nat.le_trans (powerOfTen_le hk (by decide)) (by decide +kernel)
    rw [shift?, raise?, if_pos (by omega)]
    refine Double.isSome_times? (k := 131) (by decide) ?_
    exact Nat.le_trans (Nat.mul_le_mul hx hpower) (by decide +kernel)

/-- Zero stays zero under every power of ten. -/
theorem isSome_raise?_of_zero {x : Double} (hx : x.significand = 0) (k : Nat) :
    (raise? x k).isSome := by
  unfold raise?
  split
  · refine Double.isSome_times? (k := 0) (by decide) ?_
    rw [Double.steps_eq, hx, Nat.zero_mul, Nat.zero_mul]
    exact Nat.zero_le _
  · rfl

/-- A product with a power of ten leaves room for the double of what a smaller power gives. -/
theorem isSome_raise?_of_lt {x : Double} {k k' : Nat} (h : (raise? x k).isSome) (hlt : k' < k) :
    (raise? x k').isSome := by
  by_cases hzero : x.significand = 0
  · exact isSome_raise?_of_zero hzero k'
  · have hk : k ≤ 308 := by
      by_contra hk
      rw [raise?, if_neg hk, if_neg hzero] at h
      cases h
    rw [raise?, if_pos hk] at h
    rw [raise?, if_pos (by omega)]
    -- the exponent is a variable, so that its power is not computed
    obtain ⟨top, htop⟩ : ∃ top, top = 1023 := ⟨_, rfl⟩
    refine Double.isSome_times? (Nat.le_of_eq htop) ?_
    -- half of what is below `2 ^ 1024` is below `2 ^ 1023`, where a nearest double is certain
    have hproduct := Double.lt_of_isSome_times? (k := top + 1) (by omega) h
    have hpower : 2 * (powerOfTen k').steps ≤ (powerOfTen k).steps :=
      Nat.le_trans (two_mul_powerOfTen_le (by omega)) (powerOfTen_le hlt hk)
    have hhalf : 2 * (x.steps * (powerOfTen k').steps) ≤ x.steps * (powerOfTen k).steps := by
      rw [Nat.mul_left_comm]
      exact Nat.mul_le_mul_left _ hpower
    rw [Nat.pow_succ', Nat.mul_assoc] at hproduct
    omega

/-- What is shifted by one power of ten is shifted by all that are less. -/
theorem isSome_shift?_of_lt {x : Double} (hx : x.steps ≤ 2 ^ 64 <<< 1074)
    (h : (shift? x e).isSome) (hlt : e' < e) : (shift? x e').isSome := by
  rcases Int.lt_or_le e' 0 with hneg | hpos
  · exact isSome_shift?_of_le hx (by omega)
  · obtain ⟨k, rfl⟩ := Int.eq_ofNat_of_zero_le (show 0 ≤ e by omega)
    obtain ⟨k', rfl⟩ := Int.eq_ofNat_of_zero_le hpos
    exact isSome_raise?_of_lt (k := k) h (Int.ofNat_lt.mp hlt)

/-! ### Decimals -/

/-- Whether a decimal is read depends on the power of ten alone, once its digits are rounded. -/
theorem isSome_approximate?_iff {x : Double} (hx : Double.nearest? false d.digits 1 = some x) :
    (d.approximate? negative).isSome ↔ (shift? x d.exponent).isSome := by
  rw [approximate?, hx]
  cases h : shift? x d.exponent <;> simp [h]

/-- **With a small exponent digits of 64 bits are read.** -/
theorem isSome_approximate?_of_le (hd : d.digits < 2 ^ 64) (he : d.exponent ≤ 20) :
    (d.approximate? negative).isSome := by
  obtain ⟨x, hx, hsteps⟩ := exists_nearest?_digits hd
  exact (isSome_approximate?_iff hx).mpr (isSome_shift?_of_le hsteps he)

/-- **A smaller exponent does not lead out of the range of doubles.** -/
theorem isSome_approximate?_of_lt (hd : d.digits < 2 ^ 64) (h : (d.approximate? negative).isSome)
    (hdigits : d'.digits = d.digits) (hlt : d'.exponent < d.exponent) :
    (d'.approximate? negative).isSome := by
  obtain ⟨x, hx, hsteps⟩ := exists_nearest?_digits hd
  rw [isSome_approximate?_iff hx] at h
  rw [isSome_approximate?_iff (hdigits ▸ hx)]
  exact isSome_shift?_of_lt hsteps h hlt

/-! ### Decimals of doubles -/

/-- A power of ten that is less than the next double is rounded to one itself. -/
theorem le_of_value {z : Double} {k : Nat} (hv : 0 < v)
    (h : (v * 10 ^ k) <<< 1074 < z.steps + 2 ^ z.scale) : k ≤ 308 := by
  by_contra hk
  have hten : 10 ^ 309 ≤ v * 10 ^ k :=
    Nat.le_trans (Nat.pow_le_pow_right (by decide) (by omega)) (Nat.le_mul_of_pos_left _ hv)
  have hlt : z.significand + 1 ≤ 2 ^ 53 := z.significand_lt
  have hpow : 2 ^ z.scale ≤ 2 ^ 2045 := Nat.pow_le_pow_right (by decide) z.scale_le
  have hlarge : 2 ^ 53 * 2 ^ 2045 ≤ 10 ^ 309 <<< 1074 := by decide +kernel
  refine absurd h (Nat.not_lt_of_le ?_)
  calc z.steps + 2 ^ z.scale = (z.significand + 1) * 2 ^ z.scale := z.next_eq
    _ ≤ 2 ^ 53 * 2 ^ 2045 := by gcongr
    _ ≤ 10 ^ 309 <<< 1074 := hlarge
    _ ≤ (v * 10 ^ k) <<< 1074 := by
      rw [Nat.shiftLeft_eq, Nat.shiftLeft_eq]
      exact Nat.mul_le_mul_right _ hten

/-- Three roundings lead up by less than three units in the last place. -/
theorem isSome_raise?_of_value {x z : Double} {k : Nat}
    (hx : 2 ^ 53 * x.steps ≤ (2 ^ 53 + 1) * v <<< 1074) (hv : 0 < v)
    (hz : z.LeavesRoom)
    (hvalue : (v * 10 ^ k) <<< 1074 < z.steps + 2 ^ z.scale) : (raise? x k).isSome := by
  have hk := le_of_value hv hvalue
  have hten : 0 < 10 ^ k := Nat.pow_pos (by decide)
  obtain ⟨-, hpower⟩ := Double.near_of_whole hten (nearest?_powerOfTen hk)
  have hproduct : x.steps * (powerOfTen k).steps ≤ Double.greatest.steps * 2 ^ 1074 := by
    refine Nat.le_of_mul_le_mul_left ?_ (by decide : 0 < 2 ^ 53 * 2 ^ 53)
    calc 2 ^ 53 * 2 ^ 53 * (x.steps * (powerOfTen k).steps)
        = 2 ^ 53 * x.steps * (2 ^ 53 * (powerOfTen k).steps) := by ring
      _ ≤ (2 ^ 53 + 1) * v <<< 1074 * ((2 ^ 53 + 1) * 10 ^ k <<< 1074) :=
          Nat.mul_le_mul hx hpower
      _ = (2 ^ 53 + 1) * ((2 ^ 53 + 1) * (v * 10 ^ k) <<< 1074) * 2 ^ 1074 := by
          simp only [Nat.shiftLeft_eq]
          ring
      _ ≤ (2 ^ 53 + 1) * ((2 ^ 53 + 1) * (z.steps + 2 ^ z.scale)) * 2 ^ 1074 := by gcongr
      _ ≤ 2 ^ 53 * (2 ^ 53 * Double.greatest.steps) * 2 ^ 1074 :=
          Nat.mul_le_mul_right _ hz.le_greatest
      _ = 2 ^ 53 * 2 ^ 53 * (Double.greatest.steps * 2 ^ 1074) := by ring
  rw [raise?, if_pos hk]
  have hratio : (x.steps * (powerOfTen k).steps) <<< 1074 ≤ Double.greatest.steps * 1 <<< 2148 := by
    have hpow : 2 ^ 1074 * 2 ^ 1074 = 1 <<< 2148 := by decide +kernel
    calc (x.steps * (powerOfTen k).steps) <<< 1074
        = x.steps * (powerOfTen k).steps * 2 ^ 1074 := Nat.shiftLeft_eq _ _
      _ ≤ Double.greatest.steps * 2 ^ 1074 * 2 ^ 1074 := Nat.mul_le_mul_right _ hproduct
      _ = Double.greatest.steps * 1 <<< 2148 := by rw [Nat.mul_assoc, hpow]
  obtain ⟨y, hy, -⟩ := Double.exists_nearest?_of_le (x.negative != (powerOfTen k).negative)
    (by decide +kernel) hratio
  exact Option.isSome_of_eq_some hy

/-- **A decimal that is nearest to a double is read**, be it as another one, and also where some
digits at its end are missing. The four greatest doubles are left out. -/
theorem isSome_approximate?_of_toDouble? {z : Double} (h : d.toDouble? negative = some z)
    (hz : z.LeavesRoom) {l : Nat} (hd' : d'.digits < 2 ^ 64) (hle : d'.digits * 10 ^ l ≤ d.digits)
    (hexponent : d'.exponent = d.exponent + l) : (d'.approximate? negative).isSome := by
  rcases Int.lt_or_le d'.exponent 0 with hneg | hpos
  · exact isSome_approximate?_of_le hd' (by omega)
  · obtain ⟨k, hk⟩ := Int.eq_ofNat_of_zero_le hpos
    obtain ⟨x, hx, -⟩ := exists_nearest?_digits hd'
    rw [isSome_approximate?_iff hx, hk]
    rcases Nat.eq_zero_or_pos d'.digits with hzero | hvpos
    · rw [hzero, Double.nearest?_of_small (by decide)] at hx
      obtain rfl := Option.some.inj hx
      exact isSome_raise?_of_zero rfl k
    · have hm : d.digits ≠ 0 := by
        have := Nat.mul_pos hvpos (Nat.pow_pos (n := l) (by decide : 0 < 10))
        omega
      have hnearest : Double.nearest? negative (d.digits * 10 ^ d.exponent.toNat)
          (10 ^ (-d.exponent).toNat) = some z := (toDouble?_eq_nearest? hm _ _).symm.trans h
      have hlt := Double.lt_of_nearest? (Nat.pow_pos (by decide)) hnearest
      refine isSome_raise?_of_value (Double.near_of_whole hvpos hx).2 hvpos hz ?_
      refine Nat.lt_of_mul_lt_mul_right (a := 10 ^ (-d.exponent).toNat) (Nat.lt_of_le_of_lt ?_ hlt)
      have hexp : k + (-d.exponent).toNat = l + d.exponent.toNat := by omega
      rw [Nat.shiftLeft_eq, Nat.shiftLeft_eq, Nat.mul_right_comm]
      refine Nat.mul_le_mul_right _ ?_
      calc d'.digits * 10 ^ k * 10 ^ (-d.exponent).toNat
          = d'.digits * 10 ^ l * 10 ^ d.exponent.toNat := by
            rw [Nat.mul_assoc, ← Nat.pow_add, hexp, Nat.pow_add, Nat.mul_assoc]
        _ ≤ d.digits * 10 ^ d.exponent.toNat := Nat.mul_le_mul_right _ hle

end Decimal
end PipelineCanvas
