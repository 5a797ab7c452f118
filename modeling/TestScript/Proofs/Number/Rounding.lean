import Mathlib.Algebra.Order.Field.Power
import Mathlib.Data.Nat.Digits.Lemmas
import Mathlib.Tactic.FieldSimp
import Mathlib.Tactic.Linarith
import Mathlib.Tactic.NormNum
import Mathlib.Tactic.Positivity
import Mathlib.Tactic.Ring
import TestScript.Number.Double

/-!
# Decimals are rounded to the nearest number

A decimal is read as the number of the binary format that is nearest to it, and of two that are
equally near as the one with an even mantissa; a decimal from `overflow` on is refused
(`ofDecimal?_spec`). The quotient is rounded once, on the grid of the exponent at which it fills 53
binary digits. No number of the format off this grid is nearer: one of a greater exponent lies on the
grid, and one of a smaller exponent lies below the quotient, with a point of the grid between them.
-/

namespace TestScript.Number.Double

/-- The size of a number, whatever its sign. -/
def magnitude (x : Double) : ℚ :=
  x.mantissa * 2 ^ x.exponent

/-- The numbers of the binary format. -/
structure InFormat (x : Double) : Prop where
  mantissa_lt : x.mantissa < 2 ^ 53
  le_exponent : minExponent ≤ x.exponent
  exponent_le : x.exponent ≤ maxExponent
  normal : 2 ^ 52 ≤ x.mantissa ∨ x.exponent = minExponent

/-- A number is nearest to a size: no number of the format is nearer, and if another one is just as
near, then the mantissa is even. -/
structure IsNearest (v : ℚ) (x : Double) : Prop where
  inFormat : x.InFormat
  le : ∀ y : Double, y.InFormat → |v - x.magnitude| ≤ |v - y.magnitude|
  even : ∀ y : Double, y.InFormat → y.magnitude ≠ x.magnitude →
    |v - x.magnitude| = |v - y.magnitude| → x.mantissa % 2 = 0

/-- The sizes from here on are rounded past the greatest number of the format: half a step above
it. -/
def overflow : ℚ :=
  (2 ^ 53 - 1 / 2) * 2 ^ maxExponent

/-! ## Quotients -/

section

variable {num den : Nat}

/-- A quotient is rounded to an integer that is at most a half away, and to an even one if it is a
half away. -/
theorem abs_sub_roundQuotient (hden : 0 < den) :
    |(num : ℚ) / den - roundQuotient num den| ≤ 1 / 2 ∧
      (|(num : ℚ) / den - roundQuotient num den| = 1 / 2 → roundQuotient num den % 2 = 0) := by
  have hden' : (0 : ℚ) < den := by exact_mod_cast hden
  have hnum : (num : ℚ) / den = (num / den : Nat) + (num % den : Nat) / den := by
    rw [eq_comm, ← mul_left_inj' hden'.ne']
    field_simp
    exact_mod_cast Nat.div_add_mod' num den
  have hmod : num % den < den := Nat.mod_lt num hden
  unfold roundQuotient
  dsimp only
  generalize num / den = q at *
  generalize num % den = r at *
  split
  · next h =>
    have hsub : (num : ℚ) / den - ((q + 1 : Nat) : ℚ) = -((den - r : ℚ) / den) := by
      rw [hnum]
      field_simp
      push_cast
      ring
    have hr : (r : ℚ) < den := by exact_mod_cast hmod
    have hhalf : (den : ℚ) ≤ 2 * r := by exact_mod_cast (by omega : den ≤ 2 * r)
    rw [hsub, abs_neg, abs_of_nonneg (by have := sub_nonneg.2 hr.le; positivity)]
    refine ⟨by rw [div_le_div_iff₀ hden' two_pos]; linarith, fun heq => ?_⟩
    rw [div_eq_div_iff hden'.ne' two_ne_zero] at heq
    have : 2 * r = den := by
      have : (2 * r : ℚ) = den := by linarith
      exact_mod_cast this
    omega
  · next h =>
    have hsub : (num : ℚ) / den - (q : ℚ) = r / den := by
      rw [hnum]
      ring
    have hhalf : (2 * r : ℚ) ≤ den := by exact_mod_cast (by omega : 2 * r ≤ den)
    rw [hsub, abs_of_nonneg (by positivity)]
    refine ⟨by rw [div_le_div_iff₀ hden' two_pos]; linarith, fun heq => ?_⟩
    rw [div_eq_div_iff hden'.ne' two_ne_zero] at heq
    have : 2 * r = den := by
      have : (2 * r : ℚ) = den := by linarith
      exact_mod_cast this
    omega

theorem scaleTwo_pos (hden : 0 < den) (e : Int) : 0 < (scaleTwo num den e).2 := by
  unfold scaleTwo
  split
  · exact Nat.mul_pos hden (Nat.pow_pos two_pos)
  · exact hden

/-- Scaling divides by a power of two. -/
theorem scaleTwo_div (e : Int) :
    ((scaleTwo num den e).1 : ℚ) / (scaleTwo num den e).2 = num / den / 2 ^ e := by
  unfold scaleTwo
  split
  · next h =>
    obtain ⟨n, rfl⟩ := Int.eq_ofNat_of_zero_le h
    simp [div_div]
  · next h =>
    obtain ⟨n, hn⟩ := Int.eq_ofNat_of_zero_le (Int.neg_nonneg_of_nonpos (not_le.1 h).le)
    obtain rfl : e = -(n : Int) := by omega
    simp [zpow_neg]
    ring

/-- The digits of a quotient are those of its two numbers, give or take one. -/
theorem log2_bounds (hnum : 0 < num) (hden : 0 < den) :
    2 ^ 52 * (2 : ℚ) ^ ((num.log2 : Int) - den.log2 - 53) ≤ num / den ∧
      (num : ℚ) / den < 2 ^ 54 * 2 ^ ((num.log2 : Int) - den.log2 - 53) := by
  have hden' : (0 : ℚ) < den := by exact_mod_cast hden
  have hsplit : ∀ n : Nat, (2 : ℚ) ^ n * 2 ^ ((num.log2 : Int) - den.log2 - 53) * 2 ^ 53 *
      2 ^ den.log2 = 2 ^ n * 2 ^ num.log2 := by
    intro n
    rw [zpow_sub₀ two_ne_zero, zpow_sub₀ two_ne_zero]
    simp only [zpow_natCast, zpow_ofNat]
    field_simp
  have hnumLe : (2 : ℚ) ^ num.log2 ≤ num := by exact_mod_cast Nat.log2_self_le hnum.ne'
  have hnumLt : (num : ℚ) < 2 * 2 ^ num.log2 := by
    exact_mod_cast (pow_succ' 2 num.log2) ▸ (Nat.lt_log2_self (n := num))
  have hdenLe : (2 : ℚ) ^ den.log2 ≤ den := by exact_mod_cast Nat.log2_self_le hden.ne'
  have hdenLt : (den : ℚ) < 2 * 2 ^ den.log2 := by
    exact_mod_cast (pow_succ' 2 den.log2) ▸ (Nat.lt_log2_self (n := den))
  have hpos : (0 : ℚ) < 2 ^ ((num.log2 : Int) - den.log2 - 53) := by positivity
  have h0 := hsplit 0
  generalize (2 : ℚ) ^ ((num.log2 : Int) - den.log2 - 53) = low at *
  constructor
  · rw [le_div_iff₀ hden']
    nlinarith
  · rw [div_lt_iff₀ hden']
    nlinarith

/-- The exponent fits: the quotient is below 53 binary digits on its grid, and it fills them unless
the exponent is the least one. -/
theorem exponentFor_spec (hnum : 0 < num) (hden : 0 < den) :
    (num : ℚ) / den < 2 ^ 53 * 2 ^ exponentFor num den ∧ minExponent ≤ exponentFor num den ∧
      (2 ^ 52 * 2 ^ exponentFor num den ≤ (num : ℚ) / den ∨ exponentFor num den = minExponent) := by
  obtain ⟨hle, hlt⟩ := log2_bounds hnum hden
  unfold exponentFor
  dsimp only
  generalize (num.log2 : Int) - den.log2 - 53 = low at *
  have htest : (scaleTwo num den low).1 < (scaleTwo num den low).2 * Nat.pow 2 53 ↔
      (num : ℚ) / den < 2 ^ 53 * 2 ^ low := by
    have hpos : (0 : ℚ) < (scaleTwo num den low).2 := by exact_mod_cast scaleTwo_pos hden low
    rw [← div_lt_iff₀ (by positivity : (0 : ℚ) < 2 ^ low), ← scaleTwo_div, div_lt_iff₀ hpos,
      mul_comm ((2 : ℚ) ^ 53)]
    exact_mod_cast Iff.rfl
  have hfits : ∀ e : Int, (if (scaleTwo num den low).1 < (scaleTwo num den low).2 * Nat.pow 2 53
      then low else low + 1) = e →
        (num : ℚ) / den < 2 ^ 53 * 2 ^ e ∧ 2 ^ 52 * 2 ^ e ≤ (num : ℚ) / den := by
    rintro e rfl
    split
    · next h => exact ⟨htest.1 h, hle⟩
    · next h =>
      rw [htest, not_lt] at h
      rw [zpow_add_one₀ two_ne_zero]
      exact ⟨by linarith, by linarith⟩
  generalize (if (scaleTwo num den low).1 < (scaleTwo num den low).2 * Nat.pow 2 53
    then low else low + 1) = e at *
  obtain ⟨hlt, hle⟩ := hfits e rfl
  refine ⟨hlt.trans_le ?_, le_max_left _ _, ?_⟩
  · have : (2 : ℚ) ^ e ≤ 2 ^ max minExponent e :=
      zpow_le_zpow_right₀ one_le_two (le_max_right _ _)
    linarith
  · obtain h | h := le_total minExponent e
    · rw [max_eq_right h]
      exact .inl hle
    · exact .inr (max_eq_left h)

end

/-! ## The nearest number -/

/-- No other integer is nearer than one that is at most a half away, and only at a half is another
one as near. -/
theorem abs_sub_le_of_le_half {q : ℚ} {r : Nat} (h : |q - r| ≤ 1 / 2) (k : Nat) :
    |q - r| ≤ |q - k| ∧ (k ≠ r → |q - r| = |q - k| → |q - r| = 1 / 2) := by
  by_cases hk : k = r
  · exact ⟨by rw [hk], fun hne => absurd hk hne⟩
  · have hstep : (1 : ℚ) ≤ |(k : ℚ) - r| := by
      have : (1 : Int) ≤ |(k : Int) - r| := Int.one_le_abs (by omega)
      exact_mod_cast this
    have htriangle : |(k : ℚ) - r| ≤ |q - k| + |q - r| := by
      rw [abs_sub_comm q k]
      exact abs_sub_le (k : ℚ) q r
    exact ⟨by linarith, fun _ heq => by linarith⟩

/-- The point of a grid next to `v` is nearest to it among all numbers of the format, if `v` fills
53 digits on that grid or if there is no finer one. -/
theorem abs_sub_grid_le {v : ℚ} {e : Int} {r : Nat} (hr : |v / 2 ^ e - r| ≤ 1 / 2)
    (hfills : 2 ^ 52 * 2 ^ e ≤ v ∨ e = minExponent) {y : Double} (hy : y.InFormat) :
    |v - r * 2 ^ e| ≤ |v - y.magnitude| ∧ (y.magnitude ≠ r * 2 ^ e →
      |v - r * 2 ^ e| = |v - y.magnitude| → |v / 2 ^ e - r| = 1 / 2) := by
  have hpos : (0 : ℚ) < 2 ^ e := by positivity
  have hgrid : ∀ k : ℚ, |v - k * 2 ^ e| = |v / 2 ^ e - k| * 2 ^ e := by
    intro k
    rw [← abs_of_pos hpos, ← abs_mul, abs_of_pos hpos, sub_mul, div_mul_cancel₀ v hpos.ne']
  obtain he | he := le_or_gt e y.exponent
  · -- The other number lies on the grid, too.
    obtain ⟨n, hn⟩ := Int.eq_ofNat_of_zero_le (sub_nonneg.2 he)
    have hmagnitude : y.magnitude = (y.mantissa * 2 ^ n : Nat) * 2 ^ e := by
      obtain hexponent : y.exponent = n + e := by omega
      rw [magnitude, hexponent, zpow_add₀ two_ne_zero]
      push_cast
      rw [zpow_natCast]
      ring
    obtain ⟨hle, heven⟩ := abs_sub_le_of_le_half hr (y.mantissa * 2 ^ n)
    rw [hmagnitude, hgrid, hgrid]
    refine ⟨mul_le_mul_of_nonneg_right hle hpos.le, fun hne heq => heven ?_ ?_⟩
    · rintro hk
      rw [hk] at hne
      exact hne rfl
    · exact mul_right_cancel₀ hpos.ne' heq
  · -- The other number is smaller than the least one that fills 53 digits on the grid.
    have hv : 2 ^ 52 * 2 ^ e ≤ v := by
      obtain h | h := hfills
      · exact h
      · have := hy.le_exponent
        omega
    have hsmall : y.magnitude < 2 ^ 52 * 2 ^ e := by
      have hmantissa : (y.mantissa : ℚ) < 2 ^ 53 := by exact_mod_cast hy.mantissa_lt
      have hexponent : (2 : ℚ) ^ y.exponent * 2 ≤ 2 ^ e := by
        rw [← zpow_add_one₀ two_ne_zero]
        exact zpow_le_zpow_right₀ one_le_two (by omega)
      have hpos' : (0 : ℚ) < 2 ^ y.exponent := by positivity
      rw [magnitude]
      nlinarith
    have hbetween : |v - r * 2 ^ e| ≤ v - 2 ^ 52 * 2 ^ e := by
      have h := (abs_sub_le_of_le_half hr (2 ^ 52)).1
      have h' := mul_le_mul_of_nonneg_right h hpos.le
      rw [← hgrid, ← hgrid] at h'
      rwa [Nat.cast_pow, Nat.cast_ofNat, abs_of_nonneg (sub_nonneg.2 hv)] at h'
    have hfar : v - 2 ^ 52 * 2 ^ e < |v - y.magnitude| := by
      rw [abs_of_pos (by linarith)]
      linarith
    exact ⟨by linarith, fun _ heq => by linarith⟩

/-- A mantissa of 53 digits at most, or the one behind them all, is put into the format. -/
theorem normalize_spec {m : Nat} {e : Int} (h : m ≤ 2 ^ 53) :
    ((normalize m e).1 : ℚ) * 2 ^ (normalize m e).2 = m * 2 ^ e ∧ (normalize m e).1 < 2 ^ 53 ∧
      (m % 2 = 0 → (normalize m e).1 % 2 = 0) ∧
      (m < 2 ^ 53 ∧ normalize m e = (m, e) ∨
        m = 2 ^ 53 ∧ normalize m e = (2 ^ 52, e + 1)) := by
  have hpow : Nat.pow 2 53 = 2 ^ 53 := rfl
  rw [normalize, hpow]
  split
  · next hm => exact ⟨rfl, hm, id, .inl ⟨hm, rfl⟩⟩
  · next hm =>
    obtain rfl : m = 2 ^ 53 := le_antisymm h (not_lt.1 hm)
    refine ⟨?_, by norm_num, fun _ => by norm_num, .inr ⟨rfl, by norm_num⟩⟩
    rw [zpow_add_one₀ two_ne_zero]
    norm_num
    ring

/-- A rounded quotient is past the format if and only if the quotient is. -/
theorem exponent_le_iff {v : ℚ} {e : Int} {r : Nat} (hr : |v / 2 ^ e - r| ≤ 1 / 2)
    (heven : |v / 2 ^ e - r| = 1 / 2 → r % 2 = 0) (hlt : v < 2 ^ 53 * 2 ^ e) (hle : r ≤ 2 ^ 53)
    (hfills : 2 ^ 52 * 2 ^ e ≤ v ∨ e = minExponent) :
    (normalize r e).2 ≤ maxExponent ↔ v < overflow := by
  have hpos : (0 : ℚ) < 2 ^ e := by positivity
  obtain ⟨hlower, hupper⟩ := abs_le.1 hr
  obtain ⟨-, -, -, ⟨hr53, hnormal⟩ | ⟨rfl, hnormal⟩⟩ := normalize_spec (e := e) hle
  · rw [hnormal]
    constructor
    · intro he
      -- Only half a step above the greatest mantissa would be past the format, and that is odd.
      by_contra hover
      have hscale : (2 ^ 53 - 1 / 2) * 2 ^ e ≤ overflow :=
        mul_le_mul_of_nonneg_left (zpow_le_zpow_right₀ one_le_two he) (by norm_num)
      have hquotient : 2 ^ 53 - 1 / 2 ≤ v / 2 ^ e :=
        (le_div_iff₀ hpos).2 (hscale.trans (not_lt.1 hover))
      have hr' : (2 : ℚ) ^ 53 - 1 ≤ r := by linarith
      have hr'' : (2 : Int) ^ 53 - 1 ≤ r := by exact_mod_cast hr'
      obtain rfl : r = 2 ^ 53 - 1 := by omega
      have htie : |v / 2 ^ e - ((2 ^ 53 - 1 : Nat) : ℚ)| = 1 / 2 := by
        refine le_antisymm hr (le_trans ?_ (le_abs_self _))
        push_cast
        linarith
      have := heven htie
      norm_num at this
    · intro hover
      by_contra he
      obtain hv | rfl := hfills
      · have hscale : (2 : ℚ) ^ (maxExponent + 1) ≤ 2 ^ e :=
          zpow_le_zpow_right₀ one_le_two (by dsimp only at he; omega)
        rw [zpow_add_one₀ two_ne_zero] at hscale
        have hmax : (0 : ℚ) < 2 ^ maxExponent := by positivity
        rw [overflow] at hover
        linarith
      · exact he (show minExponent ≤ maxExponent by decide)
  · rw [hnormal]
    constructor
    · intro he
      have hscale : (2 : ℚ) ^ (e + 1) ≤ 2 ^ maxExponent := zpow_le_zpow_right₀ one_le_two he
      rw [zpow_add_one₀ two_ne_zero] at hscale
      have hmax : (0 : ℚ) < 2 ^ maxExponent := by positivity
      rw [overflow]
      linarith
    · intro hover
      by_contra he
      have hscale : (2 ^ 53 - 1 / 2) * 2 ^ maxExponent ≤ (2 ^ 53 - 1 / 2) * (2 : ℚ) ^ e :=
        mul_le_mul_of_nonneg_left
          (zpow_le_zpow_right₀ one_le_two (by dsimp only at he; omega)) (by norm_num)
      have hquotient : (2 ^ 53 - 1 / 2) * 2 ^ e ≤ v := by
        rw [← le_div_iff₀ hpos]
        push_cast at hlower
        linarith
      rw [overflow] at hover
      linarith

/-- **A quotient is read as the number nearest to it**, or refused from `overflow` on. -/
theorem ofRatio?_spec (negative : Bool) {num den : Nat} (hnum : 0 < num) (hden : 0 < den) :
    ((num : ℚ) / den < overflow → ∃ x, ofRatio? negative num den = some x ∧
      x.negative = negative ∧ IsNearest (num / den) x) ∧
    (overflow ≤ (num : ℚ) / den → ofRatio? negative num den = none) := by
  obtain ⟨hlt, hmin, hfills⟩ := exponentFor_spec hnum hden
  have hscaled : 0 < (scaleTwo num den (exponentFor num den)).2 := scaleTwo_pos hden _
  have hround := @abs_sub_roundQuotient (scaleTwo num den (exponentFor num den)).1 _ hscaled
  rw [scaleTwo_div] at hround
  simp only [ofRatio?]
  generalize (num : ℚ) / den = v at *
  generalize exponentFor num den = e at *
  generalize roundQuotient _ _ = r at *
  obtain ⟨hhalf, heven⟩ := hround
  obtain ⟨hlower, hupper⟩ := abs_le.1 hhalf
  have hpos : (0 : ℚ) < 2 ^ e := by positivity
  have hle : r ≤ 2 ^ 53 := by
    have hdiv : v / 2 ^ e < 2 ^ 53 := (div_lt_iff₀ hpos).2 hlt
    have : (r : ℚ) < 2 ^ 53 + 1 := by linarith
    have : r < 2 ^ 53 + 1 := by exact_mod_cast this
    omega
  have hexponent := exponent_le_iff hhalf heven hlt hle hfills
  obtain ⟨hvalue, hmantissa, hparity, hcases⟩ := normalize_spec (e := e) hle
  generalize normalize r e = n at *
  obtain ⟨m, e'⟩ := n
  dsimp only at *
  constructor
  · intro hover
    have he := hexponent.2 hover
    have hmagnitude : (Double.mk negative m e').magnitude = r * 2 ^ e := hvalue
    refine ⟨⟨negative, m, e'⟩, if_pos he, rfl, ⟨hmantissa, ?_, he, ?_⟩, fun y hy => ?_,
      fun y hy hne heq => ?_⟩
    · obtain ⟨-, h⟩ | ⟨-, h⟩ := hcases <;> cases h <;> dsimp only <;> omega
    · obtain ⟨-, h⟩ | ⟨-, h⟩ := hcases
      · cases h
        refine hfills.imp_left fun hv => ?_
        have hdiv : 2 ^ 52 ≤ v / 2 ^ e := (le_div_iff₀ hpos).2 hv
        have : (2 : ℚ) ^ 52 < r + 1 := by linarith
        have : 2 ^ 52 < r + 1 := by exact_mod_cast this
        exact Nat.le_of_lt_succ this
      · cases h
        exact .inl le_rfl
    · rw [hmagnitude]
      exact (abs_sub_grid_le hhalf hfills hy).1
    · rw [hmagnitude] at hne heq
      exact hparity (heven ((abs_sub_grid_le hhalf hfills hy).2 hne heq))
  · intro hover
    exact if_neg fun he => absurd (hexponent.1 he) (not_lt.2 hover)

/-! ## Decimals -/

/-- What is at most half of the least positive number is nearest to zero. -/
theorem isNearest_zero {v : ℚ} (negative : Bool) (hv : 0 ≤ v) (h : 2 * v ≤ 2 ^ minExponent) :
    IsNearest v (zero negative) := by
  have hzero : (zero negative).magnitude = 0 := by simp [magnitude, zero]
  refine ⟨⟨by norm_num [zero], le_rfl, show minExponent ≤ maxExponent by decide, .inr rfl⟩, fun y hy => ?_, fun _ _ _ _ => rfl⟩
  rw [hzero, sub_zero, abs_of_nonneg hv]
  obtain hy0 | hy0 := Nat.eq_zero_or_pos y.mantissa
  · rw [magnitude, hy0, Nat.cast_zero, zero_mul, sub_zero, abs_of_nonneg hv]
  · have hone : (1 : ℚ) ≤ y.mantissa := by exact_mod_cast hy0
    have hleast : (2 : ℚ) ^ minExponent ≤ y.magnitude := by
      have hpow : (2 : ℚ) ^ minExponent ≤ 2 ^ y.exponent :=
        zpow_le_zpow_right₀ one_le_two hy.le_exponent
      have hpos : (0 : ℚ) < 2 ^ y.exponent := by positivity
      rw [magnitude]
      nlinarith
    rw [abs_sub_comm]
    exact le_trans (by linarith) (le_abs_self _)

/-- The digits of a number tell its size. -/
theorem digitCount_spec {n : Nat} (h : 0 < n) :
    (10 : ℚ) ^ ((digitCount n : Int) - 1) ≤ n ∧ (n : ℚ) < 10 ^ (digitCount n : Int) := by
  have hle : ∀ {k : Nat}, 0 < k → (digitCount n ≤ k ↔ n < 10 ^ k) := fun hk =>
    Nat.length_toDigits_le_iff (by decide) hk
  obtain ⟨k, hk⟩ : ∃ k, digitCount n = k + 1 := by
    refine Nat.exists_eq_succ_of_ne_zero fun h0 => ?_
    have := (hle one_pos).1 (by omega)
    rw [digitCount, Nat.toDigits_of_lt_base (by omega)] at h0
    cases h0
  have hlt : n < 10 ^ (k + 1) := (hle (Nat.succ_pos k)).1 hk.le
  have hge : 10 ^ k ≤ n := by
    obtain rfl | hk0 := Nat.eq_zero_or_pos k
    · exact h
    · rw [← not_lt, ← hle hk0]
      omega
  rw [hk]
  push_cast
  rw [add_sub_cancel_right, zpow_natCast, zpow_add_one₀ (by norm_num), zpow_natCast, ← pow_succ]
  exact ⟨by exact_mod_cast hge, by exact_mod_cast hlt⟩

/-- Where decimals need not be expanded: from `10 ^ 310` on they are past the format, and up to
`10 ^ (-331)` they are nearest to zero. -/
theorem overflow_bounds :
    1 < overflow ∧ overflow ≤ 10 ^ (310 : Int) ∧ 2 * (10 : ℚ) ^ (-331 : Int) ≤ 2 ^ minExponent := by
  have hmax : (2 : ℚ) ^ maxExponent = 2 ^ 971 := by rw [maxExponent]; exact zpow_natCast 2 971
  have hmin : (2 : ℚ) ^ minExponent = (2 ^ 1074)⁻¹ := by
    rw [minExponent, zpow_neg]
    exact congrArg _ (zpow_natCast 2 1074)
  have hten : (10 : ℚ) ^ (310 : Int) = 10 ^ 310 := zpow_natCast 10 310
  have hten' : (10 : ℚ) ^ (-331 : Int) = (10 ^ 331)⁻¹ := by
    rw [zpow_neg]
    exact congrArg _ (zpow_natCast 10 331)
  have hlarge : (2 : ℚ) ^ 53 * 2 ^ 971 ≤ 10 ^ 310 := by
    have h : 2 ^ 53 * 2 ^ 971 ≤ 10 ^ 310 := by decide +kernel
    exact_mod_cast h
  have hsmall : (2 : ℚ) * 2 ^ 1074 ≤ 10 ^ 331 := by
    have h : 2 * 2 ^ 1074 ≤ 10 ^ 331 := by decide +kernel
    exact_mod_cast h
  have hone : (1 : ℚ) ≤ 2 ^ 971 := one_le_pow₀ one_le_two
  rw [overflow, hmax, hmin, hten, hten', ← div_eq_mul_inv, ← one_div,
    div_le_div_iff₀ (by positivity) (by positivity)]
  generalize (2 : ℚ) ^ 971 = a at *
  generalize (10 : ℚ) ^ 310 = b at *
  exact ⟨by linarith, by linarith, by rwa [one_mul]⟩

/-- **A decimal is read as the number nearest to it**, or refused from `overflow` on. -/
theorem ofDecimal?_spec (negative : Bool) (digits : Nat) (exponent : Int) :
    ((digits : ℚ) * 10 ^ exponent < overflow → ∃ x, ofDecimal? negative digits exponent = some x ∧
      x.negative = negative ∧ IsNearest (digits * 10 ^ exponent) x) ∧
    (overflow ≤ (digits : ℚ) * 10 ^ exponent → ofDecimal? negative digits exponent = none) := by
  obtain ⟨hover, hmax, hmin⟩ := overflow_bounds
  unfold ofDecimal?
  split
  · next hdigits =>
    rw [hdigits, Nat.cast_zero, zero_mul]
    have hpos : (0 : ℚ) < 2 ^ minExponent := by positivity
    refine ⟨fun _ => ⟨_, rfl, rfl, isNearest_zero negative le_rfl (by linarith)⟩, fun h => ?_⟩
    linarith
  · next hdigits =>
    obtain ⟨hlow, hhigh⟩ := digitCount_spec (Nat.pos_of_ne_zero hdigits)
    have hpos : (0 : ℚ) < 10 ^ exponent := by positivity
    have hmul : ∀ k : Int, (10 : ℚ) ^ k * 10 ^ exponent = 10 ^ (k + exponent) := fun k =>
      (zpow_add₀ (by norm_num) k exponent).symm
    have hlow' := mul_le_mul_of_nonneg_right hlow hpos.le
    have hhigh' := mul_lt_mul_of_pos_right hhigh hpos
    rw [hmul] at hlow' hhigh'
    dsimp only
    split
    · next hlarge =>
      have hpow : (10 : ℚ) ^ (310 : Int) ≤ 10 ^ ((digitCount digits : Int) - 1 + exponent) :=
        zpow_le_zpow_right₀ (by norm_num) (by omega)
      refine ⟨fun h => ?_, fun _ => rfl⟩
      linarith
    · split
      · next hsmall =>
        have hpow : (10 : ℚ) ^ ((digitCount digits : Int) + exponent) ≤ 10 ^ (-331 : Int) :=
          zpow_le_zpow_right₀ (by norm_num) (by omega)
        have hone : (10 : ℚ) ^ (-331 : Int) ≤ 10 ^ (0 : Int) :=
          zpow_le_zpow_right₀ (by norm_num) (by norm_num)
        rw [zpow_zero] at hone
        refine ⟨fun _ => ⟨_, rfl, rfl, isNearest_zero negative (by positivity) (by linarith)⟩,
          fun h => ?_⟩
        linarith
      · split
        · next hnonneg =>
          obtain ⟨n, rfl⟩ := Int.eq_ofNat_of_zero_le hnonneg
          have hnum : 0 < digits * 10 ^ n :=
            Nat.mul_pos (Nat.pos_of_ne_zero hdigits) (Nat.pow_pos (by norm_num))
          have h := ofRatio?_spec negative hnum one_pos
          rwa [Nat.cast_one, div_one, Nat.cast_mul, Nat.cast_pow, Nat.cast_ofNat] at h
        · next hneg =>
          obtain ⟨n, hn⟩ := Int.eq_ofNat_of_zero_le (Int.neg_nonneg_of_nonpos (not_le.1 hneg).le)
          obtain rfl : exponent = -(n : Int) := by omega
          have hden : 0 < 10 ^ n := Nat.pow_pos (by norm_num)
          have h := ofRatio?_spec negative (Nat.pos_of_ne_zero hdigits) hden
          rw [Nat.cast_pow, Nat.cast_ofNat, div_eq_mul_inv, ← zpow_natCast, ← zpow_neg] at h
          simpa using h

end TestScript.Number.Double
