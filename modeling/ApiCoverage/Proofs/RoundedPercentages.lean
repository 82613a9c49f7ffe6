/-
Percentages in double precision.

Every step of the computation rounds a rational number to the nearest one with 53 significant
bits (`value_round53`), so the percentage depends on the share of documented symbols
only, and not on how it is written as a fraction. Rounding twice moves the percentage by less than
`2 ^ -44` (`abs_percent53_sub_lt`). One with a denominator below `2 ^ 32` is further than that from
every half percent, unless it is one. What is left are the hundred half percents themselves, and of these
four fall on the wrong side.
-/
import ApiCoverage.Coverage.Stats
import Mathlib.Algebra.Order.Floor.Semifield
import Mathlib.Data.Int.Log
import Mathlib.Data.Rat.Floor
import Mathlib.Tactic.FieldSimp
import Mathlib.Tactic.Linarith
import Mathlib.Tactic.NormNum
import Mathlib.Tactic.Positivity

namespace ApiCoverage

namespace Rounding

/-! ## Rounding a rational number -/

/-- The whole number nearest to a number, the even one of two. -/
def nearestEven (q : ℚ) : ℕ :=
  if q - ⌊q⌋₊ < 1 / 2 then ⌊q⌋₊
  else if 1 / 2 < q - ⌊q⌋₊ then ⌊q⌋₊ + 1
  else ⌊q⌋₊ + ⌊q⌋₊ % 2

/-- The distance between neighbours among the numbers with 53 significant bits. -/
def spacing (q : ℚ) : ℚ := 2 ^ (Int.log 2 q - 52)

/-- The nearest number with 53 significant bits, the one with the even significand of two. -/
def nearest53 (q : ℚ) : ℚ := nearestEven (q / spacing q) * spacing q

theorem abs_nearestEven_sub_le {q : ℚ} (h : 0 ≤ q) : |(nearestEven q : ℚ) - q| ≤ 1 / 2 := by
  have hlow : (⌊q⌋₊ : ℚ) ≤ q := Nat.floor_le h
  have hhigh : q < ⌊q⌋₊ + 1 := Nat.lt_floor_add_one q
  have hparity : ((⌊q⌋₊ % 2 : ℕ) : ℚ) ≤ 1 := by exact_mod_cast Nat.le_of_lt_succ (Nat.mod_lt _ two_pos)
  have hparity0 : (0 : ℚ) ≤ ((⌊q⌋₊ % 2 : ℕ) : ℚ) := Nat.cast_nonneg _
  unfold nearestEven
  split_ifs <;> rw [abs_le] <;> push_cast at * <;> constructor <;> linarith

theorem nearestEven_natCast (n : ℕ) : nearestEven n = n := by
  simp [nearestEven]

theorem spacing_pos (q : ℚ) : 0 < spacing q := zpow_pos two_pos _

theorem spacing_le {q : ℚ} (h : 0 < q) : spacing q ≤ q / 2 ^ 52 := by
  have hlog : (2 : ℚ) ^ Int.log 2 q ≤ q := by exact_mod_cast Int.zpow_log_le_self Nat.one_lt_two h
  rw [spacing, zpow_sub₀ two_ne_zero]
  exact div_le_div_of_nonneg_right hlog (by positivity)

theorem nearest53_natCast {n : ℕ} (h : n < 2 ^ 53) : nearest53 n = n := by
  have hlog : Nat.log 2 n ≤ 52 := Nat.le_of_lt_succ (Nat.log_lt_of_lt_pow' (by decide) h)
  have hscaled : (n : ℚ) / spacing n = ((n * 2 ^ (52 - Nat.log 2 n) : ℕ) : ℚ) := by
    have hexponent : (52 : ℤ) - Nat.log 2 n = (52 - Nat.log 2 n : ℕ) := by omega
    rw [spacing, Int.log_natCast, div_eq_mul_inv, ← zpow_neg, neg_sub, hexponent, zpow_natCast]
    push_cast
    rfl
  rw [nearest53, hscaled, nearestEven_natCast, ← hscaled, div_mul_cancel₀ _ (spacing_pos _).ne']

theorem nearest53_zero : nearest53 0 = 0 := by exact_mod_cast nearest53_natCast (n := 0) (by decide)

/-- Rounding changes a number by at most one part in `2 ^ 53`. -/
theorem abs_nearest53_sub_le {q : ℚ} (h : 0 ≤ q) : |nearest53 q - q| ≤ q / 2 ^ 53 := by
  rcases h.eq_or_lt with rfl | hpos
  · simp [nearest53_zero]
  have hspacing := spacing_pos q
  have herror := abs_nearestEven_sub_le (div_nonneg h hspacing.le)
  calc |nearest53 q - q| = |(nearestEven (q / spacing q) : ℚ) - q / spacing q| * spacing q := by
        rw [← abs_of_pos hspacing, ← abs_mul, abs_of_pos hspacing, sub_mul, div_mul_cancel₀ q hspacing.ne', nearest53]
    _ ≤ 1 / 2 * (q / 2 ^ 52) := mul_le_mul herror (spacing_le hpos) hspacing.le (by norm_num)
    _ = q / 2 ^ 53 := by ring

theorem nearest53_nonneg (q : ℚ) : 0 ≤ nearest53 q := mul_nonneg (Nat.cast_nonneg _) (spacing_pos q).le

/-! ## Rounding fractions -/

/-- The number that a fraction stands for. -/
def Ratio.value (x : Ratio) : ℚ := x.num / x.den

theorem natCast_div_eq (num : ℕ) {den : ℕ} (hden : 0 < den) :
    (num : ℚ) / den = (num / den : ℕ) + (num % den : ℕ) / den := by
  have hne : (den : ℚ) ≠ 0 := Nat.cast_ne_zero.2 (Nat.ne_of_gt hden)
  have hnum : (num : ℚ) = den * (num / den : ℕ) + (num % den : ℕ) := by
    exact_mod_cast (Nat.div_add_mod num den).symm
  rw [← mul_div_cancel_left₀ ((num / den : ℕ) : ℚ) hne, ← add_div, ← hnum]

theorem divEven_eq (num : ℕ) {den : ℕ} (hden : 0 < den) : divEven num den = nearestEven (num / den) := by
  have hpos : (0 : ℚ) < den := Nat.cast_pos.2 hden
  have hrest : (num : ℚ) / den - (num / den : ℕ) = (num % den : ℕ) / den :=
    sub_eq_of_eq_add' (natCast_div_eq num hden)
  have hbelow : ((num % den : ℕ) : ℚ) / den < 1 / 2 ↔ 2 * (num % den) < den := by
    rw [div_lt_div_iff₀ hpos two_pos, one_mul, mul_comm]
    exact_mod_cast Iff.rfl
  have habove : 1 / 2 < ((num % den : ℕ) : ℚ) / den ↔ den < 2 * (num % den) := by
    rw [div_lt_div_iff₀ two_pos hpos, one_mul, mul_comm _ (2 : ℚ)]
    exact_mod_cast Iff.rfl
  simp only [divEven, nearestEven, Nat.floor_div_eq_div, hrest, hbelow, habove]

theorem log_div_eq (num : ℕ) {den : ℕ} (hden : 0 < den) (scale : ℕ) (h : num * 2 ^ scale / den ≠ 0) :
    Int.log 2 ((num : ℚ) / den) = ((num * 2 ^ scale / den).log2 : ℤ) - scale := by
  have hlow : 2 ^ (num * 2 ^ scale / den).log2 * den ≤ num * 2 ^ scale :=
    (Nat.le_div_iff_mul_le hden).1 (Nat.log2_self_le h)
  have hhigh : num * 2 ^ scale < 2 ^ ((num * 2 ^ scale / den).log2 + 1) * den :=
    (Nat.div_lt_iff_lt_mul hden).1 Nat.lt_log2_self
  generalize (num * 2 ^ scale / den).log2 = exponent at *
  have hdenq : (0 : ℚ) < den := Nat.cast_pos.2 hden
  have hscale : (0 : ℚ) < 2 ^ scale := by positivity
  have hlowq : (2 : ℚ) ^ exponent * den ≤ num * 2 ^ scale := by exact_mod_cast hlow
  have hhighq : (num : ℚ) * 2 ^ scale < 2 ^ (exponent + 1) * den := by exact_mod_cast hhigh
  have hle : (2 : ℚ) ^ ((exponent : ℤ) - scale) ≤ num / den := by
    rw [zpow_sub₀ two_ne_zero, zpow_natCast, zpow_natCast, div_le_div_iff₀ hscale hdenq]
    exact hlowq
  have hlt : (num : ℚ) / den < 2 ^ ((exponent : ℤ) - scale + 1) := by
    rw [sub_add_eq_add_sub, zpow_sub₀ two_ne_zero, zpow_natCast, div_lt_div_iff₀ hdenq hscale]
    exact_mod_cast hhighq
  have hpos : (0 : ℚ) < num / den := lt_of_lt_of_le (zpow_pos two_pos _) hle
  have hlower : (exponent : ℤ) - scale ≤ Int.log 2 ((num : ℚ) / den) :=
    (Int.zpow_le_iff_le_log Nat.one_lt_two hpos).1 (by rwa [Nat.cast_ofNat])
  have hupper : Int.log 2 ((num : ℚ) / den) < (exponent : ℤ) - scale + 1 :=
    (Int.lt_zpow_iff_log_lt Nat.one_lt_two hpos).1 (by rwa [Nat.cast_ofNat])
  exact le_antisymm (Int.le_of_lt_add_one hupper) hlower

theorem le_scaled {num den : ℕ} (hnum : 0 < num) (hden : 0 < den) : 2 ^ 52 ≤ num * 2 ^ (den.log2 + 53) / den := by
  rw [Nat.le_div_iff_mul_le hden]
  calc 2 ^ 52 * den ≤ 2 ^ 52 * 2 ^ (den.log2 + 1) := Nat.mul_le_mul_left _ Nat.lt_log2_self.le
    _ = 1 * 2 ^ (den.log2 + 53) := by rw [← Nat.pow_add, Nat.one_mul, Nat.add_left_comm]
    _ ≤ num * 2 ^ (den.log2 + 53) := Nat.mul_le_mul_right _ hnum

theorem spacing_eq {q : ℚ} {exponent scale : ℕ} (hlog : Int.log 2 q = (exponent : ℤ) - scale) (h : 52 ≤ exponent) :
    spacing q = (2 ^ (exponent - 52) : ℕ) / (2 ^ scale : ℕ) := by
  have hexponent : Int.log 2 q - 52 = ((exponent - 52 : ℕ) : ℤ) - scale := by omega
  rw [spacing, hexponent, zpow_sub₀ two_ne_zero, zpow_natCast, zpow_natCast]
  push_cast
  rfl

/-- **Rounding a fraction rounds the number it stands for.** -/
theorem value_round53 {x : Ratio} (h : 0 < x.den) : (round53 x).value = nearest53 x.value := by
  obtain ⟨num, den⟩ := x
  rcases Nat.eq_zero_or_pos num with rfl | hnum
  · have hdiv : ∀ den, divEven 0 den = 0 := by simp [divEven]
    simp only [round53, Ratio.value, Nat.zero_mul, hdiv, Nat.cast_zero, zero_div, nearest53_zero]
  have hbits := le_scaled hnum h
  have hne : num * 2 ^ (den.log2 + 53) / den ≠ 0 := (Nat.lt_of_lt_of_le (by decide) hbits).ne'
  have hlog := log_div_eq num h (den.log2 + 53) hne
  have hexponent : 52 ≤ (num * 2 ^ (den.log2 + 53) / den).log2 := (Nat.le_log2 hne).2 hbits
  simp only [round53, Ratio.value, Nat.pow_eq]
  -- The scale depends on how the fraction is written. It enters only through the exponent it gives.
  generalize (num * 2 ^ (den.log2 + 53) / den).log2 = exponent at *
  generalize den.log2 + 53 = scale at *
  have hdenq : (den : ℚ) ≠ 0 := Nat.cast_ne_zero.2 (Nat.ne_of_gt h)
  have hspacing := spacing_eq hlog hexponent
  have hscaled : (num : ℚ) / den / spacing (num / den) =
      ((num * 2 ^ scale : ℕ) : ℚ) / ((den * 2 ^ (exponent - 52) : ℕ) : ℚ) := by
    rw [hspacing]
    push_cast
    field_simp
  rw [nearest53, hscaled, ← divEven_eq _ (Nat.mul_pos h (Nat.two_pow_pos _)), hspacing]
  push_cast
  ring

theorem den_round53_pos (x : Ratio) : 0 < (round53 x).den := Nat.two_pow_pos _

theorem value_ofNat {n : ℕ} (h : n < 2 ^ 53) : (ofNat n).value = n := by
  rw [ofNat, value_round53 Nat.one_pos, Ratio.value, Nat.cast_one, div_one, nearest53_natCast h]

theorem value_div {x y : Ratio} (hx : 0 < x.den) (hne : y.value ≠ 0) :
    (div x y).value = nearest53 (x.value / y.value) := by
  have hnum : 0 < y.num := by
    rw [Nat.pos_iff_ne_zero]
    intro hzero
    simp [Ratio.value, hzero] at hne
  rw [div, value_round53 (Nat.mul_pos hx hnum)]
  congr 1
  simp only [Ratio.value]
  push_cast
  rw [div_div_div_eq]

theorem value_mul {x y : Ratio} (hx : 0 < x.den) (hy : 0 < y.den) :
    (mul x y).value = nearest53 (x.value * y.value) := by
  rw [mul, value_round53 (Nat.mul_pos hx hy)]
  congr 1
  simp only [Ratio.value]
  push_cast
  rw [div_mul_div_comm]

theorem toNearest_eq {x : Ratio} (h : 0 < x.den) : toNearest x = ⌊x.value + 1 / 2⌋₊ := by
  have hden : (x.den : ℚ) ≠ 0 := Nat.cast_ne_zero.2 (Nat.ne_of_gt h)
  have hvalue : x.value + 1 / 2 = ((2 * x.num + x.den : ℕ) : ℚ) / ((2 * x.den : ℕ) : ℚ) := by
    rw [Ratio.value]
    push_cast
    field_simp
  rw [hvalue, Nat.floor_div_eq_div, toNearest]

/-! ## Percentages -/

/-- A share in percent, as it is computed: both the share and its product with 100 are rounded. -/
def percent53 (q : ℚ) : ℚ := nearest53 (nearest53 q * 100)

/-- Rounding twice moves a percentage by very little. -/
theorem abs_percent53_sub_lt {q : ℚ} (h : 0 ≤ q) (hle : q ≤ 1) : |percent53 q - 100 * q| < 1 / 2 ^ 44 := by
  have hshare := abs_le.1 (abs_nearest53_sub_le h)
  have hproduct := abs_le.1 (abs_nearest53_sub_le (mul_nonneg (nearest53_nonneg q) (by norm_num : (0 : ℚ) ≤ 100)))
  rw [percent53, abs_lt]
  constructor <;> linarith

/-- A number that is close enough to a fraction has the same whole part, if the fraction is not whole. -/
theorem floor_eq_div {num den : ℕ} {q : ℚ} (h : ¬ den ∣ num) (hq : |q - num / den| < 1 / den) : ⌊q⌋₊ = num / den := by
  have hden : 0 < den := by
    rw [Nat.pos_iff_ne_zero]
    rintro rfl
    rw [Nat.cast_zero, div_zero, div_zero] at hq
    exact absurd hq (not_lt.2 (abs_nonneg _))
  have hdenq : (0 : ℚ) < den := Nat.cast_pos.2 hden
  have hrest : 1 ≤ num % den := Nat.one_le_iff_ne_zero.2 fun hzero => h (Nat.dvd_of_mod_eq_zero hzero)
  have hsplit := natCast_div_eq num hden
  have hlow : (1 : ℚ) / den ≤ (num % den : ℕ) / den := by
    have hrestq : (1 : ℚ) ≤ (num % den : ℕ) := by exact_mod_cast hrest
    gcongr
  have hhigh : ((num % den : ℕ) : ℚ) / den + 1 / den ≤ 1 := by
    rw [← add_div, div_le_one hdenq]
    exact_mod_cast Nat.mod_lt num hden
  obtain ⟨hleft, hright⟩ := abs_lt.1 hq
  have hbelow : ((num / den : ℕ) : ℚ) ≤ q := by linarith
  rw [Nat.floor_eq_iff ((Nat.cast_nonneg _).trans hbelow)]
  exact ⟨hbelow, by linarith⟩

end Rounding

open Rounding

variable {documented total : Nat}

/-- A percentage is computed from the share alone. -/
theorem coveragePercentage_eq_floor (hlt : documented < total) (hbound : total < 2 ^ 53) :
    coveragePercentage documented total = min ⌊percent53 (documented / total) + 1 / 2⌋₊ 99 := by
  have hincomplete : ¬ (total = 0 ∨ total ≤ documented) := by omega
  have htotal : (Rounding.ofNat total).value = total := value_ofNat hbound
  have hne : (Rounding.ofNat total).value ≠ 0 := by
    rw [htotal]
    exact Nat.cast_ne_zero.2 (Nat.ne_of_gt (Nat.zero_lt_of_lt hlt))
  have hshare : (Rounding.div (Rounding.ofNat documented) (Rounding.ofNat total)).value =
      nearest53 (documented / total) := by
    rw [value_div (x := Rounding.ofNat documented) (den_round53_pos _) hne, htotal, value_ofNat (hlt.trans hbound)]
  simp only [coveragePercentage, if_neg hincomplete]
  rw [toNearest_eq (x := Rounding.mul _ _) (den_round53_pos _),
    value_mul (x := Rounding.div _ _) (y := Rounding.ofNat _) (den_round53_pos _) (den_round53_pos _),
    hshare, value_ofNat (by decide), percent53, Nat.cast_ofNat]

theorem coveragePercentage_congr {documented' total' : Nat} (hlt : documented < total) (hbound : total < 2 ^ 53)
    (hlt' : documented' < total') (hbound' : total' < 2 ^ 53) (h : documented * total' = documented' * total) :
    coveragePercentage documented total = coveragePercentage documented' total' := by
  have hshare : (documented : ℚ) / total = documented' / total' := by
    rw [div_eq_div_iff (Nat.cast_ne_zero.2 (by omega)) (Nat.cast_ne_zero.2 (by omega))]
    exact_mod_cast h
  rw [coveragePercentage_eq_floor hlt hbound, coveragePercentage_eq_floor hlt' hbound', hshare]

/-- A hundred times the share to the nearest whole number, upwards from a half. -/
def nearestPercentage (documented total : Nat) : Nat := (200 * documented + total) / (2 * total)

/-- The shares, in two hundredths, that are half a percent above a whole one and are computed as less. -/
def missedShares : List Nat := [29, 57, 113, 115]

/-- Where the percentage is not half a percent above a whole one, it is rounded to the nearest. -/
theorem coveragePercentage_of_not_dvd (hlt : documented < total) (hbound : total < 2 ^ 32)
    (h : ¬ 2 * total ∣ 200 * documented + total) :
    coveragePercentage documented total = min (nearestPercentage documented total) 99 := by
  have htotal : (0 : ℚ) < total := Nat.cast_pos.2 (Nat.zero_lt_of_lt hlt)
  have hboundq : (total : ℚ) < 2 ^ 32 := by exact_mod_cast hbound
  have hle : (documented : ℚ) / total ≤ 1 := (div_le_one htotal).2 (by exact_mod_cast hlt.le)
  have hexact : ((200 * documented + total : ℕ) : ℚ) / ((2 * total : ℕ) : ℚ) = 100 * (documented / total) + 1 / 2 := by
    push_cast
    field_simp
    ring
  have herror : |percent53 (documented / total) + 1 / 2 -
      ((200 * documented + total : ℕ) : ℚ) / ((2 * total : ℕ) : ℚ)| < 1 / ((2 * total : ℕ) : ℚ) := by
    -- This leaves room: counts up to `2 ^ 43` would do.
    rw [hexact, add_sub_add_right_eq_sub]
    refine (abs_percent53_sub_lt (by positivity) hle).trans ?_
    push_cast
    gcongr
    linarith
  rw [coveragePercentage_eq_floor hlt (hbound.trans (by decide)), floor_eq_div h herror, nearestPercentage]

theorem coveragePercentage_twoHundredths : ∀ n < 100, coveragePercentage (2 * n + 1) 200 =
    if 2 * n + 1 ∈ missedShares then n else min (n + 1) 99 := by
  decide +kernel

theorem nearestPercentage_of_half {n : Nat} (htotal : 0 < total) (h : 200 * documented = (2 * n + 1) * total) :
    nearestPercentage documented total = n + 1 := by
  have hsum : 200 * documented + total = (n + 1) * (2 * total) := by
    rw [h]
    ring
  rw [nearestPercentage, hsum, Nat.mul_div_cancel _ (Nat.mul_pos two_pos htotal)]

theorem coveragePercentage_of_half {n : Nat} (hlt : documented < total) (hbound : total < 2 ^ 32)
    (h : 200 * documented = (2 * n + 1) * total) : coveragePercentage documented total =
      if 2 * n + 1 ∈ missedShares then n else min (n + 1) 99 := by
  have hn : 2 * n + 1 < 200 := by
    refine Nat.lt_of_mul_lt_mul_right (a := total) ?_
    rw [← h]
    exact Nat.mul_lt_mul_of_pos_left hlt (by decide)
  have hcongr := coveragePercentage_congr hlt (hbound.trans (by decide)) hn (by decide) ((Nat.mul_comm _ _).trans h)
  rw [hcongr, coveragePercentage_twoHundredths n (by omega)]

/-- **A percentage is rounded to the nearest whole one, but for four shares.** For fewer than `2 ^ 32`
symbols, some of them without documentation, the percentage is the nearest whole number, upwards from a
half and at most 99, exactly if the share is not one of 29, 57, 113 and 115 two hundredths. For each of
these the exact percentage is half above a whole one, and it is rounded down. -/
theorem coveragePercentage_eq_nearest_iff (hlt : documented < total) (hbound : total < 2 ^ 32) :
    (coveragePercentage documented total = min (nearestPercentage documented total) 99 ↔
      ∀ share ∈ missedShares, 200 * documented ≠ share * total) ∧
    ∀ share ∈ missedShares, 200 * documented = share * total →
      coveragePercentage documented total + 1 = nearestPercentage documented total := by
  have htotal := Nat.zero_lt_of_lt hlt
  have hodd : ∀ share ∈ missedShares, share = 2 * (share / 2) + 1 ∧ share / 2 + 1 ≤ 99 := by decide
  have hmissed : ∀ share ∈ missedShares, 200 * documented = share * total →
      coveragePercentage documented total + 1 = nearestPercentage documented total ∧
        nearestPercentage documented total ≤ 99 := by
    intro share hm h
    obtain ⟨hshare, hle⟩ := hodd share hm
    rw [hshare] at hm h
    rw [coveragePercentage_of_half hlt hbound h, if_pos hm, nearestPercentage_of_half htotal h]
    exact ⟨rfl, hle⟩
  refine ⟨⟨fun heq share hm h => ?_, fun hnone => ?_⟩, fun share hm h => (hmissed share hm h).1⟩
  · obtain ⟨hless, hle⟩ := hmissed share hm h
    omega
  · by_cases hdvd : 2 * total ∣ 200 * documented + total
    · -- Half a percent above a whole one: a share in two hundredths, whatever the counts.
      obtain ⟨n, hn⟩ := hdvd
      cases n with
      | zero => omega
      | succ n =>
        have h : 200 * documented = (2 * n + 1) * total := by
          refine Nat.add_right_cancel (m := total) (hn.trans ?_)
          ring
        rw [coveragePercentage_of_half hlt hbound h, nearestPercentage_of_half htotal h,
          if_neg fun hm => hnone _ hm h]
    · exact coveragePercentage_of_not_dvd hlt hbound hdvd

/-- One symbol of four billion tips the percentage over a half that is missed. -/
theorem coveragePercentage_eq_nearest_fourBillion :
    coveragePercentage 2300000001 4000000000 = min (nearestPercentage 2300000001 4000000000) 99 ∧
      coveragePercentage 2300000000 4000000000 + 1 = nearestPercentage 2300000000 4000000000 :=
  ⟨(coveragePercentage_eq_nearest_iff (by decide) (by decide)).1.2 (by decide),
    (coveragePercentage_eq_nearest_iff (by decide) (by decide)).2 115 (by decide) (by decide)⟩

/-- Of two hundred symbols, 29 are 14.5 percent. -/
theorem coveragePercentage_ne_nearest :
    coveragePercentage 29 200 = 14 ∧ min (nearestPercentage 29 200) 99 = 15 := by
  decide +kernel

end ApiCoverage
