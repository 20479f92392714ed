import GraphQLDoc.Number.Shortest
import GraphQLDoc.Proofs.Number.Rounding

/-!
The shortest decimal reads back. Which number a decimal is read as depends on its value only: the
values of an interval around a number are read as that number. The decimal that is printed has its
value in this interval, since on the grid of seventeen digits one of the two neighbours lies in it.
-/
namespace GraphQLDoc

namespace Decimal

/-- The value that a decimal stands for. -/
def toRat (d : Decimal) : ℚ := d.digits * 10 ^ d.exponent

theorem ratio_spec (d : Decimal) : 0 < d.ratio.2 ∧ (d.ratio.1 : ℚ) / d.ratio.2 = d.toRat := by
  obtain ⟨digits, exponent⟩ := d
  unfold ratio toRat
  dsimp only
  split
  · rename_i he
    obtain ⟨n, rfl⟩ := Int.eq_ofNat_of_zero_le he
    refine ⟨one_pos, ?_⟩
    simp [zpow_natCast]
  · rename_i he
    obtain ⟨n, hn⟩ := Int.eq_ofNat_of_zero_le (show 0 ≤ -exponent by omega)
    obtain rfl : exponent = -n := by omega
    refine ⟨Nat.pow_pos (by decide), ?_⟩
    simp [zpow_neg, zpow_natCast, div_eq_mul_inv]

/-- Zeros move between the digits and the exponent without changing the value. -/
theorem toRat_strip (n : Nat) (d : Decimal) : (strip n d).toRat = d.toRat := by
  induction n generalizing d with
  | zero => rfl
  | succ n ih =>
    unfold strip
    split
    · rename_i h
      obtain ⟨k, hk⟩ := Nat.dvd_of_mod_eq_zero h.2
      rw [ih]
      simp only [toRat, hk, Nat.mul_div_cancel_left k (show 0 < 10 by decide)]
      rw [zpow_add_one₀ (by norm_num)]
      push_cast
      ring
    · rfl

theorem decimalLength_bounds {n : Nat} (hn : n ≠ 0) :
    10 ^ (Binary64.decimalLength n - 1) ≤ n ∧ n < 10 ^ Binary64.decimalLength n ∧
      0 < Binary64.decimalLength n := by
  have hpos : 0 < Binary64.decimalLength n := List.length_pos_iff.mpr Nat.toDigits_ne_nil
  have hiff {k : Nat} (hk : 0 < k) : Binary64.decimalLength n ≤ k ↔ n < 10 ^ k :=
    Nat.length_toDigits_le_iff (by decide) hk
  refine ⟨?_, (hiff hpos).mp le_rfl, hpos⟩
  rcases Nat.eq_zero_or_pos (Binary64.decimalLength n - 1) with hone | hmore
  · rw [hone]
    exact Nat.one_le_iff_ne_zero.mpr hn
  · refine Nat.le_of_not_lt fun hlt => ?_
    have hle := (hiff hmore).mpr hlt
    omega

/-- The digits of a decimal and its exponent bound its value. -/
theorem toRat_bounds {d : Decimal} (hd : d.digits ≠ 0) :
    (10 : ℚ) ^ ((Binary64.decimalLength d.digits : Int) + d.exponent - 1) ≤ d.toRat ∧
      d.toRat < 10 ^ ((Binary64.decimalLength d.digits : Int) + d.exponent) := by
  obtain ⟨hlow, hhigh, hpos⟩ := decimalLength_bounds hd
  have hpow : (0 : ℚ) < 10 ^ d.exponent := zpow_pos (by norm_num) _
  have hlow : (10 : ℚ) ^ (Binary64.decimalLength d.digits - 1) ≤ d.digits := by exact_mod_cast hlow
  have hhigh : (d.digits : ℚ) < 10 ^ Binary64.decimalLength d.digits := by exact_mod_cast hhigh
  constructor
  · calc (10 : ℚ) ^ ((Binary64.decimalLength d.digits : Int) + d.exponent - 1)
        = 10 ^ (Binary64.decimalLength d.digits - 1) * 10 ^ d.exponent := by
          rw [← zpow_natCast, ← zpow_add₀ (by norm_num)]
          congr 1
          omega
      _ ≤ d.toRat := mul_le_mul_of_nonneg_right hlow hpow.le
  · calc d.toRat < 10 ^ Binary64.decimalLength d.digits * 10 ^ d.exponent :=
          mul_lt_mul_of_pos_right hhigh hpow
      _ = 10 ^ ((Binary64.decimalLength d.digits : Int) + d.exponent) := by
          rw [← zpow_natCast, ← zpow_add₀ (by norm_num)]

end Decimal

namespace Binary64

/-- The value lies in the interval of those that are read as the number `m * 2 ^ e`, whose ends
belong to it if the significand is even. -/
structure RoundsTo (v : ℚ) (m : Nat) (e : Int) : Prop where
  low : ((interval m e).low : ℚ) ≤ 4 * (v / 2 ^ e)
  high : 4 * (v / 2 ^ e) ≤ (interval m e).high
  inner : m % 2 ≠ 0 → ((interval m e).low : ℚ) < 4 * (v / 2 ^ e) ∧
    4 * (v / 2 ^ e) < (interval m e).high

theorem covers_iff {m : Nat} {e : Int} {d : Decimal} :
    covers m e d = true ↔ RoundsTo d.toRat m e := by
  obtain ⟨hden, hratio⟩ := d.ratio_spec
  obtain ⟨hpos, hscale⟩ := scale_spec (4 * d.ratio.1) hden e
  have hpos' : (0 : ℚ) < (scale (4 * d.ratio.1) d.ratio.2 e).2 := by exact_mod_cast hpos
  have hvalue : ((scale (4 * d.ratio.1) d.ratio.2 e).1 : ℚ) / (scale (4 * d.ratio.1) d.ratio.2 e).2 =
      4 * (d.toRat / 2 ^ e) := by
    rw [hscale, ← hratio]
    push_cast
    ring
  have hle (n : Nat) : n * (scale (4 * d.ratio.1) d.ratio.2 e).2 ≤
      (scale (4 * d.ratio.1) d.ratio.2 e).1 ↔ (n : ℚ) ≤ 4 * (d.toRat / 2 ^ e) := by
    rw [← hvalue, le_div_iff₀ hpos']
    exact_mod_cast Iff.rfl
  have hge (n : Nat) : (scale (4 * d.ratio.1) d.ratio.2 e).1 ≤
      n * (scale (4 * d.ratio.1) d.ratio.2 e).2 ↔ 4 * (d.toRat / 2 ^ e) ≤ (n : ℚ) := by
    rw [← hvalue, div_le_iff₀ hpos']
    exact_mod_cast Iff.rfl
  have hclosed : (interval m e).closed = decide (m % 2 = 0) := rfl
  simp only [covers, hclosed, decide_eq_true_eq]
  split
  · rename_i heven
    rw [Bool.and_eq_true, decide_eq_true_eq, decide_eq_true_eq, hle, hge]
    exact ⟨fun h => ⟨h.1, h.2, fun hodd => absurd heven hodd⟩, fun h => ⟨h.low, h.high⟩⟩
  · rename_i hodd
    rw [Bool.and_eq_true, decide_eq_true_eq, decide_eq_true_eq, ← not_le, ← not_le, hle, hge, not_le,
      not_le]
    exact ⟨fun h => ⟨h.1.le, h.2.le, fun _ => h⟩, fun h => h.inner hodd⟩

section

variable {m : Nat} {e : Int} {v : ℚ}

/-- Below a power of two the places are half as wide, so that what is read as it from there has one
place more and is rounded up. -/
theorem RoundsTo.below (h : RoundsTo v leastFull e) (he : e ≠ minExponent) (hleast : minExponent ≤ e)
    (hlt : v / 2 ^ e < 2 ^ 52) :
    FitsAt v (e - 1) ∧ IsNearest significandBound (v / 2 ^ (e - 1)) := by
  have hpow : (0 : ℚ) < 2 ^ e := zpow_pos two_pos e
  have hpred : (2 : ℚ) ^ (e - 1) = 2 ^ e / 2 := by rw [zpow_sub_one₀ two_ne_zero, div_eq_mul_inv]
  have hlow : (2 : ℚ) ^ 54 - 1 ≤ 4 * (v / 2 ^ e) := by
    have hlow := h.low
    have hinterval : ((interval leastFull e).low : ℚ) = 2 ^ 54 - 1 := by
      simp only [interval, he, ne_eq, not_false_eq_true, and_self, if_true]
      norm_num [leastFull]
    rwa [hinterval] at hlow
  have hdouble : v / 2 ^ (e - 1) = 2 * (v / 2 ^ e) := by
    rw [hpred]
    field_simp
  refine ⟨⟨by omega, ?_, .inr ?_⟩, ⟨?_, ?_, fun _ => by decide⟩⟩
  · rw [div_lt_iff₀ hpow] at hlt
    rw [hpred]
    linarith
  · have hhalf : (2 : ℚ) ^ 51 ≤ v / 2 ^ e := by linarith
    rw [le_div_iff₀ hpow] at hhalf
    rw [hpred]
    linarith
  · rw [hdouble, show (significandBound : ℚ) = 2 ^ 53 by norm_num [significandBound]]
    linarith
  · rw [hdouble, show (significandBound : ℚ) = 2 ^ 53 by norm_num [significandBound]]
    linarith

theorem RoundsTo.isNearest (h : RoundsTo v m e)
    (hlt : m = leastFull → e ≠ minExponent → (2 : ℚ) ^ 52 ≤ v / 2 ^ e) (hm : m ≠ 0) :
    IsNearest m (v / 2 ^ e) := by
  have hhigh := h.high
  have hinterval : ((interval m e).high : ℚ) = 4 * m + 2 := by simp [interval]
  rw [hinterval] at hhigh
  have hlow : (m : ℚ) - 1 / 2 ≤ v / 2 ^ e := by
    by_cases hfull : m = leastFull ∧ e ≠ minExponent
    · have hle := hlt hfull.1 hfull.2
      rw [hfull.1, show ((leastFull : Nat) : ℚ) = 2 ^ 52 by norm_num [leastFull]]
      linarith
    · have hlow := h.low
      have hvalue : ((interval m e).low : ℚ) = 4 * m - 2 := by
        simp only [interval, if_neg hfull]
        rw [Nat.cast_sub (by omega)]
        push_cast
        ring
      rw [hvalue] at hlow
      linarith
  refine ⟨hlow, by linarith, fun htie => Decidable.byContradiction fun hodd => ?_⟩
  obtain ⟨hlow', hhigh'⟩ := h.inner hodd
  rw [hinterval] at hhigh'
  rcases htie with htie | htie
  · have hfull : ¬(m = leastFull ∧ e ≠ minExponent) := by
      rintro ⟨rfl, -⟩
      exact hodd (by decide)
    have hvalue : ((interval m e).low : ℚ) = 4 * m - 2 := by
      simp only [interval, if_neg hfull]
      rw [Nat.cast_sub (by omega)]
      push_cast
      ring
    rw [hvalue] at hlow'
    linarith
  · linarith

/-- A quotient in the interval of a number is rounded to it. -/
theorem ofRatio_of_roundsTo {negative : Bool} {num den : Nat} (hnum : 0 < num) (hden : 0 < den)
    (hcanonical : (finite negative m e).IsCanonical) (hm : m ≠ 0)
    (h : RoundsTo ((num : ℚ) / den) m e) : ofRatio negative num den = finite negative m e := by
  have hpow : (0 : ℚ) < 2 ^ e := zpow_pos two_pos e
  have hbound : m < significandBound := by
    rcases hcanonical with ⟨-, hm, -⟩ | ⟨hm, -⟩
    · exact hm
    · exact hm.trans (by decide)
  have hleast : minExponent ≤ e := by
    rcases hcanonical with ⟨-, -, he, -⟩ | ⟨-, he⟩
    · exact he
    · exact he.ge
  have hmost : e ≤ maxExponent := by
    rcases hcanonical with ⟨-, -, -, he⟩ | ⟨-, he⟩
    · exact he
    · exact he.trans_le (by decide)
  by_cases hbelow : m = leastFull ∧ e ≠ minExponent ∧ (num : ℚ) / den / 2 ^ e < 2 ^ 52
  · obtain ⟨rfl, he, hlt⟩ := hbelow
    obtain ⟨hfits, hnearest⟩ := h.below he hleast hlt
    rw [ofRatio_eq hnum hden hfits hnearest, if_pos rfl, if_neg (by omega), sub_add_cancel]
  · have hlt : m = leastFull → e ≠ minExponent → (2 : ℚ) ^ 52 ≤ (num : ℚ) / den / 2 ^ e :=
      fun hfull he => not_lt.mp fun hlt => hbelow ⟨hfull, he, hlt⟩
    have hnearest := h.isNearest hlt hm
    refine (ofRatio_eq hnum hden ⟨hleast, ?_, ?_⟩ hnearest).trans ?_
    · have hhigh := hnearest.high
      have hle : (m : ℚ) + 1 ≤ 2 ^ 53 := by
        have : m + 1 ≤ significandBound := hbound
        have hcast : ((m + 1 : Nat) : ℚ) ≤ significandBound := by exact_mod_cast this
        rw [show (significandBound : ℚ) = 2 ^ 53 by norm_num [significandBound]] at hcast
        push_cast at hcast
        exact hcast
      rw [← div_lt_iff₀ hpow]
      linarith
    · rcases hcanonical with ⟨hfull, -⟩ | ⟨-, he⟩
      · refine or_iff_not_imp_left.mpr fun he => ?_
        rw [← le_div_iff₀ hpow]
        rcases hfull.eq_or_lt with heq | hgt
        · exact hlt heq.symm he
        · have hlow := hnearest.low
          have hcast : ((leastFull + 1 : Nat) : ℚ) ≤ m := by exact_mod_cast hgt
          rw [show ((leastFull + 1 : Nat) : ℚ) = 2 ^ 52 + 1 by norm_num [leastFull]] at hcast
          linarith
      · exact .inl he
    · rw [if_neg hbound.ne, if_neg (by omega)]

theorem two_pow_le : (2 : ℚ) ^ 1075 ≤ 10 ^ 330 := by
  calc (2 : ℚ) ^ 1075 = (2 ^ 215) ^ 5 := by rw [← pow_mul]
    _ ≤ (10 ^ 66) ^ 5 := pow_le_pow_left₀ (by norm_num) (by norm_num) 5
    _ = 10 ^ 330 := by rw [← pow_mul]

theorem two_pow_lt : (2 : ℚ) ^ 1024 < 10 ^ 310 := by
  calc (2 : ℚ) ^ 1024 ≤ 2 ^ 1025 := pow_le_pow_right₀ (by norm_num) (by norm_num)
    _ = (2 ^ 205) ^ 5 := by rw [← pow_mul]
    _ < (10 ^ 62) ^ 5 := pow_lt_pow_left₀ (by norm_num) (by norm_num) (by norm_num)
    _ = 10 ^ 310 := by rw [← pow_mul]

/-- A value in the interval of a number lies within the exponents of finite numbers. -/
theorem RoundsTo.size (h : RoundsTo v m e) {negative : Bool}
    (hcanonical : (finite negative m e).IsCanonical) (hm : m ≠ 0) :
    (10 : ℚ) ^ (-330 : Int) ≤ v ∧ v < 10 ^ (310 : Int) := by
  have hpow : (0 : ℚ) < 2 ^ e := zpow_pos two_pos e
  have hlow : (1 : ℚ) / 2 ≤ v / 2 ^ e := by
    have hlow := h.low
    have hinterval : 2 ≤ (interval m e).low := by
      unfold interval
      dsimp only
      split <;> omega
    have hcast : (2 : ℚ) ≤ (interval m e).low := by exact_mod_cast hinterval
    linarith
  have hhigh : v / 2 ^ e ≤ 2 ^ 53 := by
    have hhigh := h.high
    have hbound : m + 1 ≤ significandBound := by
      rcases hcanonical with ⟨-, hm, -⟩ | ⟨hm, -⟩
      · exact hm
      · exact hm.trans (by decide)
    have hcast : ((m + 1 : Nat) : ℚ) ≤ significandBound := by exact_mod_cast hbound
    rw [show (significandBound : ℚ) = 2 ^ 53 by norm_num [significandBound]] at hcast
    have hinterval : ((interval m e).high : ℚ) = 4 * m + 2 := by simp [interval]
    rw [hinterval] at hhigh
    push_cast at hcast
    linarith
  rw [le_div_iff₀ hpow] at hlow
  rw [div_le_iff₀ hpow] at hhigh
  have hleast : (2 : ℚ) ^ minExponent ≤ 2 ^ e := by
    refine zpow_le_zpow_right₀ (by norm_num) ?_
    rcases hcanonical with ⟨-, -, he, -⟩ | ⟨-, he⟩
    · exact he
    · exact he.ge
  have hmost : (2 : ℚ) ^ e ≤ 2 ^ maxExponent := by
    refine zpow_le_zpow_right₀ (by norm_num) ?_
    rcases hcanonical with ⟨-, -, -, he⟩ | ⟨-, he⟩
    · exact he
    · exact he.trans_le (by decide)
  constructor
  · calc (10 : ℚ) ^ (-330 : Int) = 1 / 10 ^ 330 := by rw [zpow_neg, one_div]; rfl
      _ ≤ 1 / 2 ^ 1075 := one_div_le_one_div_of_le (by positivity) two_pow_le
      _ = 1 / 2 * 2 ^ minExponent := by
        rw [minExponent, zpow_neg, ← one_div, div_mul_div_comm, one_mul, pow_succ', zpow_ofNat]
      _ ≤ 1 / 2 * 2 ^ e := by linarith
      _ ≤ v := hlow
  · calc v ≤ 2 ^ 53 * 2 ^ e := hhigh
      _ ≤ 2 ^ 53 * 2 ^ maxExponent := by linarith
      _ = 2 ^ 1024 := by rw [maxExponent, zpow_ofNat, ← pow_add]
      _ < 10 ^ (310 : Int) := two_pow_lt

end

/-- A decimal in the interval of a number is read as it. -/
theorem ofDecimal_of_roundsTo {negative : Bool} {m : Nat} {e : Int} {d : Decimal}
    (hcanonical : (finite negative m e).IsCanonical) (hm : m ≠ 0) (h : RoundsTo d.toRat m e) :
    ofDecimal negative d.digits d.exponent = finite negative m e := by
  obtain ⟨hleast, hmost⟩ := h.size hcanonical hm
  have hdigits : d.digits ≠ 0 := by
    intro hzero
    have hvalue : d.toRat = 0 := by simp [Decimal.toRat, hzero]
    rw [hvalue] at hleast
    exact absurd hleast (not_le.mpr (zpow_pos (by norm_num) _))
  obtain ⟨hlow, hhigh⟩ := Decimal.toRat_bounds hdigits
  have htop : (decimalLength d.digits : Int) + d.exponent - 1 < 310 :=
    (zpow_lt_zpow_iff_right₀ (by norm_num)).mp (hlow.trans_lt hmost)
  have hbottom : (-330 : Int) < (decimalLength d.digits : Int) + d.exponent :=
    (zpow_lt_zpow_iff_right₀ (by norm_num)).mp (hleast.trans_lt hhigh)
  obtain ⟨hden, hratio⟩ := d.ratio_spec
  have hnum : 0 < d.ratio.1 := by
    unfold Decimal.ratio
    split
    · exact Nat.mul_pos (Nat.pos_of_ne_zero hdigits) (Nat.pow_pos (by decide))
    · exact Nat.pos_of_ne_zero hdigits
  have hround := ofRatio_of_roundsTo hnum hden hcanonical hm (hratio ▸ h)
  unfold ofDecimal
  rw [if_neg hdigits]
  dsimp only
  rw [if_neg (by omega), if_neg (by omega)]
  unfold Decimal.ratio at hround
  split at hround
  · rename_i he
    rwa [if_pos he]
  · rename_i he
    rwa [if_neg he]

/-! The search for the shortest decimal. -/

theorem roundDiv_eq (a b : Nat) : roundDiv a b = a / b ∨ roundDiv a b = a / b + 1 := by
  unfold roundDiv
  dsimp only
  split
  · exact .inl rfl
  · exact .inr rfl

/-- A neighbour that is taken rounds to the number. -/
theorem covers_of_neighbour? {m n : Nat} {e : Int} {d : Decimal} (h : neighbour? m e n = some d) :
    covers m e d = true := by
  unfold neighbour? at h
  dsimp only at h
  split at h
  · rename_i hlow hhigh
    obtain rfl := Option.some.inj h
    rcases roundDiv_eq _ _ with hround | hround <;> rw [hround]
    · exact hlow
    · exact hhigh
  · rename_i hlow _
    exact Option.some.inj h ▸ hlow
  · rename_i _ hhigh
    exact Option.some.inj h ▸ hhigh
  · cases h

/-- The terms of a number as a quotient. -/
theorem scale_neg_spec (m : Nat) (e : Int) :
    0 < (scale m 1 (-e)).2 ∧ ((scale m 1 (-e)).1 : ℚ) / (scale m 1 (-e)).2 = m * 2 ^ e := by
  obtain ⟨hpos, hvalue⟩ := scale_spec m one_pos (-e)
  refine ⟨hpos, hvalue.trans ?_⟩
  rw [zpow_neg]
  simp

theorem leadingExponent_le {m : Nat} (hm : m ≠ 0) (e : Int) :
    (10 : ℚ) ^ leadingExponent m e ≤ m * 2 ^ e := by
  obtain ⟨hden, hvalue⟩ := scale_neg_spec m e
  have hden' : (0 : ℚ) < (scale m 1 (-e)).2 := by exact_mod_cast hden
  have hpos : (0 : ℚ) < m * 2 ^ e :=
    mul_pos (by exact_mod_cast Nat.pos_of_ne_zero hm) (zpow_pos two_pos e)
  rw [← hvalue] at hpos ⊢
  unfold leadingExponent
  dsimp only
  generalize (scale m 1 (-e)).1 = num at *
  generalize (scale m 1 (-e)).2 = den at *
  have hnum' : (0 : ℚ) < num := (div_pos_iff_of_pos_right hden').mp hpos
  have hnum : 0 < num := by exact_mod_cast hnum'
  split
  · rename_i hle
    have hquotient : num / den ≠ 0 := (Nat.div_pos hle hden).ne'
    obtain ⟨hlow, -, hlength⟩ := Decimal.decimalLength_bounds hquotient
    rw [show (decimalLength (num / den) : Int) - 1 = (decimalLength (num / den) - 1 : Nat) by omega,
      zpow_natCast, le_div_iff₀ hden']
    have hmul : 10 ^ (decimalLength (num / den) - 1) * den ≤ num :=
      (Nat.mul_le_mul_right den hlow).trans (Nat.div_mul_le_self num den)
    exact_mod_cast hmul
  · rename_i hlt
    -- the reciprocal, rounded up, is at most the power of ten
    have hround : 1 < (den + num - 1) / num := by
      rw [Nat.lt_div_iff_mul_lt hnum]
      omega
    obtain ⟨-, hhigh, -⟩ := Decimal.decimalLength_bounds (show (den + num - 1) / num - 1 ≠ 0 by omega)
    generalize hlength : decimalLength ((den + num - 1) / num - 1) = k at *
    have hle : den ≤ 10 ^ k * num := by
      have hlt' : (den + num - 1) / num < 10 ^ k + 1 := by omega
      rw [Nat.div_lt_iff_lt_mul hnum, Nat.add_mul, one_mul] at hlt'
      omega
    have hle' : (den : ℚ) ≤ 10 ^ k * num := by exact_mod_cast hle
    rw [zpow_neg, zpow_natCast, inv_le_iff_one_le_mul₀ (by positivity), mul_comm, ← mul_div_assoc,
      le_div_iff₀ hden', one_mul]
    exact hle'

/-- On a grid that is fine enough, a neighbour of a number rounds to it. -/
theorem exists_roundsTo_of_grid {m : Nat} {e place : Int} {low high : Decimal} (hm : m ≠ 0)
    (hlow : low.toRat ≤ m * 2 ^ e) (hhigh : (m : ℚ) * 2 ^ e < high.toRat)
    (hplace : high.toRat = low.toRat + 10 ^ place) (hfine : (10 : ℚ) ^ place < 2 ^ e)
    (hfull : m = leastFull → (10 : ℚ) ^ place < 3 / 4 * 2 ^ e) :
    RoundsTo low.toRat m e ∨ RoundsTo high.toRat m e := by
  have hpow : (0 : ℚ) < 2 ^ e := zpow_pos two_pos e
  have hhighEnd : ((interval m e).high : ℚ) = 4 * m + 2 := by simp [interval]
  have hlowEnd : ((interval m e).low : ℚ) ≤ 4 * m - 1 ∧
      (m ≠ leastFull → ((interval m e).low : ℚ) = 4 * m - 2) := by
    unfold interval
    dsimp only
    split
    · rename_i h
      refine ⟨?_, fun hne => absurd h.1 hne⟩
      rw [Nat.cast_sub (by omega)]
      push_cast
      exact le_rfl
    · rw [Nat.cast_sub (by omega)]
      push_cast
      exact ⟨by linarith, fun _ => rfl⟩
  -- the gaps to the two neighbours, in places of the number
  obtain ⟨below, hbelow⟩ : ∃ below, low.toRat / 2 ^ e = m - below := ⟨m - low.toRat / 2 ^ e, by ring⟩
  obtain ⟨above, habove⟩ : ∃ above, high.toRat / 2 ^ e = m + above := ⟨high.toRat / 2 ^ e - m, by ring⟩
  have hbelow0 : 0 ≤ below := by
    have h := (div_le_iff₀ hpow).mpr hlow
    linarith
  have habove0 : 0 < above := by
    have h := (lt_div_iff₀ hpow).mpr hhigh
    linarith
  have hsum : below + above = 10 ^ place / 2 ^ e := by
    have h := congrArg (· / (2 : ℚ) ^ e) hplace
    simp only [add_div, hbelow, habove] at h
    linarith
  have hsum1 : below + above < 1 := hsum ▸ (div_lt_one hpow).mpr hfine
  have hhigh' (hlt : above < 1 / 2) : RoundsTo high.toRat m e := by
    have hlt : ((interval m e).low : ℚ) < 4 * (high.toRat / 2 ^ e) ∧
        4 * (high.toRat / 2 ^ e) < (interval m e).high := by
      rw [habove, hhighEnd]
      exact ⟨by linarith [hlowEnd.1], by linarith⟩
    exact ⟨hlt.1.le, hlt.2.le, fun _ => hlt⟩
  have hlow' (hlt : ((interval m e).low : ℚ) < 4 * (m - below)) : RoundsTo low.toRat m e := by
    have hlt : ((interval m e).low : ℚ) < 4 * (low.toRat / 2 ^ e) ∧
        4 * (low.toRat / 2 ^ e) < (interval m e).high := by
      rw [hbelow, hhighEnd]
      exact ⟨hlt, by linarith⟩
    exact ⟨hlt.1.le, hlt.2.le, fun _ => hlt⟩
  by_cases hcase : above < 1 / 2
  · exact .inr (hhigh' hcase)
  · refine .inl (hlow' ?_)
    by_cases hm' : m = leastFull
    · have hsum' : below + above < 3 / 4 := by
        rw [hsum, div_lt_iff₀ hpow]
        exact hfull hm'
      linarith [hlowEnd.1]
    · rw [hlowEnd.2 hm']
      linarith

/-- Seventeen digits are always enough. -/
theorem exists_neighbour? {m : Nat} (hm : m ≠ 0) (hbound : m < significandBound) (e : Int) :
    ∃ d, neighbour? m e 17 = some d := by
  obtain ⟨hden, hvalue⟩ := scale_neg_spec m e
  have hden' : (0 : ℚ) < (scale m 1 (-e)).2 := by exact_mod_cast hden
  have hpow : (0 : ℚ) < 2 ^ e := zpow_pos two_pos e
  have hleading := leadingExponent_le hm e
  unfold neighbour?
  dsimp only
  generalize leadingExponent m e = leading at *
  have hplaceEq : leading - ((17 : Nat) : Int) + 1 = leading - 16 := by omega
  rw [hplaceEq]
  generalize hplace : leading - 16 = place
  have hten : (10 : ℚ) ^ leading = 10 ^ place * 10 ^ 16 := by
    rw [show leading = place + 16 by omega, zpow_add₀ (by norm_num)]
    rfl
  generalize hab : (if 0 ≤ place then ((scale m 1 (-e)).1, (scale m 1 (-e)).2 * Nat.pow 10 place.toNat)
    else ((scale m 1 (-e)).1 * Nat.pow 10 (-place).toNat, (scale m 1 (-e)).2) : Nat × Nat) = ab
  have hten0 : (0 : ℚ) < 10 ^ place := zpow_pos (by norm_num) place
  have hquotient : 0 < ab.2 ∧ (ab.1 : ℚ) / ab.2 = m * 2 ^ e / 10 ^ place := by
    rw [← hab, ← hvalue]
    split
    · rename_i hplace
      obtain ⟨n, rfl⟩ := Int.eq_ofNat_of_zero_le hplace
      refine ⟨Nat.mul_pos hden (Nat.pow_pos (by decide)), ?_⟩
      simp [zpow_natCast, div_div]
    · rename_i hplace
      obtain ⟨n, hn⟩ := Int.eq_ofNat_of_zero_le (show 0 ≤ -place by omega)
      obtain rfl : place = -n := by omega
      refine ⟨hden, ?_⟩
      simp only [Int.neg_neg, Int.toNat_natCast, zpow_neg, zpow_natCast]
      push_cast [Nat.pow_eq]
      field_simp
  obtain ⟨hb, hquotient⟩ := hquotient
  have hb' : (0 : ℚ) < ab.2 := by exact_mod_cast hb
  have hfloor : ((ab.1 / ab.2 : Nat) : ℚ) ≤ m * 2 ^ e / 10 ^ place ∧
      (m : ℚ) * 2 ^ e / 10 ^ place < (ab.1 / ab.2 : Nat) + 1 := by
    rw [← hquotient]
    constructor
    · rw [le_div_iff₀ hb']
      exact_mod_cast Nat.div_mul_le_self ab.1 ab.2
    · rw [div_lt_iff₀ hb']
      exact_mod_cast (Nat.div_lt_iff_lt_mul hb).mp (Nat.lt_succ_self (ab.1 / ab.2))
  have hlow : Decimal.toRat ⟨ab.1 / ab.2, place⟩ ≤ m * 2 ^ e :=
    (le_div_iff₀ hten0).mp hfloor.1
  have hhigh : (m : ℚ) * 2 ^ e < Decimal.toRat ⟨ab.1 / ab.2 + 1, place⟩ := by
    have h := (div_lt_iff₀ hten0).mp hfloor.2
    simpa [Decimal.toRat] using h
  have hstep : Decimal.toRat ⟨ab.1 / ab.2 + 1, place⟩ =
      Decimal.toRat ⟨ab.1 / ab.2, place⟩ + 10 ^ place := by
    simp only [Decimal.toRat]
    push_cast
    ring
  have hcast : (m : ℚ) < 2 ^ 53 := by
    have h : (m : ℚ) < significandBound := by exact_mod_cast hbound
    rwa [show (significandBound : ℚ) = 2 ^ 53 by norm_num [significandBound]] at h
  rw [hten] at hleading
  have hfine : (10 : ℚ) ^ place < 2 ^ e := by nlinarith
  have hfull (h : m = leastFull) : (10 : ℚ) ^ place < 3 / 4 * 2 ^ e := by
    rw [h, show ((leastFull : Nat) : ℚ) = 2 ^ 52 by norm_num [leastFull]] at hleading
    linarith
  have hcovers := exists_roundsTo_of_grid hm hlow hhigh hstep hfine hfull
  rw [← covers_iff, ← covers_iff] at hcovers
  rcases hcovers with h | h
  · rw [h]
    split <;> simp_all
  · rw [h]
    split <;> simp_all

/-- The decimal that is printed for a number rounds to it. -/
theorem shortest_roundsTo {m : Nat} (hm : m ≠ 0) (hbound : m < significandBound) (e : Int) :
    RoundsTo (shortest m e).toRat m e := by
  obtain ⟨d, hd⟩ : ∃ d, (List.range' 1 17).findSome? (neighbour? m e) = some d := by
    refine Option.isSome_iff_exists.mp (List.findSome?_isSome_iff.mpr ⟨17, by decide, ?_⟩)
    obtain ⟨d, hd⟩ := exists_neighbour? hm hbound e
    rw [hd]
    rfl
  obtain ⟨n, -, hn⟩ := List.exists_of_findSome?_eq_some hd
  unfold shortest
  rw [hd, Decimal.toRat_strip]
  exact covers_iff.mp (covers_of_neighbour? hn)

end Binary64

end GraphQLDoc
