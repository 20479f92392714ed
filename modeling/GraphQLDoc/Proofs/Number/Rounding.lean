import GraphQLDoc.Number.Binary64
import Mathlib.Algebra.Order.Field.Basic
import Mathlib.Algebra.Order.Field.Power
import Mathlib.Data.Rat.Cast.Order
import Mathlib.Tactic.FieldSimp
import Mathlib.Tactic.GCongr
import Mathlib.Tactic.Linarith
import Mathlib.Tactic.NormNum
import Mathlib.Tactic.Ring

/-!
Rounding of quotients, stated on rational numbers. The exponent at which a quotient is rounded and
the significand that it is rounded to are each the only one with a property, so that a number is
known to be the result as soon as it has both.
-/
namespace GraphQLDoc.Binary64

/-- The natural number is nearest, and of two nearest ones even. -/
structure IsNearest (q : Nat) (x : ℚ) : Prop where
  low : (q : ℚ) - 1 / 2 ≤ x
  high : x ≤ q + 1 / 2
  tie : x = q - 1 / 2 ∨ x = q + 1 / 2 → q % 2 = 0

theorem IsNearest.not_succ {q : Nat} {x : ℚ} (h : IsNearest q x) : ¬IsNearest (q + 1) x := by
  intro h'
  have hlow := h'.low
  have hhigh := h.high
  push_cast at hlow
  have htie : x = q + 1 / 2 := by linarith
  have heven := h.tie (.inr htie)
  have hodd := h'.tie (.inl (by push_cast; linarith))
  omega

theorem IsNearest.le {p q : Nat} {x : ℚ} (hp : IsNearest p x) (hq : IsNearest q x) : p ≤ q + 1 := by
  have hlow := hp.low
  have hhigh := hq.high
  have h : (p : ℚ) ≤ (q + 1 : Nat) := by
    push_cast
    linarith
  exact_mod_cast h

theorem IsNearest.unique {p q : Nat} {x : ℚ} (hp : IsNearest p x) (hq : IsNearest q x) : p = q := by
  have hpq := hp.le hq
  have hqp := hq.le hp
  have hp' : p ≠ q + 1 := fun h => hq.not_succ (h ▸ hp)
  have hq' : q ≠ p + 1 := fun h => hp.not_succ (h ▸ hq)
  omega

theorem roundDiv_isNearest (a : Nat) {b : Nat} (hb : 0 < b) : IsNearest (roundDiv a b) (a / b) := by
  have hb' : (0 : ℚ) < b := by exact_mod_cast hb
  have hdiv : (a : ℚ) = b * (a / b : Nat) + (a % b : Nat) := by
    exact_mod_cast (Nat.div_add_mod a b).symm
  have hx : (a : ℚ) / b = (a / b : Nat) + (a % b : Nat) / (b : ℚ) := by
    rw [hdiv]
    field_simp
  have hlow : (0 : ℚ) ≤ (a % b : Nat) / (b : ℚ) := div_nonneg (Nat.cast_nonneg _) hb'.le
  have hhigh : ((a % b : Nat) : ℚ) / b < 1 := by
    rw [div_lt_one hb']
    exact_mod_cast Nat.mod_lt a hb
  have hless : 2 * (a % b) < b ↔ ((a % b : Nat) : ℚ) / b < 1 / 2 := by
    rw [div_lt_div_iff₀ hb' two_pos, one_mul, mul_comm]
    exact_mod_cast Iff.rfl
  have hhalf : 2 * (a % b) = b ↔ ((a % b : Nat) : ℚ) / b = 1 / 2 := by
    rw [div_eq_div_iff hb'.ne' two_ne_zero, one_mul, mul_comm]
    exact_mod_cast Iff.rfl
  unfold roundDiv
  rw [hx]
  dsimp only
  split
  · rename_i h
    rcases h with h | ⟨h, heven⟩
    · rw [hless] at h
      refine ⟨by linarith, by linarith, fun htie => ?_⟩
      rcases htie with htie | htie <;> linarith
    · rw [hhalf] at h
      exact ⟨by linarith, by linarith, fun _ => heven⟩
  · rename_i h
    obtain ⟨hnotless, hodd⟩ := not_or.mp h
    rw [hless, not_lt] at hnotless
    refine ⟨by push_cast; linarith, by push_cast; linarith, fun htie => ?_⟩
    have hhalf' : 2 * (a % b) = b := by
      rw [hhalf]
      rcases htie with htie | htie <;> push_cast at htie <;> linarith
    have hq : a / b % 2 ≠ 0 := fun heven => hodd ⟨hhalf', heven⟩
    omega

theorem scale_spec (num : Nat) {den : Nat} (hden : 0 < den) (e : Int) :
    0 < (scale num den e).2 ∧
      ((scale num den e).1 : ℚ) / (scale num den e).2 = (num : ℚ) / den / 2 ^ e := by
  have hden' : (den : ℚ) ≠ 0 := by exact_mod_cast hden.ne'
  unfold scale
  split
  · rename_i he
    obtain ⟨n, rfl⟩ := Int.eq_ofNat_of_zero_le he
    refine ⟨Nat.mul_pos hden (Nat.pow_pos two_pos), ?_⟩
    have hpow : (2 : ℚ) ^ (n : Int) = (Nat.pow 2 n : Nat) := by
      rw [zpow_natCast]
      exact_mod_cast rfl
    simp only [Int.toNat_natCast, hpow, Nat.cast_mul]
    rw [div_div]
  · rename_i he
    obtain ⟨n, hn⟩ := Int.eq_ofNat_of_zero_le (show 0 ≤ -e by omega)
    obtain rfl : e = -n := by omega
    refine ⟨hden, ?_⟩
    have hpow : (2 : ℚ) ^ (-n : Int) = ((Nat.pow 2 n : Nat) : ℚ)⁻¹ := by
      rw [zpow_neg, zpow_natCast]
      exact_mod_cast rfl
    simp only [Int.neg_neg, Int.toNat_natCast, hpow, Nat.cast_mul]
    field_simp

/-- The exponent at which a positive value has a significand of 53 bits, or the least one. -/
structure FitsAt (v : ℚ) (e : Int) : Prop where
  least : minExponent ≤ e
  high : v < 2 ^ 53 * 2 ^ e
  low : e = minExponent ∨ 2 ^ 52 * 2 ^ e ≤ v

theorem FitsAt.le {v : ℚ} {e f : Int} (he : FitsAt v e) (hf : FitsAt v f) : f ≤ e := by
  by_contra hlt
  have hlt : e + 1 ≤ f := by omega
  have hmin := he.least
  have hlow : (2 : ℚ) ^ 52 * 2 ^ f ≤ v := hf.low.resolve_left (by omega)
  have hpow : (2 : ℚ) ^ (e + 1) ≤ 2 ^ f := zpow_le_zpow_right₀ (by norm_num) hlt
  have hsucc : (2 : ℚ) ^ (e + 1) = 2 ^ e * 2 := zpow_add_one₀ two_ne_zero e
  have hhigh := he.high
  have h : (2 : ℚ) ^ 53 * 2 ^ e ≤ 2 ^ 52 * 2 ^ f := by
    calc (2 : ℚ) ^ 53 * 2 ^ e = 2 ^ 52 * (2 ^ e * 2) := by ring
      _ ≤ 2 ^ 52 * 2 ^ f := by rw [← hsucc]; gcongr
  linarith

theorem FitsAt.unique {v : ℚ} {e f : Int} (he : FitsAt v e) (hf : FitsAt v f) : e = f :=
  le_antisymm (hf.le he) (he.le hf)

/-- The binary logarithms of the terms bound a quotient. -/
theorem log2_bounds {num den : Nat} (hnum : 0 < num) (hden : 0 < den) :
    (2 : ℚ) ^ ((num.log2 : Int) - den.log2 - 1) ≤ (num : ℚ) / den ∧
      (num : ℚ) / den < 2 ^ ((num.log2 : Int) - den.log2 + 1) := by
  have hden' : (0 : ℚ) < den := by exact_mod_cast hden
  have hnumLow : (2 : ℚ) ^ (num.log2 : Int) ≤ num := by
    rw [zpow_natCast]
    exact_mod_cast Nat.log2_self_le hnum.ne'
  have hnumHigh : (num : ℚ) < 2 ^ ((num.log2 : Int) + 1) := by
    exact_mod_cast Nat.lt_log2_self
  have hdenLow : (2 : ℚ) ^ (den.log2 : Int) ≤ den := by
    rw [zpow_natCast]
    exact_mod_cast Nat.log2_self_le hden.ne'
  have hdenHigh : (den : ℚ) < 2 ^ ((den.log2 : Int) + 1) := by
    exact_mod_cast Nat.lt_log2_self
  have hpow (n : Int) : (0 : ℚ) < 2 ^ n := zpow_pos two_pos n
  constructor
  · rw [le_div_iff₀ hden']
    calc (2 : ℚ) ^ ((num.log2 : Int) - den.log2 - 1) * den
        ≤ 2 ^ ((num.log2 : Int) - den.log2 - 1) * 2 ^ ((den.log2 : Int) + 1) := by gcongr
      _ = 2 ^ (num.log2 : Int) := by
        rw [← zpow_add₀ two_ne_zero]
        congr 1
        omega
      _ ≤ num := hnumLow
  · rw [div_lt_iff₀ hden']
    calc (num : ℚ) < 2 ^ ((num.log2 : Int) + 1) := hnumHigh
      _ = 2 ^ ((num.log2 : Int) - den.log2 + 1) * 2 ^ (den.log2 : Int) := by
        rw [← zpow_add₀ two_ne_zero]
        congr 1
        omega
      _ ≤ 2 ^ ((num.log2 : Int) - den.log2 + 1) * den := by gcongr

theorem exponentOf_fitsAt {num den : Nat} (hnum : 0 < num) (hden : 0 < den) :
    FitsAt ((num : ℚ) / den) (exponentOf num den) := by
  obtain ⟨hlow, hhigh⟩ := log2_bounds hnum hden
  unfold exponentOf
  set guess := max minExponent ((num.log2 : Int) - den.log2 - 53) with hguess
  obtain ⟨hpos, hscale⟩ := scale_spec num hden guess
  have hpos' : (0 : ℚ) < (scale num den guess).2 := by exact_mod_cast hpos
  have hpow : (0 : ℚ) < 2 ^ guess := zpow_pos two_pos guess
  have hsucc : (2 : ℚ) ^ (guess + 1) = 2 ^ guess * 2 := zpow_add_one₀ two_ne_zero guess
  have hleast : minExponent ≤ guess := le_max_left _ _
  have hfull : significandBound ≤ (scale num den guess).1 / (scale num den guess).2 ↔
      (2 : ℚ) ^ 53 * 2 ^ guess ≤ (num : ℚ) / den := by
    rw [Nat.le_div_iff_mul_le hpos, ← le_div_iff₀ hpow, ← hscale, le_div_iff₀ hpos']
    exact_mod_cast Iff.rfl
  show FitsAt _ (if significandBound ≤ (scale num den guess).1 / (scale num den guess).2
    then guess + 1 else guess)
  split
  · rename_i h
    rw [hfull] at h
    refine ⟨by omega, ?_, .inr ?_⟩
    · calc (num : ℚ) / den < 2 ^ ((num.log2 : Int) - den.log2 + 1) := hhigh
        _ ≤ 2 ^ (guess + 54) := zpow_le_zpow_right₀ (by norm_num) (by omega)
        _ = 2 ^ 53 * 2 ^ (guess + 1) := by
          rw [zpow_add₀ two_ne_zero, hsucc]
          norm_num
          ring
    · rw [hsucc]
      linarith
  · rename_i h
    rw [hfull, not_le] at h
    refine ⟨hleast, h, ?_⟩
    rcases le_total ((num.log2 : Int) - den.log2 - 53) minExponent with hsmall | hlarge
    · exact .inl (max_eq_left hsmall)
    · refine .inr (le_trans (le_of_eq ?_) hlow)
      have hvalue : guess = (num.log2 : Int) - den.log2 - 53 := max_eq_right hlarge
      rw [show (num.log2 : Int) - den.log2 - 1 = guess + 52 by omega, zpow_add₀ two_ne_zero]
      norm_num
      ring

variable {v : ℚ} {e : Int} {m : Nat}

theorem FitsAt.le_bound (he : FitsAt v e) (hm : IsNearest m (v / 2 ^ e)) :
    m ≤ significandBound := by
  have hpow : (0 : ℚ) < 2 ^ e := zpow_pos two_pos e
  have hhigh : v / 2 ^ e < 2 ^ 53 := (div_lt_iff₀ hpow).mpr he.high
  have hlow := hm.low
  have h : (m : ℚ) < (significandBound + 1 : Nat) := by
    have hbound : ((significandBound + 1 : Nat) : ℚ) = 2 ^ 53 + 1 := by norm_num [significandBound]
    rw [hbound]
    linarith
  exact Nat.lt_succ_iff.mp (by exact_mod_cast h)

theorem FitsAt.leastFull_le (he : FitsAt v e) (hm : IsNearest m (v / 2 ^ e)) :
    e = minExponent ∨ leastFull ≤ m := by
  refine he.low.imp_right fun hlow => ?_
  have hpow : (0 : ℚ) < 2 ^ e := zpow_pos two_pos e
  have hlow : (2 : ℚ) ^ 52 ≤ v / 2 ^ e := (le_div_iff₀ hpow).mpr hlow
  have hhigh := hm.high
  have h : ((leastFull : Nat) : ℚ) < (m + 1 : Nat) := by
    have hfull : ((leastFull : Nat) : ℚ) = 2 ^ 52 := by norm_num [leastFull]
    rw [hfull]
    push_cast
    linarith
  exact Nat.lt_succ_iff.mp (by exact_mod_cast h)

/-- Rounding in terms of the only exponent and the only significand that come into question. -/
theorem ofRatio_eq {negative : Bool} {num den : Nat} (hnum : 0 < num) (hden : 0 < den)
    (he : FitsAt ((num : ℚ) / den) e) (hm : IsNearest m ((num : ℚ) / den / 2 ^ e)) :
    ofRatio negative num den =
      if m = significandBound then
        if maxExponent < e + 1 then infinite negative else finite negative leastFull (e + 1)
      else if maxExponent < e then infinite negative else finite negative m e := by
  obtain rfl : e = exponentOf num den := he.unique (exponentOf_fitsAt hnum hden)
  obtain ⟨hpos, hscale⟩ := scale_spec num hden (exponentOf num den)
  obtain rfl : m = roundDiv (scale num den (exponentOf num den)).1
      (scale num den (exponentOf num den)).2 := by
    refine hm.unique ?_
    rw [← hscale]
    exact roundDiv_isNearest _ hpos
  unfold ofRatio
  rw [if_neg hnum.ne']
  dsimp only
  split <;> rfl

theorem ofRatio_isCanonical (negative : Bool) (num : Nat) {den : Nat} (hden : 0 < den) :
    (ofRatio negative num den).IsCanonical := by
  rcases Nat.eq_zero_or_pos num with rfl | hnum
  · exact .inr ⟨by decide, rfl⟩
  · have he := exponentOf_fitsAt hnum hden
    obtain ⟨hpos, hscale⟩ := scale_spec num hden (exponentOf num den)
    have hm := roundDiv_isNearest (scale num den (exponentOf num den)).1 hpos
    rw [hscale] at hm
    have hle := he.le_bound hm
    have hfull := he.leastFull_le hm
    have hleast := he.least
    rw [ofRatio_eq hnum hden he hm]
    generalize exponentOf num den = e at *
    generalize roundDiv _ _ = m at *
    split
    · split
      · trivial
      · exact .inl ⟨le_refl _, by decide, by omega, by omega⟩
    · split
      · trivial
      · by_cases hsmall : leastFull ≤ m
        · exact .inl ⟨hsmall, by omega, hleast, by omega⟩
        · exact .inr ⟨by omega, hfull.resolve_right hsmall⟩

theorem ofDecimal_isCanonical (negative : Bool) (digits : Nat) (exponent : Int) :
    (ofDecimal negative digits exponent).IsCanonical := by
  have hzero : (zero negative).IsCanonical := .inr ⟨by decide, rfl⟩
  unfold ofDecimal
  dsimp only
  split
  · exact hzero
  split
  · trivial
  split
  · exact hzero
  split
  · exact ofRatio_isCanonical _ _ one_pos
  · exact ofRatio_isCanonical _ _ (Nat.pow_pos (by decide))

end GraphQLDoc.Binary64
