import GraphQLDoc.Proofs.Number.Digits
import GraphQLDoc.Proofs.Number.Shortest

/-!
Where rounding leaves the finite numbers: at half a place beyond the greatest of them.
-/
namespace GraphQLDoc.Binary64

/-- The least value that is rounded to infinity. -/
def overflow : ℚ := 2 ^ 1024 - 2 ^ 970

theorem overflow_eq : overflow = (2 ^ 53 - 1 / 2) * 2 ^ maxExponent := by
  have hhalf : (2 : ℚ) ^ 971 = 2 ^ 970 * 2 := pow_succ 2 970
  have hwhole : (2 : ℚ) ^ 1024 = 2 ^ 53 * 2 ^ 971 := pow_add 2 53 971
  rw [overflow, maxExponent, zpow_ofNat, hwhole, hhalf]
  generalize (2 : ℚ) ^ 970 = x
  ring

theorem one_lt_overflow : (1 : ℚ) < overflow := by
  have hpow : (1 : ℚ) ≤ 2 ^ maxExponent := one_le_zpow₀ (by norm_num) (by decide)
  rw [overflow_eq]
  linarith

theorem overflow_pos : 0 < overflow := one_pos.trans one_lt_overflow

/-- At the greatest exponent the significand overflows from half a place below its bound on. -/
theorem significand_overflows {m : Nat} {x : ℚ} (hm : IsNearest m x) (hle : m ≤ significandBound) :
    m = significandBound ↔ 2 ^ 53 - 1 / 2 ≤ x := by
  have hbound : ((significandBound : Nat) : ℚ) = 2 ^ 53 := by norm_num [significandBound]
  constructor
  · intro h
    have hlow := hm.low
    rwa [h, hbound] at hlow
  · intro h
    by_contra hne
    have hsucc : m + 1 ≤ significandBound := by omega
    have hsucc' : (m : ℚ) + 1 ≤ 2 ^ 53 := by
      rw [← hbound]
      exact_mod_cast hsucc
    have hhigh := hm.high
    have htie : x = m + 1 / 2 := by linarith
    have heven := hm.tie (.inr htie)
    have hlast : (m : ℚ) + 1 = (significandBound : Nat) := by
      rw [hbound]
      linarith
    have hlast : m + 1 = significandBound := by exact_mod_cast hlast
    have hodd : significandBound % 2 = 0 := by decide
    omega

theorem isFinite_ite {negative : Bool} {c : Prop} [Decidable c] {m : Nat} {e : Int} :
    (if c then infinite negative else finite negative m e).isFinite = true ↔ ¬c := by
  split <;> rename_i h <;> simp [isFinite, h]

theorem ofRatio_isFinite (negative : Bool) {num den : Nat} (hden : 0 < den) :
    (ofRatio negative num den).isFinite = true ↔ (num : ℚ) / den < overflow := by
  rcases Nat.eq_zero_or_pos num with rfl | hnum
  · simp only [ofRatio, if_true, Nat.cast_zero, zero_div, overflow_pos, iff_true]
    rfl
  · have he := exponentOf_fitsAt hnum hden
    obtain ⟨hpos, hscale⟩ := scale_spec num hden (exponentOf num den)
    have hm := roundDiv_isNearest (scale num den (exponentOf num den)).1 hpos
    rw [hscale] at hm
    have hle := he.le_bound hm
    rw [ofRatio_eq hnum hden he hm]
    generalize exponentOf num den = e at *
    generalize roundDiv _ _ = m at *
    have hresult : (if m = significandBound then
          if maxExponent < e + 1 then infinite negative else finite negative leastFull (e + 1)
        else if maxExponent < e then infinite negative else finite negative m e).isFinite = true ↔
        e < maxExponent ∨ e = maxExponent ∧ m ≠ significandBound := by
      split
      · rename_i h
        simp only [isFinite_ite, h]
        omega
      · rename_i h
        simp only [isFinite_ite]
        omega
    rw [hresult]
    rcases lt_trichotomy e maxExponent with hless | heq | hmore
    · have hpow : (2 : ℚ) ^ (e + 1) ≤ 2 ^ maxExponent := zpow_le_zpow_right₀ (by norm_num) hless
      have hsucc : (2 : ℚ) ^ (e + 1) = 2 ^ e * 2 := zpow_add_one₀ two_ne_zero e
      have hvalue : (num : ℚ) / den < overflow := by
        have hhigh := he.high
        have hpos : (0 : ℚ) < 2 ^ e := zpow_pos two_pos _
        rw [overflow_eq]
        linarith
      exact iff_of_true (.inl hless) hvalue
    · have hlarge : (0 : ℚ) < 2 ^ e := zpow_pos two_pos _
      have hiff := significand_overflows hm hle
      rw [le_div_iff₀ hlarge, heq, ← overflow_eq] at hiff
      rw [← not_le (a := overflow), ← hiff]
      omega
    · have hleast : e ≠ minExponent := by
        have hless : minExponent < maxExponent := by decide
        omega
      have hlow : (2 : ℚ) ^ 52 * 2 ^ e ≤ num / den := he.low.resolve_left hleast
      have hpow : (2 : ℚ) ^ (maxExponent + 1) ≤ 2 ^ e := zpow_le_zpow_right₀ (by norm_num) hmore
      have hsucc : (2 : ℚ) ^ (maxExponent + 1) = 2 ^ maxExponent * 2 := zpow_add_one₀ two_ne_zero _
      have hvalue : ¬(num : ℚ) / den < overflow := by
        have hlarge : (0 : ℚ) < 2 ^ maxExponent := zpow_pos two_pos _
        rw [overflow_eq]
        linarith
      exact iff_of_false (by omega) hvalue

theorem ofDecimal_isFinite {negative : Bool} (d : Decimal) :
    (ofDecimal negative d.digits d.exponent).isFinite = true ↔ d.toRat < overflow := by
  by_cases hdigits : d.digits = 0
  · simp only [ofDecimal, hdigits, if_true, Decimal.toRat, Nat.cast_zero, zero_mul, overflow_pos,
      iff_true]
    rfl
  · obtain ⟨hlow, hhigh⟩ := Decimal.toRat_bounds hdigits
    unfold ofDecimal
    rw [if_neg hdigits]
    dsimp only
    split
    · rename_i htop
      have hlarge : overflow < d.toRat := by
        calc overflow < 2 ^ 1024 := sub_lt_self _ (by positivity)
          _ < 10 ^ (310 : Int) := two_pow_lt
          _ ≤ 10 ^ ((decimalLength d.digits : Int) + d.exponent - 1) :=
            zpow_le_zpow_right₀ (by norm_num) (by omega)
          _ ≤ d.toRat := hlow
      exact iff_of_false Bool.false_ne_true hlarge.le.not_gt
    · split
      · rename_i hbottom
        have hsmall : d.toRat < overflow := by
          calc d.toRat < 10 ^ ((decimalLength d.digits : Int) + d.exponent) := hhigh
            _ ≤ 10 ^ (0 : Int) := zpow_le_zpow_right₀ (by norm_num) (by omega)
            _ < overflow := one_lt_overflow
        exact iff_of_true rfl hsmall
      · obtain ⟨hden, hratio⟩ := d.ratio_spec
        rw [← hratio, ← ofRatio_isFinite negative hden]
        unfold Decimal.ratio
        split <;> rfl

end GraphQLDoc.Binary64

/-- A float is finite if it denotes less than the least value that overflows. -/
theorem GraphQLDoc.NumberText.value_isFinite (t : GraphQLDoc.NumberText) :
    t.value.isFinite = true ↔ t.decimal.toRat < GraphQLDoc.Binary64.overflow :=
  GraphQLDoc.Binary64.ofDecimal_isFinite t.decimal
