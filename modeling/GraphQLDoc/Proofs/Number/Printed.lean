import GraphQLDoc.Proofs.Number.Digits
import GraphQLDoc.Proofs.Number.Shortest

/-!
How finite floats are written: digits with a fraction, an exponent, or both, as in documents and in
JSON. The text denotes the number that is written.
-/
namespace GraphQLDoc

namespace Decimal

/-- Digits of a number that is not zero. -/
structure AreLeading (ds : List Char) : Prop where
  digits : AreDigits ds
  nonempty : ds ≠ []
  leading : ds.head? ≠ some '0'

theorem areLeading_natText {n : Nat} (h : n ≠ 0) : AreLeading (natText n) :=
  ⟨areDigits_natText n, natText_ne_nil n, head?_natText h⟩

theorem areDigits_zeros (k : Nat) : AreDigits (List.replicate k '0') := by
  intro c hc
  rw [(List.mem_replicate.mp hc).2]
  decide

/-- The text is that of a float without its sign, and has the value. -/
def IsFloatText (cs : List Char) (v : ℚ) : Prop :=
  ∃ whole places power, cs = whole ++ (NumberText.fractionText places ++ power) ∧
    ∀ negative, NumberText.IsFloat ⟨negative, whole, places, power⟩ ∧
      (NumberText.mk negative whole places power).decimal.toRat = v

theorem isFloatText_zero : IsFloatText ['0', '.', '0'] 0 := by
  refine ⟨['0'], ['0'], [], rfl, fun negative => ⟨⟨⟨?_, by simp, .inl rfl⟩, ?_, .inl rfl, by simp⟩, ?_⟩⟩
  · exact List.forall_mem_singleton.mpr (by decide)
  · exact List.forall_mem_singleton.mpr (by decide)
  · simp [NumberText.decimal, Numeral.digitsValue, toRat]

/-- Digits around a point, without an exponent. -/
theorem isFloatText_point {whole places : List Char} (hwhole : Pattern.IsWhole whole)
    (hplaces : AreDigits places) (hne : places ≠ []) :
    IsFloatText (whole ++ '.' :: places)
      (Numeral.digitsValue (whole ++ places) * 10 ^ (-places.length : Int)) := by
  refine ⟨whole, places, [], ?_, fun negative => ⟨⟨hwhole, hplaces, .inl rfl, .inl hne⟩, ?_⟩⟩
  · rw [NumberText.fractionText_of_ne_nil hne, List.append_nil]
  · simp [NumberText.decimal, NumberText.powerValue, Numeral.digitsValue, toRat]

theorem isFloatText_positional {ds : List Char} (h : AreLeading ds) (point : Int) :
    IsFloatText (positional ds point)
      (Numeral.digitsValue ds * 10 ^ (point - ds.length)) := by
  have hzero : AreDigits ['0'] := List.forall_mem_singleton.mpr (by decide)
  unfold positional
  split
  · rename_i hpoint
    have htext := @isFloatText_point ['0'] (List.replicate (-point).toNat '0' ++ ds)
      ⟨hzero, by simp, .inl rfl⟩ (List.forall_mem_append.mpr ⟨areDigits_zeros _, h.digits⟩)
      (by simp [h.nonempty])
    have hdigits : Numeral.digitsValue (['0'] ++ (List.replicate (-point).toNat '0' ++ ds)) =
        Numeral.digitsValue ds := by
      rw [← List.append_assoc, digitsValue_append,
        show ['0'] ++ List.replicate (-point).toNat '0' = List.replicate ((-point).toNat + 1) '0' from
          rfl, digitsValue_zeros, Nat.zero_mul, Nat.zero_add]
    have hlength : (-(List.replicate (-point).toNat '0' ++ ds).length : Int) = point - ds.length := by
      rw [List.length_append, List.length_replicate]
      omega
    rw [hdigits, hlength] at htext
    exact htext
  · rename_i hpoint
    obtain ⟨d, ds, rfl⟩ := List.exists_cons_of_ne_nil h.nonempty
    dsimp only
    split
    · rename_i hlength
      have hwhole : Pattern.IsWhole
          (d :: ds ++ List.replicate (point.toNat - (d :: ds).length) '0') :=
        ⟨List.forall_mem_append.mpr ⟨h.digits, areDigits_zeros _⟩, by simp, .inr (by simpa using h.leading)⟩
      have htext := isFloatText_point hwhole hzero (by simp)
      have hvalue : (Numeral.digitsValue (d :: ds ++
            List.replicate (point.toNat - (d :: ds).length) '0' ++ ['0']) : ℚ) *
              10 ^ (-(['0'] : List Char).length : Int) =
          Numeral.digitsValue (d :: ds) * 10 ^ (point - (d :: ds).length) := by
        rw [List.append_assoc, digitsValue_append,
          show List.replicate (point.toNat - (d :: ds).length) '0' ++ ['0'] =
            List.replicate (point.toNat - (d :: ds).length + 1) '0' from
            List.replicate_succ'.symm, digitsValue_zeros, List.length_replicate]
        push_cast
        rw [add_zero, mul_assoc, ← zpow_natCast, ← zpow_add₀ (by norm_num)]
        congr 2
        simp only [List.length_cons, List.length_nil] at hlength ⊢
        omega
      rw [hvalue] at htext
      exact htext
    · rename_i hlength
      obtain ⟨k, hk⟩ : ∃ k, point.toNat = k + 1 := ⟨point.toNat - 1, by omega⟩
      have hplaces : (d :: ds).drop point.toNat ≠ [] := by
        simpa [List.drop_eq_nil_iff] using hlength
      have hwhole : Pattern.IsWhole ((d :: ds).take point.toNat) :=
        ⟨fun c hc => h.digits c (List.mem_of_mem_take hc), by simp [hk],
          .inr (by simpa [hk] using h.leading)⟩
      have htext := isFloatText_point hwhole (fun c hc => h.digits c (List.mem_of_mem_drop hc)) hplaces
      rw [List.take_append_drop] at htext
      have hexponent : (-((d :: ds).drop point.toNat).length : Int) = point - (d :: ds).length := by
        rw [List.length_drop]
        omega
      rw [hexponent] at htext
      exact htext

/-- The exponent as it is written. -/
def powerText (exponent : Int) : List Char :=
  'e' :: (if exponent < 0 then '-' else '+') ::
    (List.replicate (2 - (natText exponent.natAbs).length) '0' ++ natText exponent.natAbs)

theorem isPower_powerText (exponent : Int) : Pattern.IsPower (powerText exponent) := by
  refine ⟨'e', [if exponent < 0 then '-' else '+'], _, rfl, .inl rfl, ?_, ?_, ?_⟩
  · split <;> simp
  · simp [natText_ne_nil]
  · exact List.forall_mem_append.mpr ⟨areDigits_zeros _, areDigits_natText _⟩

theorem powerValue_powerText {t : NumberText} {exponent : Int} (h : t.power = powerText exponent) :
    t.powerValue = exponent := by
  have hdigits : AreDigits (List.replicate (2 - (natText exponent.natAbs).length) '0' ++
      natText exponent.natAbs) :=
    List.forall_mem_append.mpr ⟨areDigits_zeros _, areDigits_natText _⟩
  have hminus : '-' ∉ List.replicate (2 - (natText exponent.natAbs).length) '0' ++
      natText exponent.natAbs := fun hmem => absurd (hdigits _ hmem) (by decide)
  have hfilter : (powerText exponent).filter isDigit =
      List.replicate (2 - (natText exponent.natAbs).length) '0' ++ natText exponent.natAbs := by
    unfold powerText
    rw [List.filter_cons_of_neg (by decide), List.filter_cons_of_neg (by split <;> decide),
      List.filter_eq_self.mpr hdigits]
  have hmem : '-' ∈ powerText exponent ↔ exponent < 0 := by
    unfold powerText
    simp only [List.mem_cons, hminus, or_false]
    split <;> simp_all
  unfold NumberText.powerValue
  dsimp only
  rw [h, hfilter, digitsValue_append, digitsValue_zeros, digitsValue_natText, Nat.zero_mul,
    Nat.zero_add]
  simp only [hmem]
  split <;> omega

theorem isFloatText_scientific {ds : List Char} (h : AreLeading ds) (exponent : Int) :
    IsFloatText (scientific ds exponent)
      (Numeral.digitsValue ds * 10 ^ (exponent - ds.length + 1)) := by
  obtain ⟨d, ds, rfl⟩ := List.exists_cons_of_ne_nil h.nonempty
  have hwhole : Pattern.IsWhole [d] :=
    ⟨List.forall_mem_singleton.mpr (h.digits d List.mem_cons_self), by simp, .inr h.leading⟩
  refine ⟨[d], ds, powerText exponent, ?_, fun negative => ⟨⟨hwhole,
    fun c hc => h.digits c (List.mem_cons_of_mem d hc), .inr (isPower_powerText exponent),
    .inr (by simp [powerText])⟩, ?_⟩⟩
  · cases ds with
    | nil => rfl
    | cons c ds => rfl
  · have hpower : (NumberText.mk negative [d] ds (powerText exponent)).powerValue = exponent :=
      powerValue_powerText rfl
    simp only [NumberText.decimal, toRat, hpower, List.singleton_append, List.length_cons]
    congr 2
    omega

theorem isFloatText_text {d : Decimal} (h : d.digits ≠ 0) : IsFloatText d.text d.toRat := by
  have hleading := areLeading_natText h
  unfold text
  dsimp only
  split
  · have htext := isFloatText_positional hleading
      (d.exponent + (natText d.digits).length - 1 + 1)
    rw [digitsValue_natText, show d.exponent + ((natText d.digits).length : Int) - 1 + 1 -
      (natText d.digits).length = d.exponent by omega] at htext
    exact htext
  · have htext := isFloatText_scientific hleading (d.exponent + (natText d.digits).length - 1)
    rw [digitsValue_natText, show d.exponent + ((natText d.digits).length : Int) - 1 -
      (natText d.digits).length + 1 = d.exponent by omega] at htext
    exact htext

end Decimal

namespace Binary64

/-- A finite number is written as a float, and the text denotes the number again. -/
theorem exists_numberText {x : Binary64} (h : x.isFinite = true) (hcanonical : x.IsCanonical)
    (w : Words) :
    ∃ number : NumberText, number.IsFloat ∧ x.text w = number.text ∧ number.value = x := by
  obtain ⟨negative, m, e⟩ | _ | _ := x
  case infinite | nan => cases h
  have hbound : m < significandBound := by
    rcases hcanonical with ⟨-, hm, -⟩ | ⟨hm, -⟩
    · exact hm
    · exact hm.trans (by decide)
  by_cases hm : m = 0
  · subst hm
    obtain rfl : e = minExponent := by
      rcases hcanonical with ⟨hfull, -⟩ | ⟨-, he⟩
      · exact absurd hfull (by decide)
      · exact he
    obtain ⟨whole, places, power, htext, hnumber⟩ := Decimal.isFloatText_zero
    obtain ⟨hfloat, hvalue⟩ := hnumber negative
    refine ⟨⟨negative, whole, places, power⟩, hfloat, ?_, ?_⟩
    · unfold text
      dsimp only
      rw [if_pos rfl, htext]
      cases negative <;> rfl
    · have hdigits : (NumberText.mk negative whole places power).decimal.digits = 0 := by
        have hpow : ((10 : ℚ) ^ (NumberText.mk negative whole places power).decimal.exponent) ≠ 0 :=
          zpow_ne_zero _ (by norm_num)
        exact_mod_cast (mul_eq_zero.mp hvalue).resolve_right hpow
      unfold NumberText.value ofDecimal
      rw [if_pos hdigits]
      rfl
  · have hrounds := shortest_roundsTo hm hbound e
    have hdigits : (shortest m e).digits ≠ 0 := by
      intro hzero
      have hlow := (hrounds.size hcanonical hm).1
      have hzero : (shortest m e).toRat = 0 := by simp [Decimal.toRat, hzero]
      rw [hzero] at hlow
      exact absurd hlow (not_le.mpr (zpow_pos (by norm_num) _))
    obtain ⟨whole, places, power, htext, hnumber⟩ := Decimal.isFloatText_text hdigits
    obtain ⟨hfloat, hvalue⟩ := hnumber negative
    refine ⟨⟨negative, whole, places, power⟩, hfloat, ?_, ?_⟩
    · unfold text
      dsimp only
      rw [if_neg hm, htext]
      cases negative <;> rfl
    · exact ofDecimal_of_roundsTo hcanonical hm (hvalue ▸ hrounds)

end Binary64

end GraphQLDoc
