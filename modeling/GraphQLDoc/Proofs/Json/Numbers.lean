import GraphQLDoc.Proofs.Json.Strings
import GraphQLDoc.Proofs.Number.Printed

/-!
Numbers as JSON: the text of a number in front of what ends it is read up to there, an integer as
itself and a float as its value.
-/
namespace GraphQLDoc

namespace NumberText

/-- The number has no fraction without digits and no exponent without them. -/
structure IsNumber (t : NumberText) : Prop where
  whole : Pattern.IsWhole t.whole
  places : AreDigits t.places
  power : t.power = [] ∨ Pattern.IsPower t.power

theorem IsFloat.isNumber {t : NumberText} (h : t.IsFloat) : t.IsNumber :=
  ⟨h.whole, h.places, h.power⟩

variable {t : NumberText} {rest : List Char}

theorem IsNumber.endsDigits (h : t.IsNumber) (hrest : EndsDigits rest) :
    EndsDigits (t.fraction ++ (t.power ++ rest)) := by
  by_cases hplaces : t.places = []
  · have hnil : t.fraction = [] := by rw [fraction, hplaces]; rfl
    rw [hnil, List.nil_append]
    exact Pattern.endsDigits_power h.power hrest
  · rw [fraction, fractionText_of_ne_nil hplaces]
    intro c hc
    obtain rfl := Option.some.inj hc
    rfl

/-- The three parts of a number are found one behind the other. -/
theorem IsNumber.parts (h : t.IsNumber) (hrest : Pattern.endsNumber rest = true) :
    Pattern.integerPart (t.text ++ rest) = some (Pattern.signText t.negative ++ t.whole).length ∧
      (Pattern.fraction (t.fraction ++ (t.power ++ rest))).getD 0 = t.fraction.length ∧
      (Pattern.exponent (t.power ++ rest)).getD 0 = t.power.length := by
  have hends := Pattern.endsDigits_of_endsNumber hrest
  have htext : t.text ++ rest =
      Pattern.signText t.negative ++ (t.whole ++ (t.fraction ++ (t.power ++ rest))) := by
    simp [text]
  refine ⟨?_, ?_, ?_⟩
  · rw [List.length_append]
    exact Pattern.integerPart_iff.mpr ⟨_, _, _, htext, rfl, h.whole, .inr (h.endsDigits hends)⟩
  · by_cases hplaces : t.places = []
    · have hnil : t.fraction = [] := by rw [fraction, hplaces]; rfl
      have hnone : Pattern.fraction (t.power ++ rest) = none := by
        rcases h.power with hpower | hpower
        · rw [hpower, List.nil_append]
          cases rest with
          | nil => rfl
          | cons c rest =>
            have hdot : c ≠ '.' := by
              rintro rfl
              simp [Pattern.endsNumber] at hrest
            unfold Pattern.fraction
            split
            · rename_i heq
              exact absurd (List.cons.inj heq).1 hdot
            · rfl
        · exact hpower.fraction_eq_none
      rw [hnil, List.nil_append, hnone]
      rfl
    · have hfraction : t.fraction = '.' :: t.places := fractionText_of_ne_nil hplaces
      have hcs : t.fraction ++ (t.power ++ rest) = '.' :: (t.places ++ (t.power ++ rest)) := by
        rw [hfraction]
        rfl
      rw [Pattern.fraction_iff.mpr ⟨t.places, t.power ++ rest, hcs, rfl, hplaces, h.places,
        Pattern.endsDigits_power h.power hends⟩, hfraction, List.length_cons, Nat.add_comm]
      rfl
  · rcases h.power with hpower | hpower
    · rw [hpower, List.nil_append, Pattern.exponent_eq_none hrest]
      rfl
    · rw [Pattern.exponent_iff.mpr ⟨t.power, rest, rfl, rfl, hpower, hends⟩]
      rfl

theorem IsNumber.head (h : t.IsNumber) : ∃ c tail, t.text = c :: tail ∧ (isDigit c = true ∨
    c = '-' ∧ ∃ d ds, tail = d :: ds ∧ isDigit d = true) := by
  obtain ⟨d, ds, hwhole, hd⟩ := h.whole.head
  unfold text
  rw [hwhole]
  cases t.negative with
  | false => exact ⟨d, _, rfl, .inl hd⟩
  | true => exact ⟨'-', _, rfl, .inr ⟨rfl, d, _, rfl, hd⟩⟩

end NumberText

namespace Json

variable {strict : Bool} {i : Input} {rest : List Char}

theorem readNumber_float {t : NumberText} (ht : t.IsFloat) (hrest : Pattern.endsNumber rest = true)
    (htext : i.text = t.text ++ rest) :
    ∃ j, readNumber i = .ok (.float t.value, j) ∧ j.text = rest := by
  obtain ⟨hpart, hfraction, hexponent⟩ := ht.isNumber.parts hrest
  have hsplit : t.text ++ rest =
      (Pattern.signText t.negative ++ t.whole) ++ (t.fraction ++ (t.power ++ rest)) := by
    simp [NumberText.text]
  have hminus : Pattern.minus (t.text ++ rest) = (Pattern.signText t.negative).length := by
    rw [hsplit, List.append_assoc]
    exact Pattern.minus_signText ht.whole
  have hnegative : ((Pattern.signText t.negative).length == 1) = t.negative := by
    cases t.negative <;> rfl
  have hmarked : t.fraction.length + t.power.length ≠ 0 := by
    rcases ht.marked with hplaces | hpower
    · rw [NumberText.fraction, NumberText.fractionText_of_ne_nil hplaces, List.length_cons]
      omega
    · have hpos := List.length_pos_iff.mpr hpower
      omega
  have hplaces : t.fraction.drop 1 = t.places := by
    unfold NumberText.fraction NumberText.fractionText
    split
    · rename_i hnil
      rw [List.isEmpty_iff.mp hnil]
      rfl
    · rfl
  have hafter : (i.text).drop (Pattern.signText t.negative ++ t.whole).length =
      t.fraction ++ (t.power ++ rest) := by
    rw [htext, hsplit, List.drop_left]
  have hwhole : (i.text.take (Pattern.signText t.negative ++ t.whole).length).drop
      (Pattern.signText t.negative).length = t.whole := by
    rw [htext, hsplit, List.take_left, List.drop_left]
  refine ⟨i.drop ((Pattern.signText t.negative ++ t.whole).length + t.fraction.length +
    t.power.length), ?_, ?_⟩
  · unfold readNumber
    rw [htext] at hafter hwhole ⊢
    simp only [hpart, hafter, hfraction, List.drop_left, hexponent, hmarked, if_false, hminus,
      hwhole, hnegative, List.take_left, hplaces]
    rfl
  · rw [Input.drop_text, htext]
    have hall : t.text ++ rest =
        (Pattern.signText t.negative ++ t.whole ++ t.fraction ++ t.power) ++ rest := by
      simp [NumberText.text]
    rw [hall, ← List.length_append, ← List.length_append, List.drop_left]

theorem intText_eq (n : Int) :
    intText n = (NumberText.mk (decide (n < 0)) (natText n.natAbs) [] []).text := by
  unfold intText NumberText.text
  split
  · rename_i h
    simp [h, Pattern.signText, NumberText.fraction, NumberText.fractionText]
  · rename_i h
    simp [h, Pattern.signText, NumberText.fraction, NumberText.fractionText]

theorem isNumber_natText (n : Int) :
    NumberText.IsNumber ⟨decide (n < 0), natText n.natAbs, [], []⟩ :=
  ⟨isWhole_natText n.natAbs, fun _ hc => absurd hc List.not_mem_nil, .inl rfl⟩

theorem readNumber_int {n : Int} (hlength : (natText n.natAbs).length ≤ maxIntegerDigits)
    (hrest : Pattern.endsNumber rest = true) (htext : i.text = intText n ++ rest) :
    ∃ j, readNumber i = .ok (.int n, j) ∧ j.text = rest := by
  have hwhole := isWhole_natText n.natAbs
  obtain ⟨hpart, hfraction, hexponent⟩ := (isNumber_natText n).parts hrest
  rw [← intText_eq] at hpart
  have hsplit : intText n ++ rest =
      (Pattern.signText (decide (n < 0)) ++ natText n.natAbs) ++ rest := by
    rw [intText_eq]
    simp [NumberText.text, NumberText.fraction, NumberText.fractionText]
  have hminus : Pattern.minus (intText n ++ rest) =
      (Pattern.signText (decide (n < 0))).length := by
    rw [hsplit, List.append_assoc]
    exact Pattern.minus_signText hwhole
  have hnegative : ((Pattern.signText (decide (n < 0))).length == 1) = decide (n < 0) := by
    cases decide (n < 0) <;> rfl
  have hafter : (intText n ++ rest).drop
      (Pattern.signText (decide (n < 0)) ++ natText n.natAbs).length = rest := by
    rw [hsplit, List.drop_left]
  have hdigits : ((intText n ++ rest).take
      (Pattern.signText (decide (n < 0)) ++ natText n.natAbs).length).drop
      (Pattern.signText (decide (n < 0))).length = natText n.natAbs := by
    rw [hsplit, List.take_left, List.drop_left]
  have hvalue : (digitsNumber (natText n.natAbs) : Int) = n.natAbs :=
    congrArg Nat.cast (digitsValue_natText n.natAbs)
  have hfraction : (Pattern.fraction rest).getD 0 = 0 := hfraction
  have hexponent : (Pattern.exponent rest).getD 0 = 0 := hexponent
  refine ⟨i.drop (Pattern.signText (decide (n < 0)) ++ natText n.natAbs).length, ?_, ?_⟩
  · unfold readNumber
    rw [htext]
    simp only [hpart, hafter, hfraction, List.drop_zero, hexponent, hminus, hdigits, hnegative,
      Nat.add_zero, if_true, Nat.not_lt_of_le hlength, if_false, hvalue, decide_eq_true_eq]
    congr 3
    split <;> omega
  · rw [Input.drop_text, htext, hafter]

/-- A number begins with a digit or a minus sign, and so do none of the words but one, which goes on
with a letter. -/
theorem readScalar_number {t : NumberText} (ht : t.IsNumber) (htext : i.text = t.text ++ rest) :
    readScalar i = readNumber i := by
  obtain ⟨c, tail, hhead, hc⟩ := ht.head
  rw [hhead] at htext
  have hnot {w : List Char} {d : Char} (hw : w.head? = some d) (hd : isDigit d = false)
      (hminus : d ≠ '-') : ¬ w.isPrefixOf i.text := by
    obtain ⟨w, rfl⟩ := List.head?_eq_some_iff.mp hw
    intro hbegins
    obtain ⟨_, heq⟩ := List.isPrefixOf_iff_prefix.mp hbegins
    obtain ⟨rfl, -⟩ := List.cons.inj (heq.trans htext)
    rcases hc with hc | ⟨rfl, -⟩
    · rw [hc] at hd
      cases hd
    · exact hminus rfl
  have hinfinity : ¬ "-Infinity".toList.isPrefixOf i.text := by
    have hletters : "-Infinity".toList = '-' :: 'I' :: "nfinity".toList := rfl
    rw [hletters]
    intro hbegins
    obtain ⟨_, heq⟩ := List.isPrefixOf_iff_prefix.mp hbegins
    obtain ⟨hminus, heq⟩ := List.cons.inj (heq.trans htext)
    rcases hc with hc | ⟨-, d, ds, rfl, hd⟩
    · rw [← hminus] at hc
      exact absurd hc (by decide)
    · obtain ⟨hletter, -⟩ := List.cons.inj heq
      rw [← hletter] at hd
      exact absurd hd (by decide)
  unfold readScalar
  split
  · rename_i w v hfound
    have hbegins := List.find?_some hfound
    dsimp only at hbegins
    have hmem := List.mem_of_find?_eq_some hfound
    simp only [words, List.mem_cons, Prod.mk.injEq, List.not_mem_nil, or_false] at hmem
    rcases hmem with ⟨rfl, -⟩ | ⟨rfl, -⟩ | ⟨rfl, -⟩ | ⟨rfl, -⟩ | ⟨rfl, -⟩ | ⟨rfl, -⟩
    case inr.inr.inr.inr.inr => exact absurd hbegins hinfinity
    all_goals exact absurd hbegins (hnot rfl (by decide) (by decide))
  · rfl

end Json

end GraphQLDoc
