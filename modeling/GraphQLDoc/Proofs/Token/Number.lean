import GraphQLDoc.Token.Pattern

/-!
The texts that the patterns of numbers match: an optional minus sign, digits without a zero in
front, and for a float the digits behind a point, an exponent, or both.
-/
namespace GraphQLDoc

def AreDigits (cs : List Char) : Prop := ∀ c ∈ cs, isDigit c = true

/-- The text goes on with something else than a digit, or ends. -/
def EndsDigits (cs : List Char) : Prop := ∀ c ∈ cs.head?, isDigit c = false

theorem takeWhile_digits {ds rest : List Char} (hds : AreDigits ds) (hrest : EndsDigits rest) :
    (ds ++ rest).takeWhile isDigit = ds := by
  have hstop : rest.takeWhile isDigit = [] := by
    cases rest with
    | nil => rfl
    | cons c rest => simp [hrest c rfl]
  rw [List.takeWhile_append_of_pos hds, hstop, List.append_nil]

theorem takeWhile_digits_spec (cs : List Char) :
    ∃ rest, cs = cs.takeWhile isDigit ++ rest ∧ AreDigits (cs.takeWhile isDigit) ∧
      EndsDigits rest := by
  refine ⟨cs.dropWhile isDigit, List.takeWhile_append_dropWhile.symm, fun c hc => ?_, fun c hc => ?_⟩
  · simpa using List.all_takeWhile (p := isDigit) (l := cs) |> List.all_eq_true.mp |> (· c hc)
  · have hhead := List.head?_dropWhile_not isDigit cs
    rw [Option.mem_def.mp hc] at hhead
    simpa using hhead

namespace Pattern

theorem digits_iff {cs : List Char} {n : Nat} : digits cs = some n ↔
    ∃ ds rest, cs = ds ++ rest ∧ n = ds.length ∧ ds ≠ [] ∧ AreDigits ds ∧ EndsDigits rest := by
  constructor
  · intro h
    obtain ⟨rest, hcs, hds, hrest⟩ := takeWhile_digits_spec cs
    unfold digits at h
    split at h
    · cases h
    · rename_i hlength
      obtain rfl := Option.some.inj h
      refine ⟨_, rest, hcs, rfl, fun hnil => ?_, hds, hrest⟩
      exact hlength (by rw [hnil]; rfl)
  · rintro ⟨ds, rest, rfl, rfl, hne, hds, hrest⟩
    unfold digits
    rw [takeWhile_digits hds hrest]
    cases ds with
    | nil => exact absurd rfl hne
    | cons d ds => rfl

/-- Digits without a zero in front. -/
structure IsWhole (ds : List Char) : Prop where
  digits : AreDigits ds
  nonempty : ds ≠ []
  leading : ds = ['0'] ∨ ds.head? ≠ some '0'

theorem magnitude_iff {cs : List Char} {n : Nat} : magnitude cs = some n ↔
    ∃ ds rest, cs = ds ++ rest ∧ n = ds.length ∧ IsWhole ds ∧ (ds = ['0'] ∨ EndsDigits rest) := by
  constructor
  · intro h
    unfold magnitude at h
    split at h
    · rename_i rest
      obtain rfl := Option.some.inj h
      exact ⟨['0'], rest, rfl, rfl, ⟨by simp [AreDigits, isDigit], nofun, .inl rfl⟩, .inl rfl⟩
    · rename_i hzero
      obtain ⟨ds, rest, rfl, rfl, hne, hds, hrest⟩ := digits_iff.mp h
      refine ⟨ds, rest, rfl, rfl, ⟨hds, hne, .inr fun hhead => ?_⟩, .inr hrest⟩
      obtain ⟨tail, rfl⟩ := List.head?_eq_some_iff.mp hhead
      exact hzero _ rfl
  · rintro ⟨ds, rest, rfl, rfl, hwhole, hrest⟩
    rcases hwhole.leading with rfl | hhead
    · rfl
    · have hends : EndsDigits rest := by
        rcases hrest with rfl | hends
        · exact absurd rfl hhead
        · exact hends
      obtain ⟨d, ds, rfl⟩ := List.exists_cons_of_ne_nil hwhole.nonempty
      have hd : d ≠ '0' := fun hd => hhead (by rw [hd]; rfl)
      unfold magnitude
      split
      · rename_i heq
        exact absurd (List.cons.inj heq).1 hd
      · exact digits_iff.mpr ⟨_, rest, rfl, rfl, hwhole.nonempty, hwhole.digits, hends⟩

def signText (negative : Bool) : List Char := if negative then ['-'] else []

theorem IsWhole.head {ds : List Char} (h : IsWhole ds) : ∃ d tail, ds = d :: tail ∧ isDigit d = true := by
  obtain ⟨d, tail, rfl⟩ := List.exists_cons_of_ne_nil h.nonempty
  exact ⟨d, tail, rfl, h.digits d List.mem_cons_self⟩

theorem ne_of_isDigit {c d : Char} (h : isDigit c = true) (hd : isDigit d = false) :
    c ≠ d := by
  rintro rfl
  rw [h] at hd
  exact nomatch hd

theorem minus_signText {negative : Bool} {ds rest : List Char} (h : IsWhole ds) :
    minus (signText negative ++ (ds ++ rest)) = (signText negative).length := by
  cases negative with
  | true => rfl
  | false =>
    obtain ⟨d, tail, rfl, hd⟩ := h.head
    have hne : d ≠ '-' := ne_of_isDigit hd (by decide)
    show minus (d :: (tail ++ rest)) = 0
    unfold minus
    split
    · rename_i heq
      exact absurd (List.cons.inj heq).1 hne
    · rfl

theorem integerPart_iff {cs : List Char} {n : Nat} : integerPart cs = some n ↔
    ∃ negative ds rest, cs = signText negative ++ (ds ++ rest) ∧
      n = (signText negative).length + ds.length ∧ IsWhole ds ∧ (ds = ['0'] ∨ EndsDigits rest) := by
  constructor
  · intro h
    obtain ⟨k, hk, rfl⟩ := Option.map_eq_some_iff.mp h
    obtain ⟨ds, rest, hcs, rfl, hds, hrest⟩ := magnitude_iff.mp hk
    unfold minus at hcs ⊢
    split at hcs
    · rename_i tail
      exact ⟨true, ds, rest, congrArg _ hcs, rfl, hds, hrest⟩
    · exact ⟨false, ds, rest, hcs, rfl, hds, hrest⟩
  · rintro ⟨negative, ds, rest, rfl, rfl, hds, hrest⟩
    unfold integerPart
    rw [minus_signText hds, List.drop_left]
    rw [magnitude_iff.mpr ⟨ds, rest, rfl, rfl, hds, hrest⟩]
    rfl

theorem endsDigits_of_endsNumber {rest : List Char} (h : endsNumber rest = true) :
    EndsDigits rest := by
  cases rest with
  | nil => exact nofun
  | cons c rest =>
    intro d hd
    obtain rfl := Option.some.inj hd
    simp only [endsNumber, isNameRest, Bool.not_eq_true', Bool.or_eq_false_iff] at h
    exact h.1.2

theorem int_iff {cs : List Char} {n : Nat} : int cs = some n ↔
    ∃ negative ds rest, cs = signText negative ++ (ds ++ rest) ∧
      n = (signText negative).length + ds.length ∧ IsWhole ds ∧ endsNumber rest = true := by
  constructor
  · intro h
    obtain ⟨hpart, hends⟩ := Option.filter_eq_some_iff.mp h
    obtain ⟨negative, ds, rest, rfl, rfl, hds, -⟩ := integerPart_iff.mp hpart
    rw [← List.length_append, ← List.append_assoc, List.drop_left] at hends
    exact ⟨negative, ds, rest, rfl, rfl, hds, hends⟩
  · rintro ⟨negative, ds, rest, rfl, rfl, hds, hends⟩
    refine Option.filter_eq_some_iff.mpr ⟨integerPart_iff.mpr
      ⟨negative, ds, rest, rfl, rfl, hds, .inr (endsDigits_of_endsNumber hends)⟩, ?_⟩
    rw [← List.length_append, ← List.append_assoc, List.drop_left]
    exact hends

/-- The exponent of a number. -/
def IsPower (x : List Char) : Prop :=
  ∃ e sign ds, x = e :: (sign ++ ds) ∧ (e = 'e' ∨ e = 'E') ∧ sign ∈ [[], ['+'], ['-']] ∧
    ds ≠ [] ∧ AreDigits ds

theorem sign_append {mark ds rest : List Char} (hmark : mark ∈ [[], ['+'], ['-']])
    (hne : ds ≠ []) (hds : AreDigits ds) : sign (mark ++ (ds ++ rest)) = mark.length := by
  simp only [List.mem_cons, List.not_mem_nil, or_false] at hmark
  rcases hmark with rfl | rfl | rfl
  · obtain ⟨d, ds, rfl⟩ := List.exists_cons_of_ne_nil hne
    have hd : isDigit d = true := hds d List.mem_cons_self
    have hplus : d ≠ '+' := ne_of_isDigit hd (by decide)
    have hminus : d ≠ '-' := ne_of_isDigit hd (by decide)
    show sign (d :: (ds ++ rest)) = 0
    unfold sign
    split
    · rename_i heq
      exact absurd (List.cons.inj heq).1 hplus
    · rename_i heq
      exact absurd (List.cons.inj heq).1 hminus
    · rfl
  · rfl
  · rfl

theorem sign_spec (cs : List Char) :
    ∃ mark rest, cs = mark ++ rest ∧ mark ∈ [[], ['+'], ['-']] ∧ sign cs = mark.length := by
  unfold sign
  split
  · exact ⟨['+'], _, rfl, by simp, rfl⟩
  · exact ⟨['-'], _, rfl, by simp, rfl⟩
  · exact ⟨[], cs, rfl, by simp, rfl⟩

theorem exponent_iff {cs : List Char} {n : Nat} : exponent cs = some n ↔
    ∃ x rest, cs = x ++ rest ∧ n = x.length ∧ IsPower x ∧ EndsDigits rest := by
  constructor
  · intro h
    cases cs with
    | nil => cases h
    | cons e cs =>
      simp only [exponent, Option.ite_none_right_eq_some] at h
      obtain ⟨he, h⟩ := h
      obtain ⟨k, hk, rfl⟩ := Option.map_eq_some_iff.mp h
      obtain ⟨mark, tail, rfl, hmark, hlength⟩ := sign_spec cs
      rw [hlength, List.drop_left] at hk
      obtain ⟨ds, rest, rfl, rfl, hne, hds, hrest⟩ := digits_iff.mp hk
      refine ⟨e :: (mark ++ ds), rest, by simp, ?_, ⟨e, mark, ds, rfl, he, hmark, hne, hds⟩, hrest⟩
      simp only [hlength, List.length_cons, List.length_append]
      omega
  · rintro ⟨x, rest, rfl, rfl, ⟨e, mark, ds, rfl, he, hmark, hne, hds⟩, hrest⟩
    simp only [List.cons_append, List.append_assoc, exponent, if_pos he,
      sign_append hmark hne hds, List.drop_left]
    rw [digits_iff.mpr ⟨ds, rest, rfl, rfl, hne, hds, hrest⟩]
    simp only [Option.map_some, List.length_cons, List.length_append, Option.some.injEq]
    omega

theorem fraction_iff {cs : List Char} {n : Nat} : fraction cs = some n ↔
    ∃ ds rest, cs = '.' :: (ds ++ rest) ∧ n = 1 + ds.length ∧ ds ≠ [] ∧ AreDigits ds ∧
      EndsDigits rest := by
  constructor
  · intro h
    unfold fraction at h
    split at h
    · obtain ⟨k, hk, rfl⟩ := Option.map_eq_some_iff.mp h
      obtain ⟨ds, rest, rfl, rfl, hds⟩ := digits_iff.mp hk
      exact ⟨ds, rest, rfl, rfl, hds⟩
    · cases h
  · rintro ⟨ds, rest, rfl, rfl, hds⟩
    show (digits (ds ++ rest)).map (1 + ·) = _
    rw [digits_iff.mpr ⟨ds, rest, rfl, rfl, hds⟩]
    rfl

end Pattern

/-- The parts of the text of a number: the places are the digits behind the point, if there is one,
and the power is the whole exponent. -/
structure NumberText where
  negative : Bool
  whole : List Char
  places : List Char
  power : List Char

namespace NumberText

def fractionText (places : List Char) : List Char :=
  if places.isEmpty then [] else '.' :: places

theorem fractionText_of_ne_nil {places : List Char} (h : places ≠ []) :
    fractionText places = '.' :: places := by
  simp [fractionText, h]

def fraction (t : NumberText) : List Char := fractionText t.places

def text (t : NumberText) : List Char :=
  Pattern.signText t.negative ++ (t.whole ++ (t.fraction ++ t.power))

structure IsFloat (t : NumberText) : Prop where
  whole : Pattern.IsWhole t.whole
  places : AreDigits t.places
  power : t.power = [] ∨ Pattern.IsPower t.power
  marked : t.places ≠ [] ∨ t.power ≠ []

end NumberText

namespace Pattern

theorem IsPower.endsDigits {x rest : List Char} (h : IsPower x) : EndsDigits (x ++ rest) := by
  obtain ⟨e, mark, ds, rfl, he, -⟩ := h
  intro c hc
  obtain rfl := Option.some.inj hc
  rcases he with rfl | rfl <;> rfl

theorem IsPower.fraction_eq_none {x rest : List Char} (h : IsPower x) :
    fraction (x ++ rest) = none := by
  obtain ⟨e, mark, ds, rfl, rfl | rfl, -⟩ := h <;> rfl

theorem endsDigits_power {x rest : List Char} (hx : x = [] ∨ IsPower x) (hrest : EndsDigits rest) :
    EndsDigits (x ++ rest) := by
  rcases hx with rfl | hx
  · exact hrest
  · exact hx.endsDigits

theorem exponent_eq_none {rest : List Char} (h : endsNumber rest = true) : exponent rest = none := by
  cases rest with
  | nil => rfl
  | cons c rest =>
    simp only [endsNumber, isNameRest, isNameStart, Bool.not_eq_true', Bool.or_eq_false_iff] at h
    have hc : ¬(c = 'e' ∨ c = 'E') := by
      rintro (rfl | rfl)
      · exact absurd h.1.1.1.2 (by decide)
      · exact absurd h.1.1.2 (by decide)
    simp [exponent, hc]

theorem fractionOrExponent_spec {cs : List Char} {n : Nat} (h : fractionOrExponent cs = some n) :
    ∃ places power rest, cs = NumberText.fractionText places ++ (power ++ rest) ∧
      n = (NumberText.fractionText places).length + power.length ∧
      AreDigits places ∧ (power = [] ∨ IsPower power) ∧ (places ≠ [] ∨ power ≠ []) := by
  unfold fractionOrExponent at h
  split at h
  · rename_i k hk
    obtain rfl := Option.some.inj h
    obtain ⟨ds, rest, rfl, rfl, hne, hds, hrest⟩ := fraction_iff.mp hk
    have hdot := NumberText.fractionText_of_ne_nil hne
    have hlength : (NumberText.fractionText ds).length = 1 + ds.length := by
      rw [hdot, List.length_cons, Nat.add_comm]
    rw [← hlength, ← List.cons_append, ← hdot, List.drop_left]
    cases hx : exponent rest with
    | none => exact ⟨ds, [], rest, by simp, by simp, hds, .inl rfl, .inl hne⟩
    | some m =>
      obtain ⟨x, rest, rfl, rfl, hpower, hrest⟩ := exponent_iff.mp hx
      exact ⟨ds, x, rest, rfl, rfl, hds, .inr hpower, .inl hne⟩
  · obtain ⟨x, rest, rfl, rfl, hpower, hrest⟩ := exponent_iff.mp h
    refine ⟨[], x, rest, rfl, by simp [NumberText.fractionText], nofun, .inr hpower,
      .inr fun hnil => ?_⟩
    obtain ⟨e, mark, ds, rfl, -⟩ := hpower
    exact nomatch hnil

theorem fractionOrExponent_complete {t : NumberText} {rest : List Char} (ht : t.IsFloat)
    (hrest : endsNumber rest = true) :
    fractionOrExponent (t.fraction ++ (t.power ++ rest)) =
      some (t.fraction.length + t.power.length) := by
  have hends : EndsDigits (t.power ++ rest) :=
    endsDigits_power ht.power (endsDigits_of_endsNumber hrest)
  have hexponent : (exponent (t.power ++ rest)).getD 0 = t.power.length := by
    rcases ht.power with hnil | hpower
    · simp [hnil, exponent_eq_none hrest]
    · rw [exponent_iff.mpr ⟨_, rest, rfl, rfl, hpower, endsDigits_of_endsNumber hrest⟩]
      rfl
  by_cases hplaces : t.places = []
  · have hpower : IsPower t.power :=
      ht.power.resolve_left (ht.marked.resolve_left fun h => h hplaces)
    have hnil : t.fraction = [] := by rw [NumberText.fraction, hplaces]; rfl
    unfold fractionOrExponent
    simp only [hnil, List.nil_append, hpower.fraction_eq_none, List.length_nil, Nat.zero_add]
    exact exponent_iff.mpr ⟨_, rest, rfl, rfl, hpower, endsDigits_of_endsNumber hrest⟩
  · have hfraction : t.fraction = '.' :: t.places := NumberText.fractionText_of_ne_nil hplaces
    have hsome : fraction (t.fraction ++ (t.power ++ rest)) = some t.fraction.length := by
      rw [hfraction]
      exact fraction_iff.mpr ⟨_, _, rfl, Nat.add_comm _ _, hplaces, ht.places, hends⟩
    unfold fractionOrExponent
    simp only [hsome, List.drop_left, hexponent]

theorem float_iff {cs : List Char} {n : Nat} : float cs = some n ↔
    ∃ t : NumberText, ∃ rest, cs = t.text ++ rest ∧ n = t.text.length ∧ t.IsFloat ∧
      endsNumber rest = true := by
  constructor
  · intro h
    obtain ⟨hpart, hends⟩ := Option.filter_eq_some_iff.mp h
    obtain ⟨k, hk, hpart⟩ := Option.bind_eq_some_iff.mp hpart
    obtain ⟨m, hm, rfl⟩ := Option.map_eq_some_iff.mp hpart
    obtain ⟨negative, ds, tail, rfl, rfl, hds, -⟩ := integerPart_iff.mp hk
    rw [← List.length_append, ← List.append_assoc, List.drop_left] at hm
    obtain ⟨places, power, rest, rfl, rfl, hplaces, hpower, hmarked⟩ := fractionOrExponent_spec hm
    have htext : NumberText.text ⟨negative, ds, places, power⟩ =
        signText negative ++ (ds ++ (NumberText.fractionText places ++ power)) := rfl
    refine ⟨⟨negative, ds, places, power⟩, rest, by simp [htext], by simp [htext]; omega,
      ⟨hds, hplaces, hpower, hmarked⟩, ?_⟩
    rw [← List.length_append, ← List.append_assoc, ← List.append_assoc, ← List.length_append,
      ← List.length_append] at hends
    simpa using hends
  · rintro ⟨t, rest, rfl, rfl, ht, hrest⟩
    refine Option.filter_eq_some_iff.mpr ⟨?_, by simpa using hrest⟩
    have hends : EndsDigits (t.fraction ++ (t.power ++ rest)) := by
      by_cases hplaces : t.places = []
      · have hnil : t.fraction = [] := by rw [NumberText.fraction, hplaces]; rfl
        rw [hnil, List.nil_append]
        exact endsDigits_power ht.power (endsDigits_of_endsNumber hrest)
      · rw [NumberText.fraction, NumberText.fractionText_of_ne_nil hplaces]
        intro c hc
        obtain rfl := Option.some.inj hc
        rfl
    have hpart : integerPart (t.text ++ rest) =
        some ((signText t.negative).length + t.whole.length) := by
      refine integerPart_iff.mpr ⟨t.negative, t.whole, t.fraction ++ (t.power ++ rest), ?_, rfl,
        ht.whole, .inr hends⟩
      simp [NumberText.text]
    have hdrop : (t.text ++ rest).drop ((signText t.negative).length + t.whole.length) =
        t.fraction ++ (t.power ++ rest) := by
      rw [← List.length_append]
      have htext : t.text ++ rest =
          (signText t.negative ++ t.whole) ++ (t.fraction ++ (t.power ++ rest)) := by
        simp [NumberText.text]
      rw [htext, List.drop_left]
    rw [hpart, Option.bind_some, hdrop, fractionOrExponent_complete ht hrest]
    simp [NumberText.text, Nat.add_assoc]

end Pattern

end GraphQLDoc
