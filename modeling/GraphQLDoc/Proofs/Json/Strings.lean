import GraphQLDoc.Json.Reader
import GraphQLDoc.Json.Writer
import GraphQLDoc.Proofs.Number.Digits

/-!
JSON strings are read back. A character is written as itself, as a short escape, as the escape of
its unit, or as those of its two surrogates; each is one step of the reader, which gives the
character again.
-/
namespace GraphQLDoc.Json

variable {strict : Bool} {rest : List Char}

theorem isHighSurrogate_iff {n : Nat} : isHighSurrogate n = true ↔ 0xD800 ≤ n ∧ n < 0xDC00 := by
  simp [isHighSurrogate]

theorem isLowSurrogate_iff {n : Nat} : isLowSurrogate n = true ↔ 0xDC00 ≤ n ∧ n < 0xE000 := by
  simp [isLowSurrogate]

theorem unit?_hexDigits {n : Nat} (hn : n < 0x10000) (hrest : rest ≠ []) :
    unit? (hexDigits 4 n ++ rest) = some n := by
  obtain ⟨hlength, hdigits, hnumber⟩ := hexDigits_four hn
  have htake : (hexDigits 4 n ++ rest).take 4 = hexDigits 4 n := by
    rw [List.take_left' hlength]
  have hpos := List.length_pos_iff.mpr hrest
  unfold unit?
  rw [htake, hnumber, if_pos]
  exact ⟨by rw [List.length_append]; omega, List.all_eq_true.mpr hdigits⟩

theorem drop_hexDigits {n : Nat} (hn : n < 0x10000) (rest : List Char) :
    (hexDigits 4 n ++ rest).drop 4 = rest := by
  rw [List.drop_left' (hexDigits_four hn).1]

theorem length_unitEscape {n : Nat} (hn : n < 0x10000) : (unitEscape n).length = 6 := by
  rw [unitEscape, List.length_cons, List.length_cons, (hexDigits_four hn).1]

/-- The escape of a unit that is no surrogate. -/
theorem unitStep_unit {n : Nat} (hn : n < 0x10000) (hhigh : isHighSurrogate n = false)
    (hrest : rest ≠ []) : unitStep (hexDigits 4 n ++ rest) = .point n 6 := by
  unfold unitStep
  rw [unit?_hexDigits hn hrest, drop_hexDigits hn]
  dsimp only
  split
  · simp [hhigh]
  · rfl

/-- The escapes of the two surrogates of a character. -/
theorem unitStep_pair {high low : Nat} (hhigh : isHighSurrogate high = true)
    (hlow : isLowSurrogate low = true) (hrest : rest ≠ []) :
    unitStep (hexDigits 4 high ++ (unitEscape low ++ rest)) =
      .point (joinSurrogates high low) 12 := by
  have hhigh' : high < 0x10000 := by
    have h := isHighSurrogate_iff.mp hhigh
    omega
  have hlow' : low < 0x10000 := by
    have h := isLowSurrogate_iff.mp hlow
    omega
  have hlength : 4 < (hexDigits 4 low ++ rest).length := by
    have hpos := List.length_pos_iff.mpr hrest
    rw [List.length_append, (hexDigits_four hlow').1]
    omega
  unfold unitStep
  rw [unit?_hexDigits hhigh' (by simp [unitEscape]), drop_hexDigits hhigh']
  simp only [unitEscape, List.cons_append, hhigh, hlength, and_self, if_true,
    unit?_hexDigits hlow' hrest, hlow]

theorem toNat_valid (c : Char) : c.toNat < 0xD800 ∨ 0xDFFF < c.toNat ∧ c.toNat < 0x110000 :=
  c.valid

/-- A printable character that is no quote and no backslash stands for itself. -/
theorem stringStep_plain {c : Char} (hcontrol : 0x20 ≤ c.toNat) (hquote : c ≠ '"')
    (hbackslash : c ≠ '\\') : stringStep strict (c :: rest) = .point c.toNat 1 := by
  unfold stringStep
  split
  · rename_i heq
    cases heq
  · rename_i heq
    exact absurd (List.cons.inj heq).1 hquote
  · rename_i heq
    exact absurd (List.cons.inj heq).1 hbackslash
  · rename_i heq
    exact absurd (List.cons.inj heq).1 hbackslash
  · rename_i heq
    exact absurd (List.cons.inj heq).1 hbackslash
  · rename_i heq
    obtain ⟨rfl, -⟩ := List.cons.inj heq
    exact if_neg (by omega)

theorem stringStep_pair {high low : Nat} (hhigh : isHighSurrogate high = true)
    (hlow : isLowSurrogate low = true) (hrest : rest ≠ []) :
    stringStep strict (unitEscape high ++ unitEscape low ++ rest) =
      .point (joinSurrogates high low) 12 := by
  rw [List.append_assoc]
  exact unitStep_pair hhigh hlow hrest

theorem joinSurrogates_units {n : Nat} (h : 0x10000 ≤ n) :
    joinSurrogates (0xD800 + (n - 0x10000) / 0x400) (0xDC00 + (n - 0x10000) % 0x400) = n := by
  unfold joinSurrogates
  omega

/-- The text of a character is read in one step. -/
theorem stringStep_escapePoint (c : Char) (hrest : rest ≠ []) :
    stringStep strict (escapePoint c.toNat ++ rest) =
      .point c.toNat (escapePoint c.toNat).length := by
  have hvalid := toNat_valid c
  generalize hn : c.toNat = n at hvalid
  fun_cases escapePoint n with
  | case1 h => exact congrArg (StringStep.point · 2) h.symm
  | case2 _ h => exact congrArg (StringStep.point · 2) h.symm
  | case3 _ _ h => exact congrArg (StringStep.point · 2) h.symm
  | case4 _ _ _ h => exact congrArg (StringStep.point · 2) h.symm
  | case5 _ _ _ _ h => exact congrArg (StringStep.point · 2) h.symm
  | case6 _ _ _ _ _ h => exact congrArg (StringStep.point · 2) h.symm
  | case7 _ _ _ _ _ _ h => exact congrArg (StringStep.point · 2) h.symm
  | case8 hquote hbackslash _ _ _ _ _ hprintable =>
    have hquote : c ≠ '"' := fun h => hquote (hn.symm.trans (congrArg Char.toNat h))
    have hbackslash : c ≠ '\\' := fun h => hbackslash (hn.symm.trans (congrArg Char.toNat h))
    have hstep := @stringStep_plain strict rest c (by omega) hquote hbackslash
    rw [← hn, Char.ofNat_toNat]
    exact hstep
  | case9 _ _ _ _ _ _ _ _ hunit =>
    rw [length_unitEscape hunit]
    refine unitStep_unit hunit (Bool.eq_false_iff.mpr fun hhigh => ?_) hrest
    have hhigh := isHighSurrogate_iff.mp hhigh
    omega
  | case10 _ _ _ _ _ _ _ _ hunit =>
    have hhigh : isHighSurrogate (0xD800 + (n - 0x10000) / 0x400) = true :=
      isHighSurrogate_iff.mpr (by omega)
    have hlow : isLowSurrogate (0xDC00 + (n - 0x10000) % 0x400) = true :=
      isLowSurrogate_iff.mpr (by omega)
    rw [stringStep_pair hhigh hlow hrest, joinSurrogates_units (by omega), List.length_append,
      length_unitEscape (by omega), length_unitEscape (by omega)]

theorem escapePoint_ne_nil (n : Nat) : escapePoint n ≠ [] := by
  fun_cases escapePoint n <;> exact List.cons_ne_nil _ _

/-- The body of a string is read up to the closing quote. -/
theorem stringBody_escaped {opening : Position} (cs : List Char) {fuel : Nat} {points : List Nat}
    {i : Input} (htext : i.text = (cs.map Char.toNat).flatMap escapePoint ++ '"' :: rest)
    (hfuel : cs.length < fuel) :
    ∃ j, stringBody strict opening fuel points i = .ok (points.reverse ++ cs.map Char.toNat, j) ∧
      j.text = rest := by
  induction cs generalizing fuel points i with
  | nil =>
    obtain ⟨n, rfl⟩ := Nat.exists_eq_add_of_lt hfuel
    refine ⟨i.drop 1, ?_, by rw [Input.drop_text, htext]; rfl⟩
    rw [show ([] : List Char).length + n + 1 = n + 1 by simp, stringBody, htext]
    simp [stringStep]
  | cons c cs ih =>
    cases fuel with
    | zero => exact absurd hfuel (Nat.not_lt_zero _)
    | succ fuel =>
      rw [List.map_cons, List.flatMap_cons, List.append_assoc] at htext
      have hstep := @stringStep_escapePoint strict _ c
        (show (cs.map Char.toNat).flatMap escapePoint ++ '"' :: rest ≠ [] by simp)
      obtain ⟨j, hj, hrest⟩ := @ih fuel (c.toNat :: points) (i.drop (escapePoint c.toNat).length)
        (by rw [Input.drop_text, htext, List.drop_left]) (Nat.lt_of_succ_lt_succ hfuel)
      refine ⟨j, ?_, hrest⟩
      rw [stringBody, htext, hstep]
      dsimp only
      rw [hj, List.reverse_cons, List.append_assoc, List.singleton_append, List.map_cons]

theorem length_le_flatMap (ns : List Nat) : ns.length ≤ (ns.flatMap escapePoint).length := by
  induction ns with
  | nil => exact Nat.le_refl 0
  | cons n ns ih =>
    have hpos := List.length_pos_iff.mpr (escapePoint_ne_nil n)
    rw [List.flatMap_cons, List.length_append, List.length_cons]
    omega

theorem textOfPoints?_cons (n : Nat) (ns : List Nat) : textOfPoints? (n :: ns) =
    if h : n.isValidChar then (textOfPoints? ns).map (Char.ofNatAux n h :: ·) else none :=
  rfl

theorem textOfPoints?_toNat (cs : List Char) : textOfPoints? (cs.map Char.toNat) = some cs := by
  induction cs with
  | nil => rfl
  | cons c cs ih =>
    have hvalid : c.toNat.isValidChar := c.valid
    rw [List.map_cons, textOfPoints?_cons, dif_pos hvalid, ih]
    rfl

/-- A text is read back. -/
theorem readString_stringLiteral (s : String) {i : Input}
    (htext : i.text = stringLiteral (JsonString.text s).points ++ rest) :
    ∃ j, readString strict i = .ok (.text s, j) ∧ j.text = rest := by
  have hbody : (i.drop 1).text = (s.toList.map Char.toNat).flatMap escapePoint ++ '"' :: rest := by
    rw [Input.drop_text, htext, stringLiteral, JsonString.points]
    simp
  have hfuel : s.toList.length < i.text.length + 1 := by
    have hle := length_le_flatMap (s.toList.map Char.toNat)
    rw [htext, stringLiteral, JsonString.points]
    simp only [List.length_map, List.length_append, List.length_cons, List.length_nil] at hle ⊢
    omega
  obtain ⟨j, hj, hrest⟩ := @stringBody_escaped strict rest i.position s.toList _ [] _ hbody hfuel
  refine ⟨j, ?_, hrest⟩
  rw [readString, hj]
  simp [bind, Except.bind, pure, Except.pure, JsonString.ofPoints, textOfPoints?_toNat]

end GraphQLDoc.Json
