import GraphQLDoc.Literal.Quoted
import GraphQLDoc.Proofs.Json.Strings
import GraphQLDoc.Proofs.Token.Follow

/-!
String literals as UTF-16. The characters and escapes of a literal name a sequence of units, and the
literal has a value exactly if the surrogates among them come in pairs, wherever they are written: as
an escape each, or as a character outside the first plane. The value is the text that the units are.
-/
namespace GraphQLDoc

/-- Each high surrogate has a low one behind it, and each low one a high one before it. -/
inductive ArePaired : List Nat → Prop where
  | nil : ArePaired []
  | single {n : Nat} {ns : List Nat} (noHigh : isHighSurrogate n = false)
      (noLow : isLowSurrogate n = false) (rest : ArePaired ns) : ArePaired (n :: ns)
  | pair {high low : Nat} {ns : List Nat} (isHigh : isHighSurrogate high = true)
      (isLow : isLowSurrogate low = true) (rest : ArePaired ns) : ArePaired (high :: low :: ns)

namespace StringLiteral

/-- The body of a literal with its closing quote, and the units that it denotes. -/
inductive Denotes : List Char → List Nat → Prop where
  | close : Denotes ['"'] []
  | unit {a b c d : Char} {rest : List Char} {units : List Nat}
      (hex : [a, b, c, d].all isHexDigit = true) (behind : Denotes rest units) :
      Denotes ('\\' :: 'u' :: a :: b :: c :: d :: rest) (Json.hexNumber [a, b, c, d] :: units)
  | short {c d : Char} {rest : List Char} {units : List Nat} (escape : Json.shortEscape? c = some d)
      (behind : Denotes rest units) : Denotes ('\\' :: c :: rest) (utf16Units d ++ units)
  | plain {c : Char} {rest : List Char} {units : List Nat} (hc : c ∉ ['"', '\\', '\n', '\r'])
      (behind : Denotes rest units) : Denotes (c :: rest) (utf16Units c ++ units)

theorem exists_denotes {x : List Char} (h : IsStringBody x) : ∃ units, Denotes x units := by
  induction h with
  | close => exact ⟨_, .close⟩
  | unicode hex _ ih =>
    obtain ⟨units, h⟩ := ih
    exact ⟨_, .unit hex h⟩
  | @escape c rest hc _ ih =>
    obtain ⟨units, h⟩ := ih
    have hshort : (['"', '\\', '/', 'b', 'f', 'n', 'r', 't'].all
        fun c => (Json.shortEscape? c).isSome) = true := by decide
    obtain ⟨d, hd⟩ := Option.isSome_iff_exists.mp (List.all_eq_true.mp hshort c hc)
    exact ⟨_, .short hd h⟩
  | plain hc _ ih =>
    obtain ⟨units, h⟩ := ih
    exact ⟨_, .plain hc h⟩

end StringLiteral

theorem Token.IsLexeme.written_string {t : Token} (h : t.IsLexeme) (ht : t.terminal = .string) :
    ∃ body, t.text = '"' :: body ∧ IsStringBody body := by
  obtain ⟨text, n, hn, htext⟩ := h
  rw [ht] at hn
  obtain ⟨x, rest, rfl, rfl, hx⟩ := Pattern.string_iff.mp hn
  have hlength : x.length + 1 = ('"' :: x).length := rfl
  rw [hlength, List.take_left] at htext
  exact ⟨x, htext, hx⟩

/-! Pairs. -/

theorem isLowSurrogate_of_high {n : Nat} (h : isHighSurrogate n = true) : isLowSurrogate n = false := by
  simp only [isHighSurrogate, isLowSurrogate, Bool.and_eq_true, decide_eq_true_eq,
    Bool.and_eq_false_iff, decide_eq_false_iff_not] at *
  omega

theorem isValidChar_iff {n : Nat} (h : n < 0x10000) :
    n.isValidChar ↔ isHighSurrogate n = false ∧ isLowSurrogate n = false := by
  simp only [isHighSurrogate, isLowSurrogate, Nat.isValidChar, Bool.and_eq_false_iff,
    decide_eq_false_iff_not]
  omega

theorem isValidChar_join {high low : Nat} (hhigh : isHighSurrogate high = true)
    (hlow : isLowSurrogate low = true) : (joinSurrogates high low).isValidChar := by
  have hhigh := Json.isHighSurrogate_iff.mp hhigh
  have hlow := Json.isLowSurrogate_iff.mp hlow
  unfold joinSurrogates Nat.isValidChar
  omega

/-- The units of a code point. -/
def pointUnits (n : Nat) : List Nat :=
  if n < 0x10000 then [n] else [0xD800 + (n - 0x10000) / 0x400, 0xDC00 + (n - 0x10000) % 0x400]

theorem pointUnits_join {high low : Nat} (hhigh : isHighSurrogate high = true)
    (hlow : isLowSurrogate low = true) : pointUnits (joinSurrogates high low) = [high, low] := by
  have hhigh := Json.isHighSurrogate_iff.mp hhigh
  have hlow := Json.isLowSurrogate_iff.mp hlow
  have hlarge : ¬ joinSurrogates high low < 0x10000 := by
    unfold joinSurrogates
    omega
  have hfirst : 0xD800 + (joinSurrogates high low - 0x10000) / 0x400 = high := by
    unfold joinSurrogates
    omega
  have hsecond : 0xDC00 + (joinSurrogates high low - 0x10000) % 0x400 = low := by
    unfold joinSurrogates
    omega
  rw [pointUnits, if_neg hlarge, hfirst, hsecond]

namespace ArePaired

variable {n high low : Nat} {ns : List Nat}

theorem cons_iff (h : isHighSurrogate n = false) :
    ArePaired (n :: ns) ↔ isLowSurrogate n = false ∧ ArePaired ns := by
  constructor
  · intro hp
    cases hp with
    | single _ noLow rest => exact ⟨noLow, rest⟩
    | pair isHigh => exact nomatch isHigh.symm.trans h
  · exact fun ⟨hlow, hp⟩ => .single h hlow hp

theorem pair_iff (hhigh : isHighSurrogate high = true) (hlow : isLowSurrogate low = true) :
    ArePaired (high :: low :: ns) ↔ ArePaired ns := by
  constructor
  · intro hp
    cases hp with
    | single noHigh => exact nomatch hhigh.symm.trans noHigh
    | pair _ _ rest => exact rest
  · exact .pair hhigh hlow

/-- A high surrogate without its partner. -/
theorem not_cons (hhigh : isHighSurrogate high = true)
    (hnext : ∀ low ∈ ns.head?, isLowSurrogate low = false) : ¬ArePaired (high :: ns) := by
  intro hp
  cases hp with
  | single noHigh => exact nomatch hhigh.symm.trans noHigh
  | pair _ isLow => exact nomatch isLow.symm.trans (hnext _ rfl)

/-- The units of a character are a pair or no surrogates. -/
theorem utf16Units_iff (c : Char) : ArePaired (utf16Units c ++ ns) ↔ ArePaired ns := by
  have hvalid := Json.toNat_valid c
  unfold utf16Units
  dsimp only
  split
  · rename_i hsmall
    obtain ⟨hhigh, hlow⟩ := (isValidChar_iff hsmall).mp c.valid
    rw [List.singleton_append, cons_iff hhigh]
    simp [hlow]
  · refine pair_iff (Json.isHighSurrogate_iff.mpr ?_) (Json.isLowSurrogate_iff.mpr ?_) <;> omega

end ArePaired

theorem head?_utf16Units (c : Char) (ns : List Nat) :
    ∀ n ∈ (utf16Units c ++ ns).head?, isLowSurrogate n = false := by
  have hvalid := Json.toNat_valid c
  intro n hn
  unfold utf16Units at hn
  dsimp only at hn
  split at hn
  · rename_i hsmall
    obtain rfl := Option.some.inj hn
    exact ((isValidChar_iff hsmall).mp c.valid).2
  · obtain rfl := Option.some.inj hn
    refine isLowSurrogate_of_high (Json.isHighSurrogate_iff.mpr ?_)
    omega

/-- A list of code points is a text if none of them is a surrogate. -/
theorem textOfPoints?_isSome {ns : List Nat} :
    (textOfPoints? ns).isSome = true ↔ ∀ n ∈ ns, n.isValidChar := by
  induction ns with
  | nil => exact iff_of_true rfl (List.forall_mem_nil _)
  | cons n ns ih =>
    rw [Json.textOfPoints?_cons, List.forall_mem_cons, ← ih]
    by_cases h : n.isValidChar
    · rw [dif_pos h, Option.isSome_map, and_iff_right h]
    · rw [dif_neg h]
      exact iff_of_false Bool.false_ne_true fun hall => h hall.1

theorem map_toNat_of_textOfPoints? {ns : List Nat} {s : List Char} (h : textOfPoints? ns = some s) :
    s.map Char.toNat = ns := by
  induction ns generalizing s with
  | nil =>
    obtain rfl := Option.some.inj h
    rfl
  | cons n ns ih =>
    rw [Json.textOfPoints?_cons] at h
    by_cases hn : n.isValidChar
    · rw [dif_pos hn] at h
      obtain ⟨s, hs, rfl⟩ := Option.map_eq_some_iff.mp h
      rw [List.map_cons, ih hs]
      rfl
    · rw [dif_neg hn] at h
      cases h

theorem hexValue_lt {c : Char} (h : isHexDigit c = true) : hexValue c < 16 := by
  simp only [isHexDigit, Bool.or_eq_true, Bool.and_eq_true, decide_eq_true_eq] at h
  have hzero : '0'.toNat = 48 := rfl
  have hsmall : 'a'.toNat = 97 := rfl
  have hlarge : 'A'.toNat = 65 := rfl
  unfold hexValue
  split
  · rename_i hdigit
    simp only [isDigit, Bool.and_eq_true, decide_eq_true_eq] at hdigit
    have hhigh : c.toNat ≤ 57 := hdigit.2
    omega
  · rename_i hdigit
    split
    · rename_i hletter
      have hhigh : c.toNat ≤ 102 := by
        rcases h with (h | h) | h
        · exact absurd h hdigit
        · exact h.2
        · have hhigh : c.toNat ≤ 70 := h.2
          omega
      omega
    · rename_i hletter
      have hhigh : c.toNat ≤ 70 := by
        rcases h with (h | h) | h
        · exact absurd h hdigit
        · exact absurd h.1 hletter
        · exact h.2
      omega

namespace Json

variable {rest : List Char} {units : List Nat}

theorem hexNumber_lt {a b c d : Char} (h : [a, b, c, d].all isHexDigit = true) :
    hexNumber [a, b, c, d] < 0x10000 := by
  simp only [List.all_cons, List.all_nil, Bool.and_eq_true, Bool.and_true] at h
  obtain ⟨ha, hb, hc, hd⟩ := h
  have ha := hexValue_lt ha
  have hb := hexValue_lt hb
  have hc := hexValue_lt hc
  have hd := hexValue_lt hd
  simp only [hexNumber, List.foldl_cons, List.foldl_nil]
  omega

theorem unit?_append {a b c d : Char} (h : [a, b, c, d].all isHexDigit = true) (hrest : rest ≠ []) :
    unit? (a :: b :: c :: d :: rest) = some (hexNumber [a, b, c, d]) := by
  have hpos := List.length_pos_iff.mpr hrest
  unfold unit?
  rw [if_pos]
  · rfl
  · exact ⟨by simp only [List.length_cons]; omega, h⟩

/-- An escaped unit that is no part of an escaped pair. -/
theorem unitStep_single {a b c d : Char} (h : [a, b, c, d].all isHexDigit = true) (hrest : rest ≠ [])
    (halone : isHighSurrogate (hexNumber [a, b, c, d]) = true → ∀ e f g i more,
      rest = '\\' :: 'u' :: e :: f :: g :: i :: more → [e, f, g, i].all isHexDigit = true →
        more ≠ [] → isLowSurrogate (hexNumber [e, f, g, i]) = false)
    (hwhole : ∀ more, rest = '\\' :: 'u' :: more → ∃ e f g i tail, more = e :: f :: g :: i :: tail ∧
      [e, f, g, i].all isHexDigit = true ∧ tail ≠ []) :
    unitStep (a :: b :: c :: d :: rest) = .point (hexNumber [a, b, c, d]) 6 := by
  unfold unitStep
  rw [unit?_append h hrest]
  dsimp only [List.drop_succ_cons, List.drop_zero]
  split
  · rename_i more hmore
    split
    · rename_i hpair
      obtain ⟨e, f, g, i, tail, rfl, hex, htail⟩ := hwhole more hmore
      rw [unit?_append hex htail]
      simp [halone hpair.1 e f g i tail hmore hex htail]
    · rfl
  · rfl

theorem unitStep_join {a b c d e f g i : Char} (h : [a, b, c, d].all isHexDigit = true)
    (h' : [e, f, g, i].all isHexDigit = true) (hrest : rest ≠ [])
    (hhigh : isHighSurrogate (hexNumber [a, b, c, d]) = true)
    (hlow : isLowSurrogate (hexNumber [e, f, g, i]) = true) :
    unitStep (a :: b :: c :: d :: '\\' :: 'u' :: e :: f :: g :: i :: rest) =
      .point (joinSurrogates (hexNumber [a, b, c, d]) (hexNumber [e, f, g, i])) 12 := by
  have hpos := List.length_pos_iff.mpr hrest
  have hlength : 4 < (e :: f :: g :: i :: rest).length := by
    simp only [List.length_cons]
    omega
  unfold unitStep
  rw [unit?_append h (List.cons_ne_nil _ _)]
  simp only [List.drop_succ_cons, List.drop_zero, hhigh, hlength, and_self, if_true,
    unit?_append h' hrest, hlow]

end Json

namespace StringLiteral

variable {x rest : List Char} {units : List Nat}

theorem Denotes.ne_nil (h : Denotes x units) : x ≠ [] := by
  cases h <;> exact List.cons_ne_nil _ _

/-- Where an escaped unit is in front, it is the first one. -/
theorem Denotes.unit_front {more : List Char} (h : Denotes x units)
    (hfront : x ++ rest = '\\' :: 'u' :: more) : ∃ a b c d tail units',
      x = '\\' :: 'u' :: a :: b :: c :: d :: tail ∧ [a, b, c, d].all isHexDigit = true ∧
        Denotes tail units' ∧ units = Json.hexNumber [a, b, c, d] :: units' := by
  cases h with
  | close => exact nomatch (List.cons.inj hfront).1
  | unit hex behind => exact ⟨_, _, _, _, _, _, rfl, hex, behind, rfl⟩
  | short escape =>
    obtain rfl := (List.cons.inj (List.cons.inj hfront).2).1
    exact nomatch escape
  | plain hc =>
    obtain rfl := (List.cons.inj hfront).1
    simp at hc

/-- A low surrogate comes first only as an escaped unit. -/
theorem Denotes.low_front {n : Nat} (h : Denotes x units) (hn : n ∈ units.head?)
    (hlow : isLowSurrogate n = true) : ∃ a b c d tail units',
      x = '\\' :: 'u' :: a :: b :: c :: d :: tail ∧ [a, b, c, d].all isHexDigit = true ∧
        Denotes tail units' ∧ units = n :: units' ∧ Json.hexNumber [a, b, c, d] = n := by
  have hother {c : Char} {ns : List Nat} (hn : n ∈ (utf16Units c ++ ns).head?) : False :=
    nomatch hlow.symm.trans (head?_utf16Units c ns n hn)
  cases h with
  | close => exact nomatch hn
  | unit hex behind =>
    obtain rfl := Option.some.inj hn
    exact ⟨_, _, _, _, _, _, rfl, hex, behind, rfl, rfl⟩
  | short => exact (hother hn).elim
  | plain => exact (hother hn).elim

/-- The reader gives the code points for the body that have its units, all of them characters if the
units are paired. -/
def IsRead (x : List Char) (units : List Nat) : Prop :=
  ∀ (opening : Position) (fuel : Nat) (points : List Nat) (i : Input) (rest : List Char),
    i.text = x ++ rest → x.length ≤ fuel → ∃ ps j,
      Json.stringBody false opening fuel points i = .ok (points.reverse ++ ps, j) ∧ j.text = rest ∧
        ps.flatMap pointUnits = units ∧ (ArePaired units ↔ ∀ p ∈ ps, p.isValidChar)

theorem isRead_close : IsRead ['"'] [] := by
  intro opening fuel points i rest htext hfuel
  obtain ⟨n, rfl⟩ := Nat.exists_eq_succ_of_ne_zero (Nat.one_le_iff_ne_zero.mp hfuel)
  refine ⟨[], i.drop 1, ?_, by rw [Input.drop_text, htext]; rfl, rfl, iff_of_true .nil nofun⟩
  rw [Json.stringBody, htext, List.append_nil]
  rfl

theorem IsRead.step {units' : List Nat} {n : Nat} (h : IsRead x units) (front : List Char)
    (hfront : front ≠ [])
    (hstep : ∀ rest, Json.stringStep false (front ++ (x ++ rest)) = .point n front.length)
    (hunits : units' = pointUnits n ++ units)
    (hpaired : ArePaired units' ↔ n.isValidChar ∧ ArePaired units) : IsRead (front ++ x) units' := by
  intro opening fuel points i rest htext hfuel
  have hpos := List.length_pos_iff.mpr hfront
  rw [List.length_append] at hfuel
  obtain ⟨fuel, rfl⟩ : ∃ m, fuel = m + 1 := ⟨fuel - 1, by omega⟩
  rw [List.append_assoc] at htext
  obtain ⟨ps, j, hread, hrest, hpoints, hvalid⟩ := h opening fuel (n :: points) (i.drop front.length) rest
    (by rw [Input.drop_text, htext, List.drop_left]) (by omega)
  refine ⟨n :: ps, j, ?_, hrest, by rw [List.flatMap_cons, hpoints, hunits],
    by rw [hpaired, hvalid, List.forall_mem_cons]⟩
  rw [Json.stringBody, htext, hstep]
  dsimp only
  rw [hread, List.reverse_cons, List.append_assoc, List.singleton_append]

theorem stringStep_short {c d : Char} (h : Json.shortEscape? c = some d) (rest : List Char) :
    Json.stringStep false ('\\' :: c :: rest) = .point d.toNat 2 := by
  have hu : c ≠ 'u' := by
    rintro rfl
    exact nomatch h
  unfold Json.stringStep
  split <;> grind

theorem stringStep_plain {c : Char} (hc : c ∉ ['"', '\\', '\n', '\r']) (rest : List Char) :
    Json.stringStep false (c :: rest) = .point c.toNat 1 := by
  unfold Json.stringStep
  split <;> grind

theorem Denotes.isRead (h : Denotes x units) : IsRead x units := by
  induction hsize : x.length using Nat.strong_induction_on generalizing x units with
  | h size ih =>
    subst hsize
    cases h with
    | close => exact isRead_close
    | @short c d tail units' escape behind =>
      refine (ih _ (by simp only [List.length_cons]; omega) behind rfl).step ['\\', c]
        nofun (fun rest => stringStep_short escape _) rfl ?_
      rw [ArePaired.utf16Units_iff]
      exact (and_iff_right d.valid).symm
    | @plain c tail units' hc behind =>
      refine (ih _ (by simp only [List.length_cons]; omega) behind rfl).step [c]
        nofun (fun rest => stringStep_plain hc _) rfl ?_
      rw [ArePaired.utf16Units_iff]
      exact (and_iff_right c.valid).symm
    | @unit a b c d tail units' hex behind =>
      have hsmall := Json.hexNumber_lt hex
      by_cases hjoin : isHighSurrogate (Json.hexNumber [a, b, c, d]) = true ∧
          ∃ low ∈ units'.head?, isLowSurrogate low = true
      · -- the two escapes are one step of the reader
        obtain ⟨hhigh, low, hfirst, hlow⟩ := hjoin
        obtain ⟨e, f, g, i, tail', units'', rfl, hex', behind', rfl, rfl⟩ :=
          behind.low_front hfirst hlow
        refine (ih _ (by simp only [List.length_cons]; omega) behind' rfl).step
          ['\\', 'u', a, b, c, d, '\\', 'u', e, f, g, i]
          (n := joinSurrogates (Json.hexNumber [a, b, c, d]) (Json.hexNumber [e, f, g, i])) nofun
          (fun rest => ?_) (by rw [pointUnits_join hhigh hlow]; rfl) ?_
        · exact Json.unitStep_join hex hex' (List.append_ne_nil_of_left_ne_nil behind'.ne_nil _)
            hhigh hlow
        · rw [ArePaired.pair_iff hhigh hlow]
          exact (and_iff_right (isValidChar_join hhigh hlow)).symm
      · refine (ih _ (by simp only [List.length_cons]; omega) behind rfl).step
          ['\\', 'u', a, b, c, d] (n := Json.hexNumber [a, b, c, d]) nofun
          (fun rest => ?_) (by rw [pointUnits, if_pos hsmall]; rfl) ?_
        · refine Json.unitStep_single hex (List.append_ne_nil_of_left_ne_nil behind.ne_nil _)
            (fun hhigh e f g i more hmore _ _ => ?_) fun more hmore => ?_
          · obtain ⟨e', f', g', i', tail', units'', rfl, -, -, rfl⟩ := behind.unit_front hmore
            simp only [List.cons_append] at hmore
            obtain ⟨rfl, rfl, rfl, rfl, -⟩ := hmore
            exact Bool.eq_false_iff.mpr fun hlow => hjoin ⟨hhigh, _, rfl, hlow⟩
          · obtain ⟨e, f, g, i, tail', units'', rfl, hex', behind', -⟩ := behind.unit_front hmore
            refine ⟨e, f, g, i, tail' ++ rest, ?_, hex',
              List.append_ne_nil_of_left_ne_nil behind'.ne_nil _⟩
            exact (List.cons.inj (List.cons.inj hmore).2).2.symm
        · rw [isValidChar_iff hsmall]
          by_cases hhigh : isHighSurrogate (Json.hexNumber [a, b, c, d]) = true
          · refine iff_of_false (ArePaired.not_cons hhigh fun low hlow => ?_) fun h => ?_
            · exact Bool.eq_false_iff.mpr fun hlow' => hjoin ⟨hhigh, low, hlow, hlow'⟩
            · exact nomatch hhigh.symm.trans h.1.1
          · have hhigh := Bool.eq_false_iff.mpr hhigh
            rw [ArePaired.cons_iff hhigh]
            simp [hhigh]

/-- A literal has a value exactly if its surrogates are in pairs, the text with its units, and it is
refused for nothing else. -/
theorem decode_of_denotes (h : Denotes x units) :
    (ArePaired units ∧ ∃ s, decode ('"' :: x) = .ok s ∧ s.flatMap utf16Units = units) ∨
      (¬ArePaired units ∧ decode ('"' :: x) = .error .unpairedSurrogate) := by
  obtain ⟨ps, j, hread, hrest, hunits, hvalid⟩ := h.isRead .start (('"' :: x).length + 1) []
    ((Input.ofText ('"' :: x)).drop 1) [] (by simp [Input.drop_text, Input.ofText]) (by simp; omega)
  have hstring : Json.readString false (.ofText ('"' :: x)) = .ok (.ofPoints ps, j) := by
    unfold Json.readString
    rw [show (Input.ofText ('"' :: x)).position = .start from rfl,
      show (Input.ofText ('"' :: x)).text = '"' :: x from rfl, hread]
    rfl
  have hfinish : Json.finish (Json.string (.ofPoints ps)) j = .ok (.string (.ofPoints ps)) := by
    unfold Json.finish Json.skipBlanks
    simp [hrest, Input.drop_text]
  have hwhole (levels : Nat) : Json.read false levels ('"' :: x) = .ok (.string (.ofPoints ps)) := by
    unfold Json.read
    rw [if_neg (by simp)]
    have hskip : Json.skipBlanks (.ofText ('"' :: x)) = .ofText ('"' :: x) := rfl
    rw [hskip, Json.readValue]
    simp only [Input.ofText] at hstring ⊢
    rw [hstring]
    exact hfinish
  unfold decode
  rw [hwhole, JsonString.ofPoints]
  rw [← textOfPoints?_isSome] at hvalid
  cases hpoints : textOfPoints? ps with
  | some s =>
    refine .inl ⟨hvalid.mpr (by rw [hpoints]; rfl), s, congrArg Except.ok String.toList_ofList, ?_⟩
    rw [← map_toNat_of_textOfPoints? hpoints, List.flatMap_map] at hunits
    exact hunits
  | none =>
    refine .inr ⟨fun hpaired => ?_, rfl⟩
    have hsome := hvalid.mp hpaired
    rw [hpoints] at hsome
    cases hsome

end StringLiteral

/-! The value of a literal in UTF-16. -/

/-- A text in UTF-16. -/
def utf16 (s : List Char) : List Nat := s.flatMap utf16Units

/-- The first unit of a character shows whether there is a second one. -/
theorem isHighSurrogate_head (c : Char) (ns : List Nat) :
    ∃ n rest, utf16Units c ++ ns = n :: rest ∧ (isHighSurrogate n = true ↔ 0x10000 ≤ c.toNat) := by
  have hvalid := Json.toNat_valid c
  unfold utf16Units
  dsimp only
  split
  · rename_i hsmall
    obtain ⟨hhigh, -⟩ := (isValidChar_iff hsmall).mp c.valid
    exact ⟨_, _, rfl, by simp [hhigh, hsmall]⟩
  · rename_i hlarge
    refine ⟨_, _, rfl, iff_of_true (Json.isHighSurrogate_iff.mpr ?_) ?_⟩ <;> omega

theorem utf16Units_append_inj {c d : Char} {xs ys : List Nat}
    (h : utf16Units c ++ xs = utf16Units d ++ ys) : c = d ∧ xs = ys := by
  have hsize : 0x10000 ≤ c.toNat ↔ 0x10000 ≤ d.toNat := by
    obtain ⟨n, rest, hc, hn⟩ := isHighSurrogate_head c xs
    obtain ⟨m, rest', hd, hm⟩ := isHighSurrogate_head d ys
    obtain ⟨rfl, -⟩ := List.cons.inj (hc.symm.trans (h.trans hd))
    exact hn.symm.trans hm
  have hcode : c.toNat = d.toNat ∧ xs = ys := by
    unfold utf16Units at h
    dsimp only at h
    by_cases hc : c.toNat < 0x10000
    · rw [if_pos hc, if_pos (by omega)] at h
      simpa using h
    · rw [if_neg hc, if_neg (by omega)] at h
      obtain ⟨hhigh, h⟩ := List.cons.inj h
      obtain ⟨hlow, h⟩ := List.cons.inj h
      exact ⟨by omega, h⟩
  exact ⟨Char.toNat_inj.mp hcode.1, hcode.2⟩

theorem utf16_injective {s t : List Char} (h : utf16 s = utf16 t) : s = t := by
  have hne (c : Char) (ns : List Nat) : utf16Units c ++ ns ≠ [] := by
    obtain ⟨n, rest, heq, -⟩ := isHighSurrogate_head c ns
    exact heq ▸ List.cons_ne_nil n rest
  induction s generalizing t with
  | nil =>
    cases t with
    | nil => rfl
    | cons d t => exact absurd h.symm (hne d (utf16 t))
  | cons c s ih =>
    cases t with
    | nil => exact absurd h (hne c (utf16 s))
    | cons d t =>
      obtain ⟨rfl, htail⟩ := utf16Units_append_inj h
      rw [ih htail]

namespace StringLiteral

/-- The units named by what stands behind an opening quote. -/
def unitsBehind : List Char → List Nat
  | '\\' :: 'u' :: a :: b :: c :: d :: rest => Json.hexNumber [a, b, c, d] :: unitsBehind rest
  | '\\' :: c :: rest => utf16 (Json.shortEscape? c).toList ++ unitsBehind rest
  | '"' :: _ => []
  | c :: rest => utf16Units c ++ unitsBehind rest
  | [] => []

/-- The units that the characters and escapes of a literal name. -/
def units (literal : List Char) : List Nat := unitsBehind literal.tail

theorem Denotes.unitsBehind_eq {x : List Char} {us : List Nat} (h : Denotes x us) :
    unitsBehind x = us := by
  induction h with
  | close => rfl
  | unit hex _ ih => rw [unitsBehind, ih]
  | @short c d rest us escape _ ih =>
    have hu : c ≠ 'u' := by
      rintro rfl
      cases escape
    rw [unitsBehind.eq_2 _ _ fun _ _ _ _ _ hc _ => hu hc, escape, ih]
    exact congrArg (· ++ us) (List.append_nil _)
  | @plain c rest us hc _ ih =>
    have hquote : c ≠ '"' := by
      rintro rfl
      simp at hc
    have hbackslash : c ≠ '\\' := by
      rintro rfl
      simp at hc
    rw [unitsBehind.eq_4 _ _ (fun _ _ _ _ _ heq _ => hbackslash heq) (fun _ _ heq _ => hbackslash heq)
      hquote, ih]

/-- The value of a literal is the one text with its units, if their surrogates are paired; otherwise
the literal is refused for a surrogate without a partner. -/
theorem decode_utf16 {literal : List Char} (h : Pattern.string literal = some literal.length) :
    (ArePaired (units literal) →
      ∃ s, decode literal = .ok s ∧ ∀ t, utf16 t = units literal ↔ t = s) ∧
    (¬ArePaired (units literal) → decode literal = .error .unpairedSurrogate) := by
  obtain ⟨x, rest, hsplit, hlength, hbody⟩ := Pattern.string_iff.mp h
  obtain ⟨us, hdenotes⟩ := exists_denotes hbody
  obtain rfl : rest = [] := by
    rw [hsplit, List.length_append] at hlength
    exact List.eq_nil_of_length_eq_zero (Nat.add_eq_left.mp hlength)
  rw [List.append_nil] at hsplit
  subst hsplit
  obtain rfl : units ('"' :: x) = us := hdenotes.unitsBehind_eq
  rcases decode_of_denotes hdenotes with ⟨hpaired, s, hs, hunits⟩ | ⟨hnot, herror⟩
  · refine ⟨fun _ => ⟨s, hs, fun t => ?_⟩, fun hnot => absurd hpaired hnot⟩
    constructor
    · intro ht
      exact utf16_injective (ht.trans hunits.symm)
    · rintro rfl
      exact hunits
  · exact ⟨fun hpaired => absurd hpaired hnot, fun _ => herror⟩

/-- A grinning face as two escapes, and the first of the two alone. -/
theorem decode_utf16_escapes :
    decode "\"\\ud83d\\ude00\"".toList = .ok [Char.ofNat 0x1f600] ∧
      decode "\"\\ud83d\"".toList = .error .unpairedSurrogate := by
  constructor
  · obtain ⟨s, hs, hunits⟩ := (@decode_utf16 "\"\\ud83d\\ude00\"".toList rfl).1 (.pair rfl rfl .nil)
    obtain rfl : [Char.ofNat 0x1f600] = s := (hunits [Char.ofNat 0x1f600]).mp rfl
    exact hs
  · refine (@decode_utf16 "\"\\ud83d\"".toList rfl).2 ?_
    exact ArePaired.not_cons rfl nofun

end StringLiteral

end GraphQLDoc
