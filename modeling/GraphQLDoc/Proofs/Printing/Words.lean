import GraphQLDoc.Proofs.Ast.Writable
import GraphQLDoc.Proofs.Printing.Lists
import GraphQLDoc.Proofs.Token.Follow

/-!
Single words that are printed: names, integers, floats and strings are spelled as their terminals
are, and their tokens are converted back.
-/
namespace GraphQLDoc

/-! Names. -/

namespace Printing

theorem snd_name (n : String) : (name n).2 = n.toList := by
  unfold name
  split
  · rename_i k hk
    have hword := List.find?_some hk
    exact congrArg String.toList (beq_iff_eq.mp hword)
  · rfl

theorem isSpelling_name {n : String} (h : isValidName n = true) :
    IsSpelling (name n).1 (name n).2 := by
  unfold name
  split
  · exact .keyword _
  · rename_i hnone
    refine .name h fun k hk => ?_
    have hnot := List.find?_eq_none.mp hnone k k.mem_all
    exact hnot (beq_iff_eq.mpr (String.toList_injective hk))

/-- A name is read as a word that the grammar allows for it. -/
theorem literal_name_mem {n : String} {excluded : List Keyword} (h : ∀ k ∈ excluded, k.word ≠ n) :
    [Clause.literal (name n).1] ∈ Clause.wordsExcept excluded := by
  unfold name
  split
  · rename_i k hk
    have hword := List.find?_some hk
    obtain rfl : k.word = n := beq_iff_eq.mp hword
    refine List.mem_cons_of_mem _ (List.mem_map_of_mem (List.mem_filter.mpr ⟨k.mem_all, ?_⟩))
    simpa using fun hexcluded => h k hexcluded rfl
  · exact List.mem_cons_self

theorem isKept_name {n : String} {t : Token} (h : t.word = name n) :
    Derivation.Token.isKept true t = true := by
  have hterminal : t.terminal = (name n).1 := congrArg Prod.fst h
  unfold name at hterminal
  split at hterminal <;> simp [Derivation.Token.isKept, hterminal, Keyword.spelled]

end Printing

open Printing (isSpelling_name)

/-- The token of a name is the only child of its node. -/
theorem exists_nameNode {r : Rule} {excluded : List Keyword} {n : String}
    (halternatives : r.alternatives = Clause.wordsExcept excluded) (hr : r.inlined = false)
    (hwords : r.keepsWords = true) (hn : isValidName n = true)
    (hexcluded : ∀ k ∈ excluded, k.word ≠ n) {w : List Token}
    (hw : w.map Token.word = [Printing.name n]) :
    ∃ t, IsTreeOf .canonical r w t ∧ IsNameNode r.tag (· = n) t := by
  obtain ⟨token, rfl, htoken⟩ := List.map_eq_singleton_iff.mp hw
  have hlexeme : token.IsLexeme :=
    Token.isLexeme_of_spelling (show IsSpelling token.word.1 token.word.2 from
      htoken ▸ isSpelling_name hn)
  have hmem := Printing.literal_name_mem hexcluded
  rw [← halternatives, ← htoken] at hmem
  have hoperation : r ≠ .operationDefinition := by
    rintro rfl
    cases hwords
  have hinside := Inside.of_token (g := .canonical) hlexeme hmem hoperation
  rw [hwords, Printing.isKept_name htoken, if_pos rfl] at hinside
  obtain ⟨span, htree⟩ := hinside.isTreeOf hr
  have htext : String.ofList token.text = n := by
    have hsnd : token.text = (Printing.name n).2 := congrArg Prod.snd htoken
    rw [hsnd, Printing.snd_name, String.ofList_toList]
  exact ⟨_, htree, span, _, _, _, rfl, htext⟩

theorem readsBack_nameNode {r : Rule} {excluded : List Keyword} {n : String}
    (halternatives : r.alternatives = Clause.wordsExcept excluded) (hr : r.inlined = false)
    (hwords : r.keepsWords = true) (hn : isValidName n = true)
    (hexcluded : ∀ k ∈ excluded, k.word ≠ n) :
    r.ReadsBack (·.nameToken r.tag) [Printing.name n] (·.1 = n) := by
  refine ⟨.cons (isSpelling_name hn) .nil, fun w hw => ?_⟩
  obtain ⟨t, htree, span, tag, text, textSpan, rfl, rfl⟩ :=
    exists_nameNode halternatives hr hwords hn hexcluded hw
  exact ⟨_, (text, textSpan), rfl, htree, rfl⟩

theorem readsBack_nameOf {r : Rule} {excluded : List Keyword} {n : String}
    (halternatives : r.alternatives = Clause.wordsExcept excluded) (hr : r.inlined = false)
    (hwords : r.keepsWords = true) (hn : isValidName n = true)
    (hexcluded : ∀ k ∈ excluded, k.word ≠ n) :
    (Clause.use r).ReadsBack (Walk.nameOf r.tag) [Printing.name n] (· = n) := by
  refine ⟨.cons (isSpelling_name hn) .nil, fun w hw => ?_⟩
  obtain ⟨t, htree, hnode⟩ := exists_nameNode halternatives hr hwords hn hexcluded hw
  exact ⟨[t], n, rfl, htree, Walk.runs_nameOf hnode⟩

theorem readsBack_name {n : String} (hn : isValidName n = true) :
    (Clause.use .name).ReadsBack Walk.name [Printing.name n] (· = n) :=
  readsBack_nameOf rfl rfl rfl hn nofun

/-- A keyword that is kept is the only child of its node. -/
theorem exists_keywordNode {r : Rule} {k : Keyword} (hk : [.word k] ∈ r.alternatives)
    (hr : r.inlined = false) (hwords : r.keepsWords = true) {w : List Token}
    (hw : w.map Token.word = [k.spelled]) :
    ∃ span textSpan, IsTreeOf .canonical r w
      (.rule r.tag span [.token (Terminal.keyword k).tag k.word textSpan]) := by
  obtain ⟨⟨terminal, text, textSpan⟩, rfl, htoken⟩ := List.map_eq_singleton_iff.mp hw
  obtain ⟨rfl, rfl⟩ := Prod.mk.inj htoken
  have hlexeme : (⟨.keyword k, k.word.toList, textSpan⟩ : Token).IsLexeme :=
    Token.isLexeme_of_spelling (.keyword k)
  have hoperation : r ≠ .operationDefinition := by
    rintro rfl
    cases hwords
  have hinside := Inside.of_token (g := .canonical) hlexeme hk hoperation
  obtain ⟨span, htree⟩ := hinside.isTreeOf hr
  refine ⟨span, textSpan, ?_⟩
  simpa [Derivation.Token.isKept, hwords, Token.leaf] using htree

theorem readsBack_keyword {r : Rule} {k : Keyword} {tags : List String}
    (hk : [.word k] ∈ r.alternatives) (hr : r.inlined = false) (hwords : r.keepsWords = true)
    (htag : (Terminal.keyword k).tag ∈ tags) :
    r.ReadsBack (·.whole r.tag (Walk.next tags)) [k.spelled]
      fun u => ∃ tag span, u = .token tag k.word span := by
  refine ⟨.cons (.keyword k) .nil, fun w hw => ?_⟩
  obtain ⟨span, textSpan, htree⟩ := exists_keywordNode hk hr hwords hw
  have hnext : (Walk.next tags).Runs (fun _ => False) [] [.token _ k.word textSpan] (· = _) :=
    Walk.runs_next htag
  exact ⟨_, _, ⟨_, textSpan, rfl⟩, htree, (gives_whole hnext.ends).eq_ok⟩

/-! Literals. -/

/-- A literal is the token of its words. -/
theorem readsBack_literal {t : Terminal} {x : List Char} (tags : List String)
    (hx : IsSpelling t x) (ht : t ∈ [.name, .int, .float, .string, .blockString]) (htag : t.tag ∈ tags) :
    (Clause.literal t).ReadsBack (Walk.next tags) [(t, x)]
      fun u => ∃ token : Token, token.word = (t, x) ∧ u = token.leaf := by
  refine ⟨.cons hx .nil, fun w hw => ?_⟩
  obtain ⟨token, rfl, htoken⟩ := List.map_eq_singleton_iff.mp hw
  have hterminal : token.terminal = t := congrArg Prod.fst htoken
  have hlexeme : token.IsLexeme :=
    Token.isLexeme_of_spelling (show IsSpelling token.word.1 token.word.2 from htoken ▸ hx)
  have hkept : Derivation.Token.isKept false token = true := by
    unfold Derivation.Token.isKept
    rw [hterminal]
    simp only [List.mem_cons, List.not_mem_nil, or_false] at ht
    rcases ht with rfl | rfl | rfl | rfl | rfl <;> rfl
  refine ⟨[token.leaf], token.leaf, ⟨token, htoken, rfl⟩, ?_, Walk.runs_next ?_⟩
  · exact Yields.terminal_iff.mpr ⟨token, hlexeme, hterminal, rfl, by rw [hkept, if_pos rfl]⟩
  · rw [Token.leaf, ParseTree.tag, hterminal]
    exact htag

theorem intText_signed (n : Int) :
    intText n = Pattern.signText (decide (n < 0)) ++ natText n.natAbs := by
  unfold intText
  split
  · rename_i hn
    simp [hn, Pattern.signText]
  · rename_i hn
    simp [hn, Pattern.signText]

/-- A number from its sign and its size. -/
theorem signed_natAbs (n : Int) :
    (if decide (n < 0) = true then -(n.natAbs : Int) else n.natAbs) = n := by
  simp only [decide_eq_true_eq]
  split <;> omega

theorem isSpelling_int (n : Int) : IsSpelling .int (intText n) := by
  rw [intText_signed]
  exact .int _ (isWhole_natText n.natAbs)

theorem isSpelling_float {x : Binary64} (h : x.isValid = true) :
    IsSpelling .float (x.text Json.numberWords) := by
  have hparts : x.isFinite = true ∧ x.IsCanonical := by simpa [Binary64.isValid] using h
  obtain ⟨number, hfloat, hwritten, -⟩ :=
    Binary64.exists_numberText hparts.1 hparts.2 Json.numberWords
  rw [hwritten]
  exact .float hfloat

namespace Json

theorem isHexDigit_unit {n : Nat} (h : n < 0x10000) : ∃ a b c d, hexDigits 4 n = [a, b, c, d] ∧
    [a, b, c, d].all isHexDigit = true := by
  obtain ⟨hlength, hdigits, -⟩ := hexDigits_four h
  match hds : hexDigits 4 n, hlength with
  | [a, b, c, d], _ => exact ⟨a, b, c, d, rfl, List.all_eq_true.mpr (hds ▸ hdigits)⟩

/-- What is escaped goes on with the body of the string. -/
theorem isStringBody_unitEscape {n : Nat} {rest : List Char} (hn : n < 0x10000)
    (h : IsStringBody rest) : IsStringBody (unitEscape n ++ rest) := by
  obtain ⟨a, b, c, d, hdigits, hhex⟩ := isHexDigit_unit hn
  rw [unitEscape, hdigits]
  exact .unicode hhex h

theorem isStringBody_escapePoint (c : Char) {rest : List Char} (h : IsStringBody rest) :
    IsStringBody (escapePoint c.toNat ++ rest) := by
  have hvalid := toNat_valid c
  generalize hn : c.toNat = n at hvalid
  fun_cases escapePoint n with
  | case1 | case2 | case3 | case4 | case5 | case6 | case7 => exact .escape (by decide) h
  | case8 hquote hbackslash _ _ _ _ _ hprintable =>
    rw [← hn, Char.ofNat_toNat]
    refine .plain (fun hc => ?_) h
    simp only [List.mem_cons, List.not_mem_nil, or_false] at hc
    rcases hc with rfl | rfl | rfl | rfl
    · exact hquote hn.symm
    · exact hbackslash hn.symm
    · exact absurd hprintable.1 (hn ▸ by decide)
    · exact absurd hprintable.1 (hn ▸ by decide)
  | case9 _ _ _ _ _ _ _ _ hunit => exact isStringBody_unitEscape hunit h
  | case10 _ _ _ _ _ _ _ _ hunit =>
    rw [List.append_assoc]
    exact isStringBody_unitEscape (by omega) (isStringBody_unitEscape (by omega) h)

theorem isStringBody_escaped (cs : List Char) :
    IsStringBody ((cs.map Char.toNat).flatMap escapePoint ++ ['"']) := by
  induction cs with
  | nil => exact .close
  | cons c cs ih =>
    rw [List.map_cons, List.flatMap_cons, List.append_assoc]
    exact isStringBody_escapePoint c ih

end Json

/-- The body of a string that is not empty does not begin with a quote. -/
theorem IsStringBody.eq_close {x : List Char} (h : IsStringBody ('"' :: x)) : x = [] := by
  cases h with
  | close => rfl
  | plain hc _ => exact absurd List.mem_cons_self hc

/-- A string between quotes, in front of a break, is no block string. -/
theorem isSpelling_of_isStringBody {x : List Char} (h : IsStringBody x) :
    IsSpelling .string ('"' :: x) := by
  refine .string rfl (fun rest => ?_) fun rest hrest => ?_
  · exact Pattern.string_iff.mpr ⟨x, rest, rfl, rfl, h⟩
  · unfold Pattern.blockString
    split
    · rename_i rest' heq
      have heq : x ++ rest = '"' :: '"' :: rest' := (List.cons.inj heq).2
      cases x with
      | nil => cases h
      | cons c x =>
        obtain ⟨rfl, heq⟩ := List.cons.inj heq
        obtain rfl := h.eq_close
        obtain rfl : rest = '"' :: rest' := (List.cons.inj heq).2
        exact absurd rfl (hrest '"' rfl).2.2
    · rfl

theorem isSpelling_string (s : String) :
    IsSpelling (Printing.string (.text s)).1 (Printing.string (.text s)).2 := by
  have hbody := Json.isStringBody_escaped s.toList
  exact isSpelling_of_isStringBody hbody

theorem StringLiteral.decode_stringLiteral (s : String) :
    decode (Json.stringLiteral (JsonString.text s).points) = .ok s.toList := by
  have hdepth : (Json.string (.text s)).depth ≤
      (Json.stringLiteral (JsonString.text s).points).length := by
    rw [Json.depth_string]
    exact Nat.succ_pos _
  have hread : Json.read false _ (Json.render .compact (.string (.text s))).toList = .ok _ :=
    Json.read_render (by simp) hdepth
  have htext : (Json.render .compact (Json.string (.text s))).toList =
      Json.stringLiteral (JsonString.text s).points := by
    rw [Json.render, String.toList_ofList, Json.write]
  rw [htext] at hread
  rw [decode, hread]

namespace Conversion

theorem integer_eq_ok {n : Int} (h : minInt64 ≤ n ∧ n ≤ maxInt64) {t : Token}
    (ht : t.word = (.int, intText n)) : integer t.leaf = .ok n := by
  have htext : t.text = intText n := congrArg Prod.snd ht
  have hlength : (natText n.natAbs).length ≤ Json.maxIntegerDigits := by
    have hwritable := Json.isWritable_int h
    rwa [Json.IsWritable] at hwritable
  simp only [integer, Token.leaf, String.toList_ofList, htext, intText_signed,
    Numeral.literalInt?_eq (isWhole_natText _), digitsValue_natText, signed_natAbs, h, and_self,
    if_true]
  rw [if_neg (Nat.not_lt.mpr hlength)]

theorem float_eq_ok {x : Binary64} (h : x.isValid = true) {t : Token}
    (ht : t.word = (.float, x.text Json.numberWords)) : float t.leaf = .ok x := by
  have htext : t.text = x.text Json.numberWords := congrArg Prod.snd ht
  have hparts : x.isFinite = true ∧ x.IsCanonical := by simpa [Binary64.isValid] using h
  obtain ⟨number, hfloat, hwritten, hvalue⟩ :=
    Binary64.exists_numberText hparts.1 hparts.2 Json.numberWords
  simp only [float, Token.leaf, String.toList_ofList, htext, hwritten, hfloat.literalFloat?_eq,
    hvalue, hparts.1, if_true]

theorem string_eq_ok {s : String} {t : Token} (ht : t.word = Printing.string (.text s)) :
    string t.leaf = .ok (s, false) := by
  have hterminal : t.terminal = .string := congrArg Prod.fst ht
  have htext : t.text = Json.stringLiteral (JsonString.text s).points := congrArg Prod.snd ht
  rw [Token.leaf, hterminal, htext]
  rw [string]
  · rw [String.toList_ofList, StringLiteral.decode_stringLiteral]
    simp
  · decide

end Conversion

end GraphQLDoc
