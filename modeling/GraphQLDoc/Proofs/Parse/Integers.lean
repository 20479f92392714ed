import GraphQLDoc.Proofs.Parse.Outcome
import GraphQLDoc.Proofs.ParseTree.Positions

/-!
Integer literals. Up to a number of digits they are the integers that they denote, as far as these fit
into 64 bits; longer ones are not read at all, whatever they denote.
-/
namespace GraphQLDoc

open ParseTree

theorem Terminal.eq_int {t : Terminal} (h : t.tag = "INT") : t = .int := by
  have hall : ∀ t ∈ Terminal.all, t.tag = "INT" → t = .int := by decide
  exact hall t t.mem_all h

/-- Integers stand in nodes of their own. -/
theorem Rule.eq_intValue (r : Rule) : ∀ cs ∈ r.alternatives,
    (∃ c ∈ cs, c.symbol = .terminal .int) → r = .intValue ∧ cs = [.literal .int] := by
  cases r <;> decide

theorem Repetition.element_ne_int (r : Repetition) :
    ¬ ∃ c ∈ r.element.map Clause.one, c.symbol = .terminal .int := by
  cases r <;> decide

theorem partsOf_leaf {t : Token} {u : ParseTree} : u ∈ partsOf [t.leaf] ↔ u = t.leaf := by
  simp [partsOf, Token.leaf, parts]

mutual

/-- An integer in a tree that a symbol leaves is a node for itself, or the symbol is its terminal. -/
theorem Derives.exists_intValue {keepsWords : Bool} {s : Symbol} {w : List Token}
    {ts : List ParseTree} {value : String} {span : Span} :
    Derives keepsWords s w ts → .token "INT" value span ∈ partsOf ts →
      s = .terminal .int ∨
        ∃ nodeSpan, .rule "int_value" nodeSpan [.token "INT" value span] ∈ partsOf ts
  | .token (t := t), hu => by
      split at hu
      · have heq := partsOf_leaf.mp hu
        exact .inl (congrArg _ (Terminal.eq_int (ParseTree.token.inj heq).1.symm))
      · cases hu
  | .node (r := r) own alternative body, hu => by
      rw [partsOf, parts, partsOf, List.append_nil] at hu ⊢
      replace hu := (List.mem_cons.mp hu).resolve_left nofun
      rcases body.exists_intValue hu with h | ⟨nodeSpan, h⟩
      · obtain ⟨rfl, rfl⟩ := r.eq_intValue _ alternative h
        obtain ⟨t, ht, rfl⟩ := body.terminal
        rw [Derivation.Token.isKept, ht] at hu ⊢
        rw [partsOf_leaf.mp hu]
        exact .inr ⟨_, List.mem_cons_self⟩
      · exact .inr ⟨nodeSpan, List.mem_cons_of_mem _ h⟩
  | .inlined (r := r) inlined alternative body, hu => by
      rcases body.exists_intValue hu with h | h
      · obtain ⟨rfl, -⟩ := r.eq_intValue _ alternative h
        cases inlined
      · exact .inr h
  | .start whole, hu => by
      rcases whole.exists_intValue hu with hs | h
      · cases hs
      · exact .inr h
  | .first (r := r) element, hu => by
      rcases element.exists_intValue hu with h | h
      · exact absurd h (Repetition.element_ne_int _)
      · exact .inr h
  | .more list element, hu => by
      rw [partsOf_append] at hu ⊢
      rcases List.mem_append.mp hu with hu | hu
      · rcases list.exists_intValue hu with hs | ⟨nodeSpan, h⟩
        · cases hs
        · exact .inr ⟨nodeSpan, List.mem_append_left _ h⟩
      · rcases element.exists_intValue hu with h | ⟨nodeSpan, h⟩
        · exact absurd h (Repetition.element_ne_int _)
        · exact .inr ⟨nodeSpan, List.mem_append_right _ h⟩

theorem DerivesAll.exists_intValue {keepsWords : Bool} {cs : List Clause} {w : List Token}
    {ts : List ParseTree} {value : String} {span : Span} :
    DerivesAll keepsWords cs w ts → .token "INT" value span ∈ partsOf ts →
      (∃ c ∈ cs, c.symbol = .terminal .int) ∨
        ∃ nodeSpan, .rule "int_value" nodeSpan [.token "INT" value span] ∈ partsOf ts
  | .nil, hu => nomatch hu
  | .taken clause rest, hu => by
      rw [partsOf_append] at hu ⊢
      rcases List.mem_append.mp hu with hu | hu
      · rcases clause.exists_intValue hu with hs | ⟨nodeSpan, h⟩
        · exact .inl ⟨_, List.mem_cons_self, hs⟩
        · exact .inr ⟨nodeSpan, List.mem_append_left _ h⟩
      · rcases rest.exists_intValue hu with ⟨c, hc, hs⟩ | ⟨nodeSpan, h⟩
        · exact .inl ⟨c, List.mem_cons_of_mem _ hc, hs⟩
        · exact .inr ⟨nodeSpan, List.mem_append_right _ h⟩
  | .left absent rest, hu => by
      rcases rest.exists_intValue hu with ⟨c, hc, hs⟩ | h
      · exact .inl ⟨c, List.mem_cons_of_mem _ hc, hs⟩
      · exact .inr h

end

/-- The integer that decimal digits denote, negative or not. -/
def signedNumber (negative : Bool) (ds : List Char) : Int :=
  let size : Int := Nat.ofDigitChars 10 ds 0
  if negative then -size else size

/-- What becomes of an integer literal. -/
def integerOutcome (negative : Bool) (ds : List Char) (value : String) (span : Span) :
    Converted Value :=
  if Json.maxIntegerDigits < ds.length then .error (.text (.integerLength ds.length))
  else if minInt64 ≤ signedNumber negative ds ∧ signedNumber negative ds ≤ maxInt64 then
    .ok (.int (signedNumber negative ds))
  else .error (.literal (.integer value) (some span))

section

variable {negative : Bool} {ds : List Char} {value : String} (hds : Pattern.IsWhole ds)
  (hvalue : value.toList = Pattern.signText negative ++ ds) (span : Span)

include hds hvalue

theorem integer_token : Conversion.integer (.token "INT" value span) =
    if Json.maxIntegerDigits < ds.length then .error (.text (.integerLength ds.length))
    else if minInt64 ≤ signedNumber negative ds ∧ signedNumber negative ds ≤ maxInt64 then
      .ok (signedNumber negative ds)
    else .error (.literal (.integer value) (some span)) := by
  rw [Conversion.integer, hvalue, Numeral.literalInt?_eq hds]
  rfl

theorem value_int [Machine] (nodeSpan : Option Span) :
    Conversion.value (.rule "int_value" nodeSpan [.token "INT" value span]) =
      integerOutcome negative ds value span := by
  have hnode : Conversion.value (.rule "int_value" nodeSpan [.token "INT" value span]) =
      (Conversion.integer (.token "INT" value span)).map Value.int := by
    rw [Conversion.value, if_neg (by decide), if_neg (by decide), if_pos (by decide)]
    show Except.bind (Conversion.integer _) _ = _
    cases Conversion.integer (.token "INT" value span) <;> rfl
  rw [hnode, integer_token hds hvalue, integerOutcome]
  split
  · rfl
  · split
    · rfl
    · rfl

end

/-- An error of a text whose integers may be too long to be read, and which may be nested too
deeply. -/
def IsIntegerFault [Machine] (start : Start) (text : List Char) (e : ConversionError) : Prop :=
  (∃ p span, e = .literal p span) ∨
    (∃ d, derive start text = .ok d ∧ ∃ a ∈ d.tokens, a.terminal = .int ∧
      Json.maxIntegerDigits < a.digitCount ∧ ∃ n, e = .text (.integerLength n)) ∨
    e = .tooDeep ∧ IsNestedTooDeeply start text

/-- If a tree is refused, it is for an error with the property. -/
def RefusesOnly {α : Type} (E : ConversionError → Prop) : Except ParseError α → Prop
  | .error (.conversion e) => E e
  | _ => True

theorem refusesOnly_parseWith {α : Type} {start : Start} {convert : ParseTree → Converted α}
    {E : ConversionError → Prop} {P : α → Prop} {text : List Char}
    (h : ∀ t, parseTree start text = .ok t → Gives E P (convert t)) :
    RefusesOnly E (parseWith start convert text) := by
  unfold parseWith
  cases ht : parseTree start text with
  | error e => trivial
  | ok t =>
    have hgives := h t ht
    cases hc : convert t with
    | error e =>
      rw [hc] at hgives
      simp only [hc]
      exact hgives
    | ok a => simp only [hc, RefusesOnly]

/-- Integers that are too long are the only tokens that are not read. -/
theorem isIntegerFault_parseWith [Machine] {α : Type} {start : Start}
    {convert : ParseTree → Converted α} {P : α → Prop} {text : List Char}
    (h : ∀ (Q : Token → Prop) E w t, Allows (Grammar.full.only Q) E →
      IsTreeOf (Grammar.full.only Q) start.rule w t → Gives E P (convert t))
    (hdeep : ∀ t, parseTree start text = .ok t → convert t = .error .tooDeep →
      IsNestedTooDeeply start text) :
    RefusesOnly (IsIntegerFault start text) (parseWith start convert text) := by
  refine refusesOnly_parseWith (P := P) fun t ht => ?_
  obtain ⟨d, hd, htree⟩ := parseTree_isTreeOf ht
  have hallows : Allows (Grammar.full.only (· ∈ d.tokens))
      (fun e => IsIntegerFault start text e ∨ e = .tooDeep) := {
    literal := fun p span => .inl (.inl ⟨p, span, rfl⟩)
    tooLong := fun ha hint hlong n => .inl (.inr (.inl ⟨d, hd, _, ha.2, hint, hlong, n, rfl⟩))
    tooDeep := .inr rfl }
  have hgives := h _ _ _ t hallows (htree _ fun _ ha => ha)
  cases hc : convert t with
  | ok a =>
    rw [hc] at hgives
    exact hgives
  | error e =>
    rw [hc] at hgives
    rcases hgives with hfault | rfl
    · exact hfault
    · exact .inr (.inr ⟨rfl, hdeep t ht hc⟩)

/-- A text that is one integer is parsed into a node for it. -/
theorem parseTree_int (negative : Bool) {ds : List Char} (hds : Pattern.IsWhole ds) :
    let value := String.ofList (Pattern.signText negative ++ ds)
    ∃ span, parseTree .value value.toList = .ok (.rule "value_literal" (some span)
      [.rule "int_value" (some span) [.token "INT" value span]]) := by
  intro value
  have htext : value.toList = Pattern.signText negative ++ ds := String.toList_ofList
  have hspelling : IsSpelling .int value.toList := htext ▸ .int negative hds
  let t : Token := ⟨.int, value.toList, ⟨.start, .after .start value.toList⟩⟩
  have hof : (literalDerivation .intValue t).IsOf .canonical :=
    isOf_literalDerivation (s := .int) rfl (by decide) (by decide)
      (Token.isLexeme_of_spelling (t := t) hspelling)
  have hwords : ∀ w ∈ [(Terminal.int, value.toList)], IsSpelling w.1 w.2 :=
    List.forall_mem_singleton.mpr hspelling
  have hreads : (Input.ofText value.toList).ReadsAs [t] := by
    have h := Input.readsAs_spellOut hwords .start
    rwa [spellOut_singleton] at h
  have hd : derive .value value.toList = .ok (literalDerivation .intValue t) :=
    derive_complete hof rfl hreads
  refine ⟨t.span, ?_⟩
  rw [parseTree, hd, ← String.ofList_toList (s := value)]
  rfl

/-- The value of a text that is one integer is that of the integer. -/
theorem parseValue_int [Machine] (negative : Bool) {ds : List Char} (hds : Pattern.IsWhole ds) :
    let value := String.ofList (Pattern.signText negative ++ ds)
    ∃ span, parseValue value.toList =
      (integerOutcome negative ds value span).mapError ParseError.conversion := by
  intro value
  obtain ⟨span, htree⟩ := parseTree_int negative hds
  have hvalue := value_int hds (String.toList_ofList (l := Pattern.signText negative ++ ds)) span
    (some span)
  refine ⟨span, ?_⟩
  rw [parseValue, parseWith, htree, ← hvalue]
  have htag : "int_value" ∈ Conversion.valueTags := by decide
  simp only [Conversion.valueLiteral_eq (u := .rule _ _ _) htag]
  cases Conversion.value _ <;> rfl

/-- The integers of a text that is parsed, up to a number of digits, are those that they denote if
these fit into 64 bits, and are refused where they stand if not. With more digits they are not read,
and no other integer leads to an error of another sort. -/
theorem parse_integers [Machine] (text : List Char) :
    (∀ start t, parseTree start text = .ok t → ∀ value span, .token "INT" value span ∈ t.parts →
      ∃ nodeSpan negative ds, .rule "int_value" nodeSpan [.token "INT" value span] ∈ t.parts ∧
        value.toList = Pattern.signText negative ++ ds ∧ Pattern.IsWhole ds ∧
        Conversion.value (.rule "int_value" nodeSpan [.token "INT" value span]) =
          integerOutcome negative ds value span) ∧
    RefusesOnly (IsIntegerFault .document text) (parseDocument text) ∧
    RefusesOnly (IsIntegerFault .value text) (parseValue text) ∧
    RefusesOnly (fun _ => False) (parseType text) := by
  refine ⟨fun start t h value span hmem => ?_, ?_, ?_, ?_⟩
  · obtain ⟨d, hd, hof, hderives⟩ := parseTree_derivation h
    have hplaced : IsPlaced t d.tokens := hderives.isPlaced (by cases start <;> rfl)
    obtain ⟨a, ha, hleaf⟩ := hplaced.exists_leaf hmem
    obtain ⟨htag, hvalue, -⟩ := ParseTree.token.inj hleaf
    obtain ⟨negative, ds, htext, hds⟩ :=
      ((derive_tokens hd).isLexeme a ha).written_int (Terminal.eq_int htag.symm)
    have hvalue : value.toList = Pattern.signText negative ++ ds := by
      rw [hvalue, String.toList_ofList, htext]
    have hmem' : .token "INT" value span ∈ partsOf [t] := by simpa [partsOf] using hmem
    rcases hderives.exists_intValue hmem' with hs | ⟨nodeSpan, hnode⟩
    · cases hs
    · exact ⟨nodeSpan, negative, ds, by simpa [partsOf] using hnode, hvalue, hds,
        value_int hds hvalue span nodeSpan⟩
  · exact isIntegerFault_parseWith (fun _ _ _ _ => Conversion.gives_document) fun _ => .of_document
  · exact isIntegerFault_parseWith (fun _ _ _ _ => Conversion.gives_valueLiteral)
      fun _ => .of_valueLiteral
  · refine refusesOnly_parseWith (P := fun r => r.isValid = true) fun t ht => ?_
    obtain ⟨d, -, htree⟩ := parseTree_isTreeOf ht
    exact Conversion.gives_typeReference (htree (fun _ => True) fun _ _ => trivial)

/-- One digit more than an integer may have, and it is not refused as one that does not fit. -/
theorem longText_integers : @parseValue .usual (List.replicate 4301 '1') =
    .error (.conversion (.text (.integerLength 4301))) := by
  have hones : Pattern.IsWhole (List.replicate 4301 '1') := by
    refine ⟨fun c hc => ?_, List.replicate_succ_ne_nil, .inr ?_⟩
    · rw [List.eq_of_mem_replicate hc]
      rfl
    · rw [List.head?_replicate]
      decide
  obtain ⟨span, h⟩ := @parseValue_int .usual false _ hones
  have htext : (String.ofList (Pattern.signText false ++ List.replicate 4301 '1')).toList =
      List.replicate 4301 '1' := String.toList_ofList
  rw [htext] at h
  have hlong : Json.maxIntegerDigits < (List.replicate 4301 '1').length := by
    rw [List.length_replicate]
    exact Nat.lt_succ_self 4300
  rw [h, integerOutcome, if_pos hlong, List.length_replicate]
  rfl

/-- The integer `-7`. -/
theorem shortText_integers : ∃ t value span, parseTree .value "-7".toList = .ok t ∧
    .token "INT" value span ∈ t.parts ∧
    ∃ nodeSpan negative ds, .rule "int_value" nodeSpan [.token "INT" value span] ∈ t.parts ∧
      value.toList = Pattern.signText negative ++ ds ∧ Pattern.IsWhole ds ∧
      @Conversion.value .usual (.rule "int_value" nodeSpan [.token "INT" value span]) =
        integerOutcome negative ds value span := by
  have hseven : Pattern.IsWhole ['7'] := ⟨by simp [AreDigits, isDigit], nofun, .inr (by decide)⟩
  obtain ⟨span, htree⟩ := parseTree_int true hseven
  have hmem : .token "INT" "-7" span ∈ (ParseTree.rule "value_literal" (some span)
      [.rule "int_value" (some span) [.token "INT" "-7" span]]).parts := by
    simp [parts, partsOf]
  exact ⟨_, _, span, htree, hmem, (@parse_integers .usual "-7".toList).1 .value _ htree _ _ hmem⟩

end GraphQLDoc
