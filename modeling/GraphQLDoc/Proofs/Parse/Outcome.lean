import GraphQLDoc.Proofs.Conversion.TypeSystem
import GraphQLDoc.Proofs.ParseTree.Alternatives
import GraphQLDoc.Proofs.Printing.Document
import GraphQLDoc.Proofs.Regular.Document

/-!
What can come out of parsing a text: a value, an error of syntax, or a literal without a meaning. The
conversion never finds a tree of another shape than it expects, and never makes a node that breaks the
rules of documents. It breaks off only where lists, objects or selection sets are nested more deeply
than the machine grants calls.
-/
namespace GraphQLDoc

/-- An error that a text, and not only a tree from elsewhere, can lead to. -/
def ParseError.IsExpected : ParseError → Prop
  | .malformed _ => True
  | .conversion e => ∃ p span, e = .literal p span

/-- The integers that are read as tokens have no more digits than an integer may have. -/
def HasShortIntegers (start : Start) (text : List Char) : Prop :=
  ∀ d, derive start text = .ok d → ∀ t ∈ d.tokens, t.terminal = .int →
    t.digitCount ≤ Json.maxIntegerDigits

theorem Input.SplitsInto.length_le {i : Input} {ts : List Token} (h : i.SplitsInto ts) :
    ∀ t ∈ ts, t.text.length ≤ i.text.length := by
  induction h with
  | done => exact nofun
  | @next i rest t ts gap ignored text span position isMatch tail ih =>
    have hlength := congrArg List.length text
    simp only [List.length_append] at hlength
    refine List.forall_mem_cons.mpr ⟨by omega, fun u hu => ?_⟩
    have hrest := ih u hu
    omega

theorem HasShortIntegers.of_length_le {start : Start} {text : List Char}
    (h : text.length ≤ Json.maxIntegerDigits) : HasShortIntegers start text := by
  intro d hd t ht _
  have hdigits : t.digitCount ≤ t.text.length := List.length_filter_le _ _
  have hlength : t.text.length ≤ text.length := (derive_tokens hd).length_le t ht
  omega

/-- Integers with no more digits than an integer may have, in the grammar. -/
def Grammar.short : Grammar :=
  Grammar.full.only fun t => t.terminal = .int → t.digitCount ≤ Json.maxIntegerDigits

instance : Grammar.short.IsUsual := inferInstanceAs (Grammar.full.only _).IsUsual

theorem Allows.literals :
    Allows Grammar.short (fun e => (∃ p span, e = .literal p span) ∨ e = .tooDeep) where
  literal p span := .inl ⟨p, span, rfl⟩
  tooLong h ht hlong _ := absurd (h.2 ht) (Nat.not_le_of_lt hlong)
  tooDeep := .inr rfl

/-- The tree of a text takes more nested calls than the machine grants. -/
def IsNestedTooDeeply [Machine] (start : Start) (text : List Char) : Prop :=
  ∃ t, parseTree start text = .ok t ∧ Machine.calls < t.calls

/-- What a text leads to: a value, or an error that a text can lead to, and if it is nested too deeply
also that one. -/
inductive IsExpected {α : Type} (deep : Prop) (P : α → Prop) : Except ParseError α → Prop where
  | ok {a : α} (h : P a) : IsExpected deep P (.ok a)
  | error {e : ParseError} (h : e.IsExpected) : IsExpected deep P (.error e)
  | tooDeep (h : deep) : IsExpected deep P (.error (.conversion .tooDeep))

/-- The tree of a text is one of the grammar with the tokens of the text only. -/
theorem parseTree_isTreeOf {start : Start} {text : List Char} {t : ParseTree}
    (h : parseTree start text = .ok t) : ∃ d, derive start text = .ok d ∧
      ∀ P : Token → Prop, (∀ a ∈ d.tokens, P a) →
        IsTreeOf (Grammar.full.only P) start.rule d.tokens t := by
  obtain ⟨d, hd, htrees⟩ := parseTree_eq_ok h
  obtain ⟨hof, hsymbol⟩ := derive_sound hd
  exact ⟨d, hd, fun P hP => ⟨[d], ⟨hof.only d hP, trivial⟩, by rw [List.map_singleton, hsymbol],
    by simp [Derivation.tokensOfList], by simp [Derivation.treesOfList, htrees]⟩⟩

/-- What a text is parsed to was converted from its tree, which is one of the grammar. -/
theorem exists_tree_of_parseWith {α : Type} {start : Start} {convert : ParseTree → Converted α}
    {text : List Char} {a : α} (h : parseWith start convert text = .ok a) :
    ∃ t, parseTree start text = .ok t ∧ convert t = .ok a ∧ ∃ w, IsTreeOf .full start.rule w t := by
  obtain ⟨t, ht, hconvert⟩ := parseWith_eq_ok.mp h
  obtain ⟨d, hd, htrees⟩ := parseTree_eq_ok ht
  obtain ⟨hof, hsymbol⟩ := derive_sound hd
  exact ⟨t, ht, hconvert, d.tokens, [d], ⟨hof, trivial⟩, by rw [List.map_singleton, hsymbol],
    by simp [Derivation.tokensOfList], by simp [Derivation.treesOfList, htrees]⟩

/-- A text is parsed as its trees are converted. -/
theorem isExpected_parseWith {α : Type} {start : Start} {convert : ParseTree → Converted α}
    {deep : Prop} {P : α → Prop} {text : List Char} (hshort : HasShortIntegers start text)
    (hconvert : ∀ w t, IsTreeOf .short start.rule w t →
      Gives (fun e => (∃ p span, e = .literal p span) ∨ e = .tooDeep) P (convert t))
    (hdeep : ∀ t, parseTree start text = .ok t → convert t = .error .tooDeep → deep) :
    IsExpected deep P (parseWith start convert text) := by
  unfold parseWith
  cases ht : parseTree start text with
  | error e => exact .error trivial
  | ok t =>
    obtain ⟨d, hd, htree⟩ := parseTree_isTreeOf ht
    have htree : IsTreeOf .short start.rule d.tokens t := htree _ (hshort d hd)
    have hgives := hconvert _ t htree
    cases hc : convert t with
    | error e =>
      rw [hc] at hgives
      simp only [hc]
      rcases hgives with hliteral | rfl
      · exact .error hliteral
      · exact .tooDeep (hdeep t ht hc)
    | ok a =>
      rw [hc] at hgives
      simp only [hc]
      exact .ok hgives

section

variable [Machine] {start : Start} {text : List Char} {t : ParseTree}

theorem IsNestedTooDeeply.of_document (h : parseTree start text = .ok t)
    (hdeep : Conversion.document t = .error .tooDeep) : IsNestedTooDeeply start text :=
  ⟨t, h, Nat.lt_of_not_le fun hcalls => (Conversion.ne_tooDeep hcalls).2.1 hdeep⟩

theorem IsNestedTooDeeply.of_valueLiteral (h : parseTree start text = .ok t)
    (hdeep : Conversion.valueLiteral t = .error .tooDeep) : IsNestedTooDeeply start text :=
  ⟨t, h, Nat.lt_of_not_le fun hcalls => (Conversion.ne_tooDeep hcalls).2.2 hdeep⟩

omit [Machine] in
theorem typeReference_ne_tooDeep (h : parseTree .type text = .ok t) :
    Conversion.typeReference t ≠ .error .tooDeep := by
  obtain ⟨d, -, htree⟩ := parseTree_isTreeOf h
  have hgives := Conversion.gives_typeReference (E := (· ≠ .tooDeep))
    (htree (fun _ => True) fun _ _ => trivial)
  intro hdeep
  rw [hdeep] at hgives
  exact hgives rfl

/-- Parsing ends in a well-formed document, value or type, in an error of syntax, or in the error of
a literal, as long as the text of a document or a value is not nested too deeply. -/
theorem parse_isExpected (text : List Char) :
    (HasShortIntegers .document text → IsExpected (IsNestedTooDeeply .document text)
      (fun d => d.isValid = true) (parseDocument text)) ∧
    (HasShortIntegers .value text → IsExpected (IsNestedTooDeeply .value text)
      (fun v => v.isValid = true) (parseValue text)) ∧
    (HasShortIntegers .type text → IsExpected False (fun r => r.isValid = true) (parseType text)) :=
  ⟨fun h => isExpected_parseWith h (fun _ _ => Conversion.gives_document Allows.literals)
      fun _ => .of_document,
    fun h => isExpected_parseWith h (fun _ _ => Conversion.gives_valueLiteral Allows.literals)
      fun _ => .of_valueLiteral,
    fun h => isExpected_parseWith h (fun _ _ => Conversion.gives_typeReference)
      fun _ => typeReference_ne_tooDeep⟩

end

/-- A document with one scalar type is parsed as its tree is converted, wherever the parts stand. -/
theorem parseDocument_scalar [Machine] {name : List Char} {d : Document} (hname : IsSpelling .name name)
    (hconvert : ∀ s₁ s₂ s₃ span, Conversion.document (.rule "document" s₁
      [.rule "scalar_type_definition" s₂
        [.rule "name" s₃ [.token "NAME" (.ofList name) span]]]) = .ok d) :
    parseDocument (spellOut (scalarWords name)) = .ok d := by
  obtain ⟨⟨_, _, _⟩, ⟨_, text, span⟩, hwords, hd⟩ := exists_derive_scalar hname
  simp only [scalarWords, Token.word, List.cons.injEq, Prod.mk.injEq, and_true] at hwords
  obtain ⟨⟨rfl, rfl⟩, rfl, htext⟩ := hwords
  subst text
  have htree : ∃ s₁ s₂ s₃, parseTree .document (spellOut (scalarWords name)) =
      .ok (.rule "document" s₁ [.rule "scalar_type_definition" s₂
        [.rule "name" s₃ [.token "NAME" (.ofList name) span]]]) := by
    rw [parseTree, hd]
    exact ⟨_, _, _, rfl⟩
  obtain ⟨s₁, s₂, s₃, htree⟩ := htree
  rw [parseDocument, parseWith, htree]
  simp only [hconvert]

theorem parseDocument_exampleText [Machine] :
    parseDocument exampleText = .ok ⟨[.type ⟨none, "A", [], .scalar⟩]⟩ :=
  parseDocument_scalar (exampleWords_isSpelling _ (List.mem_cons_of_mem _ List.mem_cons_self))
    fun _ _ _ _ => rfl

theorem exampleText_isExpected :
    (HasShortIntegers .document exampleText ∧ HasShortIntegers .value exampleText ∧
      HasShortIntegers .type exampleText) ∧
    IsExpected (@IsNestedTooDeeply .usual .document exampleText) (fun d => d.isValid = true)
      (@parseDocument .usual exampleText) ∧
    IsExpected (@IsNestedTooDeeply .usual .value exampleText) (fun v => v.isValid = true)
      (@parseValue .usual exampleText) ∧
    IsExpected False (fun r => r.isValid = true) (parseType exampleText) := by
  have hlength : exampleText.length ≤ Json.maxIntegerDigits := by decide
  have hshort (start : Start) : HasShortIntegers start exampleText := .of_length_le hlength
  have h := @parse_isExpected .usual exampleText
  exact ⟨⟨hshort .document, hshort .value, hshort .type⟩, h.1 (hshort .document),
    h.2.1 (hshort .value), h.2.2 (hshort .type)⟩

/-- Not every text leads to something expected: lists in each other may exhaust the calls. -/
theorem not_isExpected_listsOf :
    ¬ ∀ text, HasShortIntegers .value text →
      IsExpected False (fun v => v.isValid = true) (@parseValue .usual text) := by
  intro h
  have hlength : ((Value.listsOf 400).print commaGap).length ≤ Json.maxIntegerDigits := by
    decide +kernel
  have hexpected := h _ (.of_length_le hlength)
  rw [parseValue_listsOf] at hexpected
  cases hexpected with
  | error hliteral =>
    obtain ⟨p, span, he⟩ := hliteral
    cases he
  | tooDeep hdeep => exact hdeep

end GraphQLDoc
