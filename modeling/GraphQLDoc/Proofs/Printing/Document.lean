import GraphQLDoc.Parse
import GraphQLDoc.Proofs.ParseTree.Spelled
import GraphQLDoc.Proofs.Printing.Extensions

/-!
Whole texts that are printed are read back: their words are read as the tokens that they stand for,
these form a tree of the grammar without shorthands, so that the parser finds it, and the tree is
converted to what was printed.
-/
namespace GraphQLDoc

variable [Machine]

namespace Conversion

/-! Definitions of all sorts. -/

section

variable {r : Rule} {ws : List Word} {d : Definition}

/-- The nodes of a rule for definitions are converted as the table says. -/
theorem readsBack_of_lookup {α : Type} {convert : ParseTree → Converted α} {f : α → Definition} {x : α}
    (h : r.ReadsBack convert ws (· = x)) (hr : r.inlined = false)
    (hlookup : definitionRules.lookup r.tag = some fun t => (convert t).map f) :
    r.ReadsBack definition ws (· = f x) := by
  have hmapped := h.map (f := f) (Q := (· = f x)) fun y hy => congrArg f hy
  exact hmapped.congr fun w t ht => definition_eq (ht.tag_eq hr) hlookup

theorem readsBack_of_sort (h : r.ReadsBack definition ws (· = d))
    (hr : r ∈ [.executableDefinition, .typeSystemDefinition, .typeSystemExtension]) :
    Rule.definition.ReadsBack definition ws (· = d) :=
  h.inlined hr rfl rfl

theorem readsBack_of_executable (h : r.ReadsBack definition ws (· = d))
    (hr : r ∈ [.operationDefinition, .fragmentDefinition]) :
    Rule.definition.ReadsBack definition ws (· = d) :=
  readsBack_of_sort (h.inlined (r := .executableDefinition) hr rfl rfl) (by decide)

theorem readsBack_of_typeSystem (h : r.ReadsBack definition ws (· = d))
    (hr : r ∈ [.schemaDefinition, .typeDefinition, .directiveDefinition]) :
    Rule.definition.ReadsBack definition ws (· = d) :=
  readsBack_of_sort (h.inlined (r := .typeSystemDefinition) hr rfl rfl) (by decide)

theorem readsBack_of_extension (h : r.ReadsBack definition ws (· = d))
    (hr : r ∈ [.schemaExtension, .typeExtension]) :
    Rule.definition.ReadsBack definition ws (· = d) :=
  readsBack_of_sort (h.inlined (r := .typeSystemExtension) hr rfl rfl) (by decide)

end

/-- The rule of the nodes of a type definition. -/
def typeRule : TypeBody → Rule
  | .scalar => .scalarTypeDefinition
  | .fields .object _ _ => .objectTypeDefinition
  | .fields .interface _ _ => .interfaceTypeDefinition
  | .union _ => .unionTypeDefinition
  | .enum _ => .enumTypeDefinition
  | .inputObject _ => .inputObjectTypeDefinition

theorem readsBack_typeNode {d : TypeDefinition} (h : d.isValid = true) (h' : d.isPrintable = true) :
    (typeRule d.body).ReadsBack definition (Printing.typeDefinition d) (· = .type d) := by
  simp only [TypeDefinition.isValid, Bool.and_eq_true] at h
  simp only [TypeDefinition.isPrintable, Bool.and_eq_true] at h'
  obtain ⟨description, name, directives, body⟩ := d
  obtain ⟨⟨hn, hds⟩, hbody⟩ := h
  obtain ⟨⟨htext, hds'⟩, hbody'⟩ := h'
  cases body with
  | scalar =>
    have hnode := readsBack_typeDefinition (r := .scalarTypeDefinition) (k := .scalar)
      (d := ⟨description, name, directives, .scalar⟩) hn htext (readsBack_scalarBody hds hds') rfl rfl rfl
      (by decide) fun _ _ => rfl
    exact readsBack_of_lookup (f := .type) hnode rfl rfl
  | fields owner ns fs =>
    simp only [TypeBody.isValid, Bool.and_eq_true] at hbody
    have hfields := readsBack_fieldsBody hds hds' owner hbody.1 hbody.2 hbody'
    cases owner with
    | object =>
      have hnode := readsBack_typeDefinition (r := .objectTypeDefinition) (k := .type)
        (d := ⟨description, name, directives, .fields .object ns fs⟩) hn htext hfields rfl rfl rfl
          (by decide) fun _ _ => rfl
      exact readsBack_of_lookup (f := .type) hnode rfl rfl
    | interface =>
      have hnode := readsBack_typeDefinition (r := .interfaceTypeDefinition) (k := .interface)
        (d := ⟨description, name, directives, .fields .interface ns fs⟩) hn htext hfields rfl rfl rfl
        (by decide) fun _ _ => rfl
      exact readsBack_of_lookup (f := .type) hnode rfl rfl
  | union ns =>
    have hnode := readsBack_typeDefinition (r := .unionTypeDefinition) (k := .union)
      (d := ⟨description, name, directives, .union ns⟩) hn htext (readsBack_unionBody hds hds' hbody) rfl
      rfl rfl (by decide) fun _ _ => rfl
    exact readsBack_of_lookup (f := .type) hnode rfl rfl
  | enum vs =>
    have hnode := readsBack_typeDefinition (r := .enumTypeDefinition) (k := .enum)
      (d := ⟨description, name, directives, .enum vs⟩) hn htext (readsBack_enumBody hds hds' hbody hbody')
      rfl rfl rfl (by decide) fun _ _ => rfl
    exact readsBack_of_lookup (f := .type) hnode rfl rfl
  | inputObject fs =>
    have hnode := readsBack_typeDefinition (r := .inputObjectTypeDefinition) (k := .input)
      (d := ⟨description, name, directives, .inputObject fs⟩) hn htext
      (readsBack_inputBody hds hds' hbody hbody') rfl rfl rfl (by decide) fun _ _ => rfl
    exact readsBack_of_lookup (f := .type) hnode rfl rfl

omit [Machine] in
theorem typeRule_mem (b : TypeBody) : typeRule b ∈ [.scalarTypeDefinition, .objectTypeDefinition,
    .interfaceTypeDefinition, .unionTypeDefinition, .enumTypeDefinition,
    .inputObjectTypeDefinition] := by
  cases b with
  | fields owner ns fs => cases owner <;> simp [typeRule]
  | _ => simp [typeRule]

/-- The rule of the nodes of an extension of a type with fields. -/
def fieldsRule : FieldOwner → Rule
  | .object => .objectTypeExtension
  | .interface => .interfaceTypeExtension

/-- What may stand behind the name of an extension of a type with fields. -/
def fieldsAlternatives : List (List Clause) :=
  [[.optionalUse .implementsInterfaces, .optionalUse .directives, .use .fieldsDefinition],
    [.optionalUse .implementsInterfaces, .use .directives], [.use .implementsInterfaces]]

omit [Machine] in
theorem tags_fieldsAlternatives : ∀ cs ∈ fieldsAlternatives, ∀ s ∈ cs.flatMap Clause.tags,
    s ∉ (Clause.use .name).tags := by decide

theorem readsBack_fieldsNode {owner : FieldOwner} {n : String} {cs : List Clause} {ws : List Word}
    {found : FieldsClauses} {body : ExtensionBody} (hn : isValidName n = true)
    (h : ReadsBack cs fieldsClauses ws (· = found)) (hchoose : found.body owner = some body)
    (hcs : cs ∈ fieldsAlternatives) :
    (fieldsRule owner).ReadsBack definition
      (Keyword.extend.spelled :: (Printing.fieldsKeyword owner).spelled :: Printing.name n :: ws)
      (· = .typeExtension ⟨n, body⟩) := by
  have hd := tags_fieldsAlternatives cs hcs
  cases owner with
  | object =>
    have hnode := readsBack_typeExtension (r := .objectTypeExtension) (k := .type) (e := ⟨n, body⟩)
      hn h hchoose (List.mem_map_of_mem hcs) rfl rfl hd fun _ _ => rfl
    exact readsBack_of_lookup (f := .typeExtension) hnode rfl rfl
  | interface =>
    have hnode := readsBack_typeExtension (r := .interfaceTypeExtension) (k := .interface)
      (e := ⟨n, body⟩) hn h hchoose (List.mem_map_of_mem hcs) rfl rfl hd fun _ _ => rfl
    exact readsBack_of_lookup (f := .typeExtension) hnode rfl rfl

/-- The rule of the nodes of a type extension. -/
def extensionRule : ExtensionBody → Rule
  | .scalar _ => .scalarTypeExtension
  | .fields owner _ _ _ | .fieldsDirectives owner _ _ | .fieldsInterfaces owner _ => fieldsRule owner
  | .unionMembers _ _ | .unionDirectives _ => .unionTypeExtension
  | .enumValues _ _ | .enumDirectives _ => .enumTypeExtension
  | .inputFields _ _ | .inputDirectives _ => .inputObjectTypeExtension

omit [Machine] in
theorem extensionRule_mem (b : ExtensionBody) : extensionRule b ∈ [.scalarTypeExtension,
    .objectTypeExtension, .interfaceTypeExtension, .unionTypeExtension, .enumTypeExtension,
    .inputObjectTypeExtension] := by
  have howner (owner : FieldOwner) : fieldsRule owner ∈ [.scalarTypeExtension, .objectTypeExtension,
      .interfaceTypeExtension, .unionTypeExtension, .enumTypeExtension,
      .inputObjectTypeExtension] := by
    cases owner <;> simp [fieldsRule]
  fun_cases extensionRule b with
  | case2 | case3 | case4 => exact howner _
  | _ => simp

theorem readsBack_extensionNode {e : TypeExtension} (h : e.isValid = true)
    (h' : e.body.isPrintable = true) :
    (extensionRule e.body).ReadsBack definition (Printing.typeExtension e)
      (· = .typeExtension e) := by
  obtain ⟨n, body⟩ := e
  simp only [TypeExtension.isValid, Bool.and_eq_true] at h
  obtain ⟨hn, hbody⟩ := h
  cases body <;> simp only [ExtensionBody.isValid, Bool.and_eq_true, Bool.not_eq_true',
    List.isEmpty_eq_false_iff] at hbody
  case scalar ds =>
    have hnode := readsBack_typeExtension (r := .scalarTypeExtension) (k := .scalar)
      (e := ⟨n, .scalar ds⟩) hn (.single (readsBack_use_directives hbody.1 hbody.2 h'))
      (onlyDirectives_eq hbody.1) List.mem_cons_self rfl rfl (by decide) fun _ _ => rfl
    exact readsBack_of_lookup (f := .typeExtension) hnode rfl rfl
  case fields owner ns ds fs =>
    obtain ⟨⟨hns, hds⟩, hne, hfs⟩ := hbody
    simp only [ExtensionBody.isPrintable, Bool.and_eq_true] at h'
    exact readsBack_fieldsNode hn (readsBack_withFields hns hds h'.1 hne hfs h'.2)
      (body_withFields hne) List.mem_cons_self
  case fieldsDirectives owner ns ds =>
    obtain ⟨hns, hne, hds⟩ := hbody
    exact readsBack_fieldsNode hn (readsBack_withoutFields hns hne hds h') (body_withoutFields hne)
      (.tail _ List.mem_cons_self)
  case fieldsInterfaces owner ns =>
    exact readsBack_fieldsNode hn (readsBack_onlyInterfaces hbody.1 hbody.2)
      (body_onlyInterfaces hbody.1) (.tail _ (.tail _ List.mem_cons_self))
  case unionMembers ds ns =>
    obtain ⟨hds, hne, hns⟩ := hbody
    have hclauses := readsBack_directivesAnd hds h' (readsBack_use_unionMembers hne hns) (by decide)
    have hnode := readsBack_typeExtension (r := .unionTypeExtension) (k := .union)
      (e := ⟨n, .unionMembers ds ns⟩)
      (f := itemsOrDirectives .unionMembers .unionDirectives) hn hclauses
      (itemsOrDirectives_eq hne) List.mem_cons_self rfl rfl (by decide) fun _ _ => rfl
    exact readsBack_of_lookup (f := .typeExtension) hnode rfl rfl
  case unionDirectives ds =>
    have hclauses := readsBack_directivesAlone (a := unionMembers) (i := .unionMemberTypes)
      hbody.2 h' hbody.1 runs_clause_absent
    have hnode := readsBack_typeExtension (r := .unionTypeExtension) (k := .union)
      (e := ⟨n, .unionDirectives ds⟩)
      (f := itemsOrDirectives .unionMembers .unionDirectives) hn hclauses
      (itemsOrDirectives_nil hbody.1) (.tail _ List.mem_cons_self) rfl rfl (by decide) fun _ _ => rfl
    exact readsBack_of_lookup (f := .typeExtension) hnode rfl rfl
  case enumValues ds vs =>
    obtain ⟨hds, hne, hvs⟩ := hbody
    simp only [ExtensionBody.isPrintable, Bool.and_eq_true] at h'
    have hclauses := readsBack_directivesAnd hds h'.1 (readsBack_use_enumValues hne hvs h'.2)
      (by decide)
    have hnode := readsBack_typeExtension (r := .enumTypeExtension) (k := .enum)
      (e := ⟨n, .enumValues ds vs⟩)
      (f := itemsOrDirectives .enumValues .enumDirectives) hn hclauses
      (itemsOrDirectives_eq hne) List.mem_cons_self rfl rfl (by decide) fun _ _ => rfl
    exact readsBack_of_lookup (f := .typeExtension) hnode rfl rfl
  case enumDirectives ds =>
    have hclauses := readsBack_directivesAlone (a := enumValues) (i := .enumValuesDefinition)
      hbody.2 h' hbody.1 runs_clause_absent
    have hnode := readsBack_typeExtension (r := .enumTypeExtension) (k := .enum)
      (e := ⟨n, .enumDirectives ds⟩)
      (f := itemsOrDirectives .enumValues .enumDirectives) hn hclauses
      (itemsOrDirectives_nil hbody.1) (.tail _ List.mem_cons_self) rfl rfl (by decide) fun _ _ => rfl
    exact readsBack_of_lookup (f := .typeExtension) hnode rfl rfl
  case inputFields ds fs =>
    obtain ⟨hds, hne, hfs⟩ := hbody
    simp only [ExtensionBody.isPrintable, Bool.and_eq_true] at h'
    have hclauses := readsBack_directivesAnd hds h'.1 (readsBack_use_inputFields hne hfs h'.2)
      (by decide)
    have hnode := readsBack_typeExtension (r := .inputObjectTypeExtension) (k := .input)
      (e := ⟨n, .inputFields ds fs⟩)
      (f := itemsOrDirectives .inputFields .inputDirectives) hn hclauses
      (itemsOrDirectives_eq hne) List.mem_cons_self rfl rfl (by decide) fun _ _ => rfl
    exact readsBack_of_lookup (f := .typeExtension) hnode rfl rfl
  case inputDirectives ds =>
    have hclauses := readsBack_directivesAlone (a := inputFields)
      (i := .inputFieldsDefinition) hbody.2 h' hbody.1 runs_clause_absent
    have hnode := readsBack_typeExtension (r := .inputObjectTypeExtension) (k := .input)
      (e := ⟨n, .inputDirectives ds⟩)
      (f := itemsOrDirectives .inputFields .inputDirectives) hn hclauses
      (itemsOrDirectives_nil hbody.1) (.tail _ List.mem_cons_self) rfl rfl (by decide) fun _ _ => rfl
    exact readsBack_of_lookup (f := .typeExtension) hnode rfl rfl

theorem readsBack_definition {d : Definition} (h : d.isValid = true) (h' : d.isPrintable = true) :
    Rule.definition.ReadsBack definition (Printing.definition d) (· = d) := by
  cases d with
  | operation o =>
    have hnode := readsBack_of_lookup (f := .operation) (readsBack_operation h h') rfl rfl
    exact readsBack_of_executable hnode (by decide)
  | fragment f =>
    have hnode := readsBack_of_lookup (f := .fragment) (readsBack_fragment h h') rfl rfl
    exact readsBack_of_executable hnode (by decide)
  | schema s =>
    have hnode := readsBack_of_lookup (f := .schema) (readsBack_schemaDefinition h h') rfl rfl
    exact readsBack_of_typeSystem hnode (by decide)
  | type d =>
    have hnode := (readsBack_typeNode h h').inlined (r := .typeDefinition) (typeRule_mem d.body) rfl rfl
    exact readsBack_of_typeSystem hnode (by decide)
  | directive d =>
    have hnode := readsBack_of_lookup (f := .directive) (readsBack_directiveDefinition h h') rfl rfl
    exact readsBack_of_typeSystem hnode (by decide)
  | schemaExtension e =>
    have hnode := readsBack_of_lookup (f := .schemaExtension) (readsBack_schemaExtension h h') rfl rfl
    exact readsBack_of_extension hnode (by decide)
  | typeExtension e =>
    have hnode := (readsBack_extensionNode h h').inlined (r := .typeExtension)
      (extensionRule_mem e.body) rfl rfl
    exact readsBack_of_extension hnode (by decide)

/-! Whole documents. -/

theorem definitions_eq_ok {ts : List ParseTree} {ds : List Definition}
    (h : Converts .definition definition ts ds) {rule : String} {span : Option Span} {n : Nat} :
    definitions ts.length ⟨rule, span, n, ts⟩ = .ok ds := by
  induction h generalizing n with
  | nil => rfl
  | @cons t d ts ds h _ ih =>
    have hnext : (⟨rule, span, n, t :: ts⟩ : Cursor).next definitionTags =
        .ok (t, ⟨rule, span, n + 1, ts⟩) := if_pos h.1
    rw [List.length_cons, definitions, if_neg (by simp), hnext]
    show (definition t).bind _ = _
    rw [h.2]
    show (definitions ts.length ⟨rule, span, n + 1, ts⟩).bind _ = _
    rw [ih]
    rfl

/-- A document is read back if its definitions are, whatever words these have. -/
theorem readsBack_definitions {words : Definition → List Word} {ds : List Definition} (hne : ds ≠ [])
    (h : ∀ d ∈ ds, Rule.definition.ReadsBack definition (words d) (· = d)) :
    Rule.document.ReadsBack document (ds.flatMap words) (· = ⟨ds⟩) := by
  have hlists := Lists.oneOrMore (l := .definitions) rfl hne h
  refine ⟨hlists.spelled, fun w hw => ?_⟩
  obtain ⟨span, ts, htree, hconverts⟩ :=
    hlists.node (r := .document) hw List.mem_cons_self rfl rfl fun _ _ => rfl
  refine ⟨_, ⟨ds⟩, rfl, htree, ?_⟩
  have henter : Cursor.enter "document" (.rule Rule.document.tag span ts) =
      .ok ⟨"document", span, 0, ts⟩ := rfl
  rw [document, henter]
  show (definitions ts.length ⟨"document", span, 0, ts⟩).bind _ = _
  rw [definitions_eq_ok hconverts]
  rfl

theorem readsBack_document {d : Document} (h : d.isValid = true) (h' : d.isPrintable = true) :
    Rule.document.ReadsBack document (Printing.document d) (· = d) := by
  simp only [Document.isPrintable, Bool.and_eq_true, Bool.not_eq_true',
    List.isEmpty_eq_false_iff] at h'
  exact readsBack_definitions h'.1 (readsBack_all readsBack_definition h h'.2)

end Conversion

omit [Machine] in
theorem parseWith_eq_ok {α : Type} {s : Start} {convert : ParseTree → Converted α} {text : List Char}
    {x : α} : parseWith s convert text = .ok x ↔ ∃ t, parseTree s text = .ok t ∧ convert t = .ok x := by
  unfold parseWith
  cases parseTree s text with
  | error e => exact ⟨nofun, nofun⟩
  | ok t => cases h : convert t <;> simp [h]

omit [Machine] in
/-- What the words of a text read back is what the text is parsed into. -/
theorem parseWith_of_readsAs {α : Type} {s : Start} {convert : ParseTree → Converted α}
    {ws : List Word} {x : α} {text : List Char} {ts : List Token}
    (h : s.rule.ReadsBack convert ws (· = x)) (hreads : (Input.ofText text).ReadsAs ts)
    (hwords : ts.map Token.word = ws) : parseWith s convert text = .ok x := by
  obtain ⟨t, x, rfl, htree, hconvert⟩ := h.reads ts hwords
  obtain ⟨ds, hall, hsymbols, htokens, htrees⟩ := htree
  obtain ⟨d, rfl, hsymbol⟩ := List.map_eq_singleton_iff.mp hsymbols
  have htokens : d.tokens = ts := by
    simpa [Derivation.tokensOfList] using htokens
  have hparse : parseTree s text = .ok t := by
    have htrees : (d.trees false).1 = [t] := by simpa [Derivation.treesOfList] using htrees
    rw [parseTree, derive_complete hall.1 hsymbol (htokens ▸ hreads)]
    show Except.ok ((d.trees false).1.head?.getD _) = _
    rw [htrees]
    rfl
  exact parseWith_eq_ok.mpr ⟨t, hparse, hconvert⟩

/-- A document that a text can denote is parsed from its words with single spaces between them, if its
nesting takes no more calls than the machine grants. -/
theorem parseDocument_print (d : Document) (h : d.isValid = true) (h' : d.isPrintable = true) :
    parseDocument d.print = .ok d :=
  have hback := Conversion.readsBack_document h h'
  parseWith_of_readsAs (s := .document) hback (Input.readsAs_spellOut hback.spelled .start)
    (map_word_tokensFrom .start (Printing.document d))

/-- Words of the grammar as names. -/
def reservedNames : Document :=
  ⟨[.type ⟨some "scalar", "type", [⟨"on", [⟨"extend", .enum "query"⟩]⟩],
      .fields .object ["interface"] [⟨none, "implements", [], .nonNull (.named "union"), []⟩]⟩,
    .operation ⟨.subscription, some "mutation", [], [],
      [.field (some "true") "null" [⟨"input", .list [.int 0, .boolean false]⟩] [] none,
        .fragmentSpread "fragment" []]⟩]⟩

omit [Machine] in
theorem parseDocument_reservedNames : reservedNames.isValid = true ∧
    @Document.isPrintable .usual reservedNames = true ∧
    @parseDocument .usual reservedNames.print = .ok reservedNames :=
  ⟨by decide, by decide, @parseDocument_print .usual reservedNames (by decide) (by decide)⟩

/-! Types and values by themselves. A type is printed without spaces, and the words of a value with any
separators between them, as long as there are some between two words that are no marks. -/

/-- The name of a type, brackets around what a list is of, and an exclamation mark behind what is not
null. -/
def TypeRef.print : TypeRef → List Char
  | named n => n.toList
  | list of => '[' :: (of.print ++ [']'])
  | nonNull of => of.print ++ ['!']

/-- The words of a value with gaps between them. -/
def Value.print (gap : Word → Word → List Char) (v : Value) : List Char :=
  spaceOut gap (Printing.value v)

omit [Machine] in
/-- The words of a type need nothing between them. -/
theorem isWritten_typeRef (r : TypeRef) {ws : List Word} {rest : List Char} (hrest : Breaks rest)
    (h : IsWritten ws rest) : IsWritten (Printing.typeRef r ++ ws) (r.print ++ rest) := by
  induction r generalizing ws rest with
  | named n =>
    have hword : IsWritten (Printing.name n :: ws) ((Printing.name n).2 ++ rest) :=
      .word (fun _ => hrest) h
    rwa [Printing.snd_name] at hword
  | list of ih =>
    have hclosed : IsWritten (Punctuator.bracketRight.spelled :: ws) (']' :: rest) :=
      .word (fun hmark => absurd rfl hmark) h
    have hbreaks : Breaks (']' :: rest) := .mark (p := .bracketRight) (by decide) rest
    have hinner := ih hbreaks hclosed
    have hopen : IsWritten (Punctuator.bracketLeft.spelled :: _) ('[' :: _) :=
      .word (fun hmark => absurd rfl hmark) hinner
    simpa [Printing.typeRef, TypeRef.print] using hopen
  | nonNull of ih =>
    have hmark : IsWritten (Punctuator.bang.spelled :: ws) ('!' :: rest) :=
      .word (fun hmark => absurd rfl hmark) h
    have hbreaks : Breaks ('!' :: rest) := .mark (p := .bang) (by decide) rest
    have hinner := ih hbreaks hmark
    simpa [Printing.typeRef, TypeRef.print] using hinner

omit [Machine] in
/-- What the words of a text read back is what the text is parsed into, however it writes them. -/
theorem parseWith_of_isWritten {α : Type} {s : Start} {convert : ParseTree → Converted α}
    {ws : List Word} {x : α} {text : List Char} (h : s.rule.ReadsBack convert ws (· = x))
    (hwritten : IsWritten ws text) : parseWith s convert text = .ok x := by
  obtain ⟨ts, hreads, hwords⟩ := hwritten.readsAs h.spelled .start
  exact parseWith_of_readsAs h hreads hwords

omit [Machine] in
theorem parseType_print {r : TypeRef} (h : r.isValid = true) : parseType r.print = .ok r := by
  have hback : Rule.typeReference.ReadsBack Conversion.typeReference (Printing.typeRef r) (· = r) :=
    (ReadsBack.single (Conversion.readsBack_type h)).node (r := .typeReference) List.mem_cons_self rfl
      rfl fun _ _ => rfl
  have hwritten := isWritten_typeRef r .nil .nil
  rw [List.append_nil, List.append_nil] at hwritten
  exact parseWith_of_isWritten (s := .type) hback hwritten

/-- Whether a text can denote a value, however deep that is: a machine can be thought of that reads it. -/
def Value.HasText (v : Value) : Prop := ∃ large, @Value.isPrintable large v = true

omit [Machine] in
theorem exists_tree_of_print {gap : Word → Word → List Char} (hgap : IsGap gap) {v : Value}
    (h : v.isValid = true) (h' : v.HasText) :
    ∃ large t, parseTree .value (v.print gap) = .ok t ∧ @Conversion.valueLiteral large t = .ok v := by
  obtain ⟨large, h'⟩ := h'
  have hback : Rule.valueLiteral.ReadsBack Conversion.valueLiteral (Printing.value v) (· = v) :=
    (ReadsBack.last (Conversion.readsBack_value v h h')).node (r := .valueLiteral) List.mem_cons_self
      rfl rfl fun _ _ => rfl
  have hlarge := parseWith_of_isWritten (s := .value) hback (isWritten_spaceOut hgap _)
  exact ⟨large, parseWith_eq_ok.mp hlarge⟩

/-- A value is parsed from what is printed for it if the machine grants its calls. -/
theorem parseValue_print {gap : Word → Word → List Char} (hgap : IsGap gap) {v : Value}
    (h : v.isValid = true) (h' : v.HasText) :
    parseValue (v.print gap) = (ifGranted v.calls v).mapError .conversion := by
  obtain ⟨large, t, htree, hvalue⟩ := exists_tree_of_print hgap h h'
  unfold parseValue parseWith
  rw [htree]
  dsimp only
  rw [Conversion.valueLiteral_eq_ifGranted hvalue]
  split
  · next he => rw [he]; rfl
  · next hx => rw [hx]; rfl

/-- Every type is parsed from what is printed for it. Every value that a text can denote is parsed from
what is printed for it with any gaps, as long as the machine grants the calls of its nesting, and else
its conversion breaks off. -/
theorem parse_print {gap : Word → Word → List Char} (hgap : IsGap gap) :
    (∀ r : TypeRef, r.isValid = true → parseType r.print = .ok r) ∧
      ∀ v : Value, v.isValid = true → v.HasText →
        (v.calls ≤ Machine.calls → parseValue (v.print gap) = .ok v) ∧
        (Machine.calls < v.calls → parseValue (v.print gap) = .error (.conversion .tooDeep)) := by
  refine ⟨fun _ h => parseType_print h, fun v h h' => ?_⟩
  rw [parseValue_print hgap h h', ifGranted]
  exact ⟨fun hcalls => by rw [if_pos hcalls]; rfl, fun hcalls => by rw [if_neg hcalls.not_ge]; rfl⟩

/-- Commas between words, and nothing beside the marks of lists and objects. -/
def commaGap (w v : Word) : List Char :=
  if w.1.kind = .mark ∨ v ∈ [Punctuator.colon.spelled, Punctuator.bracketRight.spelled,
    Punctuator.braceRight.spelled] then [] else [',', ' ']

omit [Machine] in
theorem isGap_commaGap : IsGap commaGap where
  separators w v c hc := by
    unfold commaGap at hc
    split at hc
    · cases hc
    · obtain rfl | rfl : c = ',' ∨ c = ' ' := by simpa using hc
      all_goals rfl
  apart w v hgap := by
    unfold commaGap at hgap
    split at hgap
    · next hnext =>
      refine hnext.imp_right fun hv => ?_
      obtain rfl | rfl | rfl := by simpa using hv
      · exact ⟨.colon, by decide, rfl⟩
      · exact ⟨.bracketRight, by decide, rfl⟩
      · exact ⟨.braceRight, by decide, rfl⟩
    · cases hgap

/-- A list of a number and of an object that has one field twice. -/
def repeatedField : Value :=
  .list [.int (-1), .object [("on", .string "\n" false), ("on", .variableRef "x")]]

omit [Machine] in
theorem parse_print_repeatedField :
    repeatedField.print commaGap = "[-1, \x7bon:\"\\n\", on:$x\x7d]".toList ∧
      @parseValue .usual "[-1, \x7bon:\"\\n\", on:$x\x7d]".toList = .ok repeatedField ∧
      parseType "[[Post!]!]".toList = .ok (.list (.nonNull (.list (.nonNull (.named "Post"))))) := by
  have hprint : repeatedField.print commaGap = "[-1, \x7bon:\"\\n\", on:$x\x7d]".toList := by
    decide
  obtain ⟨htype, hvalue⟩ := @parse_print .usual _ isGap_commaGap
  exact ⟨hprint, hprint ▸ (hvalue repeatedField (by decide) ⟨.usual, by decide⟩).1 (by decide),
    htype (.list (.nonNull (.list (.nonNull (.named "Post"))))) (by decide)⟩

/-- Lists in each other around a null. -/
def Value.listsOf : Nat → Value
  | 0 => .null
  | n + 1 => .list [listsOf n]

omit [Machine] in
theorem hasText_listsOf : (Value.listsOf 400).HasText := ⟨⟨1200, 0⟩, by decide +kernel⟩

omit [Machine] in
theorem parseValue_listsOf :
    @parseValue .usual ((Value.listsOf 400).print commaGap) = .error (.conversion .tooDeep) := by
  have hcalls : (Value.listsOf 400).calls = 1200 := by decide +kernel
  rw [@parseValue_print .usual _ isGap_commaGap _ (by decide +kernel) hasText_listsOf, hcalls]
  rfl

omit [Machine] in
/-- What is printed for a value is not parsed where that is nested too deeply. -/
theorem not_parse_print_listsOf :
    ¬ ∀ v : Value, v.isValid = true → v.HasText → @parseValue .usual (v.print commaGap) = .ok v := by
  intro h
  have hparse := h (.listsOf 400) (by decide +kernel) hasText_listsOf
  rw [parseValue_listsOf] at hparse
  cases hparse

end GraphQLDoc
