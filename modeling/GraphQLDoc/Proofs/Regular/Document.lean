import GraphQLDoc.Proofs.Regular.Executable

/-!
Type system definitions and whole documents of regular trees. Main statement: from a regular tree
each conversion comes to a node or to a declared error. Where a token stands for a rule, or holds a
text that is none of its terminal's, it can end in another error.
-/
namespace GraphQLDoc.Conversion

variable [Machine] {E : ConversionError → Prop} [CoversDeclared E] {α β : Type}

theorem answers_interfaces : interfaces.Answers E := .clause (by decide) (by decide) answers_namedType

theorem answers_rootEntry : AnswersNodes E rootEntry :=
  fun _ hnode ht => hnode.answers ht _ (.next fun _ ht =>
    .bind (.lift (answers_operationType.of_tag (by decide) ht)) fun _ => .next fun _ ht =>
    .bind (.lift (answers_namedType.of_tag (by decide) ht)) fun _ => .pure _)

theorem answers_addRoot (roots : RootTypes) : AnswersNodes E (addRoot roots) := by
  intro t hnode ht
  refine (answers_rootEntry t hnode ht).bind fun ⟨o, name⟩ => ?_
  dsimp only
  split
  · exact CoversDeclared.literal
  · trivial

theorem answers_rootTypes : rootTypes.Answers E :=
  Walk.GivesAmong.bind (.repeated _) fun _ hentries => .lift (Answers.foldlM (fun t ht roots =>
    (answers_addRoot roots).of_tag (by decide) (hentries t ht)) _)

theorem answers_schemaDefinition : AnswersNodes E schemaDefinition :=
  fun _ hnode ht => hnode.answers ht _ (.bind answers_description fun _ =>
    .bind answers_directives fun _ => .bind answers_rootTypes fun _ => .pure _)

theorem answers_inputValueDefinition : AnswersNodes E inputValueDefinition :=
  .whole (.bind answers_description fun _ => .bind .name fun _ => .bind answers_type fun _ =>
    .bind answers_defaultValue fun _ => .bind answers_directives fun _ => .pure _) fun _ =>
    .bind (.checkNames _) fun _ => .pure _

theorem answers_argumentsDefinition : argumentsDefinition.Answers E :=
  .clause (by decide) (by decide) answers_inputValueDefinition

theorem answers_fieldDefinition : AnswersNodes E fieldDefinition :=
  .whole (.bind answers_description fun _ => .bind .name fun _ =>
    .bind answers_argumentsDefinition fun _ => .bind answers_type fun _ =>
    .bind answers_directives fun _ => .pure _) fun _ => .bind (.checkNames _) fun _ => .pure _

theorem answers_enumValueDefinition : AnswersNodes E enumValueDefinition := by
  refine .whole (.bind answers_description fun _ => .next fun t _ =>
    .bind (.lift (Walk.Answers.nameToken t _)) fun _ => .bind answers_directives fun _ => .pure _)
    fun ⟨v, span⟩ => ?_
  dsimp only
  split
  · exact CoversDeclared.literal
  · exact (Answers.checkNames _).bind fun _ => .pure _

theorem answers_fields : fields.Answers E := .clause (by decide) (by decide) answers_fieldDefinition

theorem answers_inputFields : inputFields.Answers E :=
  .clause (by decide) (by decide) answers_inputValueDefinition

theorem answers_unionMembers : unionMembers.Answers E :=
  .clause (by decide) (by decide) answers_namedType

theorem answers_enumValues : enumValues.Answers E :=
  .clause (by decide) (by decide) answers_enumValueDefinition

theorem answers_typeDefinition {rule : String} {body : Walk (List Directive × TypeBody)}
    (hbody : body.Answers E) : AnswersNodes E (typeDefinition rule body) :=
  .whole (.bind answers_description fun _ => .bind .name fun _ => .bind hbody fun _ => .pure _)
    fun _ => .bind (.checkNames _) fun _ => .pure _

theorem answers_fieldsBody (owner : FieldOwner) : (fieldsBody owner).Answers E :=
  .bind answers_interfaces fun _ => .bind answers_directives fun _ => .bind answers_fields fun _ =>
    .pure _

/-- Directives, and one more clause behind them. -/
theorem answers_directivesAnd {items : Walk α} (hitems : items.Answers E)
    {f : List Directive → α → β} :
    (do let ds ← directives; let as ← items; return f ds as).Answers E :=
  .bind answers_directives fun _ => .bind hitems fun _ => .pure _

theorem answers_directiveLocation : AnswersNodes E directiveLocation := by
  refine fun _ hnode ht => (hnode.whole ht _ (.next _)).bind fun _ htoken => ?_
  rcases htoken.token_or (by decide) with ⟨tag, text, span, rfl, -⟩ | ⟨⟨_, _, _, rfl⟩, hcovered⟩
  · dsimp only
    split
    · trivial
    · exact CoversDeclared.literal
  · exact hcovered _

theorem answers_directiveDefinition : AnswersNodes E directiveDefinition := by
  intro t hnode ht
  have hlocations : (Walk.clause "directive_locations" "directive_location" directiveLocation).Answers E :=
    .clause (by decide) (by decide) answers_directiveLocation
  refine (hnode.answers ht _ (.bind answers_description fun _ => .bind .name fun _ =>
    .bind answers_argumentsDefinition fun _ =>
    .node? (.bind hlocations fun _ => .pure _) fun _ _ => .bind hlocations fun _ => .pure _)).bind
    fun d => ?_
  dsimp only
  split
  · exact CoversDeclared.shape
  · exact (Answers.checkNames _).bind fun _ => .pure _

omit [Machine] in
theorem answers_noClauses (t : ParseTree) : Answers E (noClauses t : Converted α) :=
  CoversDeclared.shape

theorem answers_schemaExtension : AnswersNodes E schemaExtension := by
  intro t hnode ht
  refine (hnode.answers ht _ (answers_directivesAnd answers_rootTypes)).bind
    fun ⟨directives, roots⟩ => ?_
  dsimp only
  split
  · trivial
  split
  · trivial
  · exact answers_noClauses t

theorem answers_typeExtension {rule : String} {clauses : Walk α} (hclauses : clauses.Answers E)
    (choose : α → Option ExtensionBody) : AnswersNodes E (typeExtension rule clauses choose) := by
  intro t hnode ht
  refine (hnode.answers ht _ (.bind .name fun _ => .bind hclauses fun _ => .pure _)).bind
    fun ⟨name, found⟩ => ?_
  dsimp only
  split
  · exact answers_noClauses t
  · exact (Answers.checkNames _).bind fun _ => .pure _

theorem answers_fieldsClauses : fieldsClauses.Answers E :=
  .bind answers_interfaces fun _ => .bind answers_directives fun _ => .bind answers_fields fun _ =>
    .pure _

theorem answers_definitionRules : ∀ r ∈ definitionRules, AnswersNodes E r.2 := by
  have htype {rule : String} {body : Walk (List Directive × TypeBody)} (hbody : body.Answers E) :
      AnswersNodes E fun t => (typeDefinition rule body t).map Definition.type :=
    .map (answers_typeDefinition hbody) _
  have hfields (rule : String) (owner : FieldOwner) :
      AnswersNodes E fun t => (fieldsExtension rule owner t).map Definition.typeExtension :=
    .map (answers_typeExtension answers_fieldsClauses _) _
  have hitems {α : Type} {items : Walk (List α)} (hitems : items.Answers E) (rule : String)
      (choose : List Directive × List α → Option ExtensionBody) :
      AnswersNodes E fun t => (typeExtension rule (directivesAnd items) choose t).map
        Definition.typeExtension :=
    .map (answers_typeExtension (answers_directivesAnd hitems) _) _
  simp only [definitionRules, List.forall_mem_cons, List.not_mem_nil, false_imp_iff, implies_true,
    and_true]
  exact ⟨.map answers_operation _, .map answers_fragment _, .map answers_schemaDefinition _,
    htype (.bind answers_directives fun _ => .pure _), htype (answers_fieldsBody _),
    htype (answers_fieldsBody _), htype (answers_directivesAnd answers_unionMembers),
    htype (answers_directivesAnd answers_enumValues),
    htype (answers_directivesAnd answers_inputFields),
    .map answers_directiveDefinition _, .map answers_schemaExtension _,
    .map (answers_typeExtension answers_directives _) _, hfields _ _, hfields _ _,
    hitems answers_unionMembers _ _, hitems answers_enumValues _ _, hitems answers_inputFields _ _⟩

omit [CoversDeclared E] in
theorem definitionTags_subset : definitionTags ⊆ ParseTree.ruleTags := by
  simp only [definitionTags, definitionRules, List.map_cons, List.map_nil]
  decide

theorem answers_definition {t : ParseTree} (h : t.IsFitIn E definitionTags) :
    Answers E (definition t) := by
  unfold definition
  cases hrule : definitionRules.lookup t.tag with
  | none => exact answers_noClauses t
  | some convert =>
    obtain ⟨front, back, hrules, -⟩ := List.lookup_eq_some_iff.mp hrule
    exact (answers_definitionRules (t.tag, convert) (by rw [hrules]; simp)).of_tag
      definitionTags_subset h

theorem answers_definitions {children : List ParseTree} (n : Nat) {c : Cursor}
    (hc : c.IsAmong E children) : Answers E (definitions n c) := by
  induction n generalizing c with
  | zero => trivial
  | succ n ih =>
    rw [definitions]
    split
    · trivial
    · exact (hc.next _).bind fun ⟨_, c⟩ ⟨⟨ht, _⟩, hc⟩ =>
        (answers_definition ht).bind fun _ => (ih hc).bind fun _ => .pure _

theorem answers_document : AnswersNodes E document
  | .token _ _ _, hnode, _ => hnode.covered
  | .rule _ _ _, _, h => (Cursor.IsAmong.enter h.inside).bind fun _ hc =>
      (answers_definitions _ hc).bind fun _ => .pure _

/-- What a regular tree is refused for: a declared error, or a nesting that is deeper than the machine
grants calls. -/
def IsAnswer (t : ParseTree) (e : ConversionError) : Prop :=
  e.isDeclared = true ∨ e = .tooDeep ∧ Machine.calls < t.calls

instance (t : ParseTree) : CoversDeclared (IsAnswer t) := ⟨fun _ => .inl⟩

omit [CoversDeclared E]

theorem isFit_of_isRegular {t : ParseTree} (h : t.IsRegular) : t.IsFit (IsAnswer t) where
  covered := h.isCovered
  shallow := (Nat.lt_or_ge Machine.calls t.calls).imp_left fun hdeep => .inr ⟨rfl, hdeep⟩

omit [Machine] in
/-- Types take no nested calls, so that any machine will do. -/
theorem answers_type_of_isRegular {t : ParseTree} (h : t.IsRegular) :
    Answers (·.isDeclared) (typeRef t) ∧
      (t.IsNode → Answers (·.isDeclared) (typeReference t)) := by
  let _ : Machine := ⟨t.calls, 0⟩
  have hfit : t.IsFit (·.isDeclared) := ⟨h.isCovered, .inr (Nat.le_refl _)⟩
  exact ⟨answers_typeRef hfit, fun hnode => answers_typeReference t (.inl hnode) hfit⟩

/-- No conversion is nested too deeply for a machine that grants the calls of its tree. -/
theorem ne_tooDeep {t : ParseTree} (h : t.calls ≤ Machine.calls) :
    value t ≠ .error .tooDeep ∧ document t ≠ .error .tooDeep ∧
      valueLiteral t ≠ .error .tooDeep := by
  have hfit : t.IsFit (· ≠ .tooDeep) := ⟨t.isCovered_ne_tooDeep, .inr h⟩
  have hnode : t.IsNodeOr (· ≠ .tooDeep) := .inr nofun
  have hne {α : Type} {r : Converted α} (hr : Answers (· ≠ .tooDeep) r) : r ≠ .error .tooDeep := by
    rintro rfl
    exact hr rfl
  exact ⟨hne (answers_value t hfit), hne (answers_document t hnode hfit),
    hne (answers_valueLiteral t hnode hfit)⟩

omit [Machine]

/-- A document with a name where a definition should be. -/
def strayName : ParseTree := .rule "document" none [.token "NAME" "stray" ⟨.start, .start⟩]

end GraphQLDoc.Conversion
