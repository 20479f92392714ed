import GraphQLDoc.Proofs.Regular.Walk

/-!
Types, literals, values, arguments and directives of regular trees, and with them operations,
fragments and selections. The proofs follow the conversions clause by clause; a token is looked at
only where its tag says that it can be read.
-/
namespace GraphQLDoc.Conversion

variable {E : ConversionError → Prop} {α : Type}

section

variable [Machine] [CoversDeclared E]

theorem answers_namedType : AnswersNodes E namedType :=
  .whole .name fun _ => .bind (.checkNames _) fun _ => .pure _

theorem answers_variableName : AnswersNodes E variableName :=
  .whole .name fun _ => .bind (.checkNames _) fun _ => .pure _

theorem answers_unwrap : (t : ParseTree) → t.IsFit E → Answers E (unwrap t)
  | .token tag text span, h => by
    have htags : "named_type" ∈ ParseTree.ruleTags ∧ typeTags ⊆ ParseTree.ruleTags := by decide
    simp only [unwrap]
    split
    · rename_i htag
      have hin : (ParseTree.token tag text span).IsFitIn E ParseTree.ruleTags :=
        ⟨h, htag.elim (fun h => h ▸ htags.1) fun h => htags.2 h⟩
      exact (answers_namedType _ (hin.isNodeOr (List.Subset.refl _)) h).map _
    · exact CoversDeclared.shape
  | .rule tag span children, h => by
    simp only [unwrap]
    split
    · exact (answers_namedType _ (.inl ⟨_, _, _, rfl⟩) h).map _
    split
    · cases children with
      | nil => exact CoversDeclared.shape
      | cons inner rest =>
        dsimp only
        split
        · exact (Cursor.IsAmong.finish _).bind fun _ =>
            (answers_unwrap inner (h.inside inner List.mem_cons_self)).bind fun _ => .pure _
        · exact CoversDeclared.shape
    · exact CoversDeclared.shape

omit [Machine] in
theorem answers_wrapChecked (of : TypeRef) (w : TypeRef.Wrapper) : Answers E (wrapChecked of w) := by
  unfold wrapChecked
  split
  · exact CoversDeclared.node
  · trivial

theorem answers_typeRef {t : ParseTree} (h : t.IsFit E) : Answers E (typeRef t) := by
  refine (answers_unwrap t h).bind fun ⟨wrappers, name⟩ => ?_
  dsimp only
  generalize TypeRef.named name = of
  induction wrappers.reverse generalizing of with
  | nil => trivial
  | cons w ws ih =>
    rw [List.foldlM_cons]
    exact (answers_wrapChecked of w).bind ih

theorem answers_type : type.Answers E := .next fun _ ht => .lift (answers_typeRef ht.1)

omit [CoversDeclared E] in
theorem answers_string {t : ParseTree} (h : t.IsFitIn E stringTags) : Answers E (string t) := by
  rcases h.token_or (by decide) with ⟨tag, text, span, rfl, htag⟩ | ⟨⟨_, _, _, rfl⟩, hcovered⟩
  · by_cases hblock : tag = "BLOCK_STRING"
    · subst hblock
      trivial
    · have hstring : tag = "STRING" := by
        simpa [stringTags, hblock] using htag
      exact h.1.token.string hstring
  · exact hcovered _

theorem answers_description : description.Answers E :=
  .node? (.pure none) fun _ ht =>
    Walk.GivesAmong.bind (.lift (ht.whole (by decide) _ (.next stringTags))) fun _ htoken =>
      Walk.Answers.bind (.lift (answers_string htoken)) fun _ => .pure _

omit [CoversDeclared E] in
theorem answers_integer {t : ParseTree} (h : t.IsFitIn E ["INT"]) : Answers E (integer t) := by
  rcases h.token_or (by decide) with ⟨tag, text, span, rfl, htag⟩ | ⟨⟨_, _, _, rfl⟩, hcovered⟩
  · exact h.1.token.integer (List.mem_singleton.mp htag)
  · exact hcovered _

omit [CoversDeclared E] in
theorem answers_float {t : ParseTree} (h : t.IsFitIn E ["FLOAT"]) : Answers E (float t) := by
  rcases h.token_or (by decide) with ⟨tag, text, span, rfl, htag⟩ | ⟨⟨_, _, _, rfl⟩, hcovered⟩
  · exact h.1.token.float (List.mem_singleton.mp htag)
  · exact hcovered _

omit [CoversDeclared E] in
theorem answers_tokenText {tags : List String} (htags : tags ⊆ ParseTree.terminalTags)
    {t : ParseTree} (h : t.IsFitIn E tags) : Answers E (tokenText t) := by
  rcases h.token_or htags with ⟨tag, text, span, rfl, -⟩ | ⟨⟨_, _, _, rfl⟩, hcovered⟩
  · trivial
  · exact hcovered _

theorem answers_plainValue : AnswersNodes E plainValue := by
  intro t hnode ht
  unfold plainValue
  split
  · exact (answers_variableName t hnode ht).bind fun _ => .pure _
  · exact (hnode.whole ht _ (.next ["INT"])).bind fun _ htoken =>
      (answers_integer htoken).bind fun _ => .pure _
  · exact (hnode.whole ht _ (.next ["FLOAT"])).bind fun _ htoken =>
      (answers_float htoken).bind fun _ => .pure _
  · exact hnode.answers ht _ (.next fun _ htoken =>
      .bind (.lift (answers_string htoken)) fun _ => .pure _)
  · exact (hnode.whole ht _ (.next ["TRUE", "FALSE"])).bind fun _ htoken =>
      (answers_tokenText (by decide) htoken).bind fun _ => .pure _
  · exact hnode.answers ht _ (.pure _)
  · exact (hnode.answers ht _ (.nameOf _)).bind fun _ => (Answers.checkNames _).bind fun _ => .pure _

omit [Machine] in
theorem valueTags_subset : valueTags ⊆ ParseTree.ruleTags := by decide

end

mutual

theorem answers_value [Machine] [CoversDeclared E] : (t : ParseTree) → t.IsFit E → Answers E (value t)
  | .token tag text span, h => by
    simp only [value]
    split
    · rename_i htag
      exact h.token.noRule (valueTags_subset htag)
    · exact CoversDeclared.shape
  | .rule tag span children, h => by
    simp only [value]
    split
    · rename_i htag
      subst htag
      exact h.nestedIn rfl fun _ inside => (answers_values children inside).bind fun _ =>
        (Cursor.IsAmong.finish _).bind fun _ => .pure _
    split
    · rename_i htag
      subst htag
      exact h.nestedIn rfl fun _ inside => (answers_objectFields children inside).bind fun _ =>
        (Cursor.IsAmong.finish _).bind fun _ => .pure _
    split
    · exact answers_plainValue _ (.inl ⟨_, _, _, rfl⟩) h
    · exact CoversDeclared.shape

theorem answers_values [Machine] [CoversDeclared E] :
    (ts : List ParseTree) → (∀ t ∈ ts, t.IsFit E) → Answers E (values ts)
  | [], _ => by simp only [values]; trivial
  | t :: ts, h => by
    obtain ⟨ht, hts⟩ := List.forall_mem_cons.mp h
    simp only [values]
    split
    · exact (answers_value t ht).bind fun _ => (answers_values ts hts).bind fun _ => .pure _
    · trivial

theorem answers_objectFields [Machine] [CoversDeclared E] :
    (ts : List ParseTree) → (∀ t ∈ ts, t.IsFit E) → Answers E (objectFields ts)
  | [], _ => by simp only [objectFields]; trivial
  | t :: ts, h => by
    obtain ⟨ht, hts⟩ := List.forall_mem_cons.mp h
    simp only [objectFields]
    split
    · rename_i htag
      exact (answers_objectField t ht htag).bind fun _ =>
        (answers_objectFields ts hts).bind fun _ => .pure _
    · trivial

theorem answers_objectField [Machine] [CoversDeclared E] :
    (t : ParseTree) → t.IsFit E → t.tag = "object_field" → Answers E (objectField t)
  | .token tag _ _, h, htag => by
    simp only [objectField]
    exact h.token.noRule (by rw [show tag = "object_field" from htag]; decide)
  | .rule tag span children, h, _ => by
    have inside := h.inside
    simp only [objectField]
    refine (Walk.Answers.name children ⟨tag, span, 0, children⟩ ⟨inside, rfl⟩).bind
      fun ⟨name, c⟩ ⟨_, hc⟩ => ?_
    refine (hc.next valueTags).bind fun ⟨_, c⟩ ⟨_, hc⟩ => ?_
    exact (answers_valueAt 1 children inside).bind fun _ => (Cursor.IsAmong.finish c).bind fun _ =>
      (Answers.checkNames _).bind fun _ => .pure _

theorem answers_valueAt [Machine] [CoversDeclared E] :
    (n : Nat) → (ts : List ParseTree) → (∀ t ∈ ts, t.IsFit E) → Answers E (valueAt n ts)
  | _, [], _ => by simp only [valueAt]; trivial
  | 0, t :: _, h => by
    simp only [valueAt]
    exact answers_value t (h t List.mem_cons_self)
  | n + 1, _ :: ts, h => by
    simp only [valueAt]
    exact answers_valueAt n ts fun t ht => h t (List.mem_cons_of_mem _ ht)

end

section

variable [Machine] [CoversDeclared E]

/-- The value that comes next. -/
theorem answers_nextValue {k : Value → Walk α} (hk : ∀ v, (k v).Answers E) :
    (do let child ← Walk.next valueTags; let v ← Walk.lift (value child); k v).Answers E :=
  .next fun t ht => .bind (.lift (answers_value t ht.1)) hk

theorem answers_argument : AnswersNodes E argument :=
  .whole (.bind .name fun _ => answers_nextValue fun _ => .pure _) fun _ =>
    .bind (.checkNames _) fun _ => .pure _

theorem answers_arguments : arguments.Answers E := .clause (by decide) (by decide) answers_argument

theorem answers_directive : AnswersNodes E directive :=
  .whole (.bind .name fun _ => .bind answers_arguments fun _ => .pure _) fun _ =>
    .bind (.checkNames _) fun _ => .pure _

theorem answers_directives : directives.Answers E := .clause (by decide) (by decide) answers_directive

theorem answers_defaultValue : defaultValue.Answers E :=
  .node? (.pure none) fun _ ht => .bind (.lift (ht.answers (by decide) _
    (.next fun t ht => .lift (answers_value t ht.1)))) fun _ => .pure _

theorem answers_valueLiteral : AnswersNodes E valueLiteral :=
  fun _ hnode ht => hnode.answers ht _ (.next fun t ht => .lift (answers_value t ht.1))

theorem answers_typeReference : AnswersNodes E typeReference :=
  fun _ hnode ht => hnode.answers ht _ answers_type

/-! Operations, fragments and selections. -/

theorem answers_operationType : AnswersNodes E operationType := by
  intro t hnode ht
  refine (hnode.whole ht _ (.next ParseTree.operationTags)).bind fun _ htoken => ?_
  rcases htoken.token_or (by decide) with ⟨tag, text, span, rfl, htag⟩ | ⟨⟨_, _, _, rfl⟩, hcovered⟩
  · simp only [tokenText, bind, Except.bind]
    cases ho : OperationType.ofWord? text with
    | some o => exact Answers.pure o
    | none => exact htoken.1.token.operation htag ho
  · exact hcovered _

theorem answers_variableDefinition : AnswersNodes E variableDefinition :=
  fun _ hnode ht => hnode.answers ht _ (.next fun _ ht =>
    .bind (.lift (answers_variableName.of_tag (by decide) ht)) fun _ => .bind answers_type fun _ =>
    .bind answers_defaultValue fun _ => .bind answers_directives fun _ => .pure _)

theorem answers_typeCondition : typeCondition.Answers E :=
  .node? (.pure none) fun _ ht => .bind (.lift (ht.answers (by decide) _
    (.next fun _ ht => .lift (answers_namedType.of_tag (by decide) ht)))) fun _ => .pure _

theorem answers_fieldAlias : fieldAlias.Answers E :=
  .node? (.pure none) fun _ ht => .bind (.lift (ht.answers (by decide) _ .name)) fun _ => .pure _

/-- The selection set of a field is the last child that the header reads. -/
theorem gives_fieldHeader {children : List ParseTree} {c : Cursor} (hc : c.IsAmong E children) :
    Gives E (fun x => x.1.selects = true →
      ∃ t, children[x.2.read - 1]? = some t ∧ t.IsFitIn E ["selection_set"]) (fieldHeader c) := by
  refine (answers_fieldAlias children c hc).bind fun _ halias => ?_
  refine (Walk.Answers.name children _ halias.2).bind fun _ hname => ?_
  refine (answers_arguments children _ hname.2).bind fun _ harguments => ?_
  refine (answers_directives children _ harguments.2).bind fun _ hdirectives => ?_
  intro hselects
  obtain ⟨t, ht⟩ := Option.isSome_iff_exists.mp hselects
  obtain ⟨hregular, hchild⟩ := (hdirectives.2.optional "selection_set").1 t ht
  exact ⟨t, hchild, hregular⟩

theorem answers_fragmentSpread : AnswersNodes E fragmentSpread :=
  .whole (.bind (.nameOf _) fun _ => .bind answers_directives fun _ => .pure _) fun _ =>
    .bind (.checkNames _) fun _ => .pure _

end

mutual

theorem answers_selectionSet [Machine] [CoversDeclared E] : (t : ParseTree) → t.IsNodeOr E → t.IsFit E →
    Answers E (selectionSet t)
  | .token _ _ _, hnode, _ => by
    simp only [selectionSet]
    exact hnode.covered
  | .rule tag span children, _, h => by
    simp only [selectionSet]
    split
    · rename_i htag
      subst htag
      exact h.nestedIn rfl fun _ inside => (answers_selections children inside).bind fun _ =>
        (Cursor.IsAmong.finish _).bind fun _ => .pure _
    · exact CoversDeclared.shape

theorem answers_selections [Machine] [CoversDeclared E] : (ts : List ParseTree) → (∀ t ∈ ts, t.IsFit E) →
    Answers E (selections ts)
  | [], _ => by simp only [selections]; trivial
  | t :: ts, h => by
    obtain ⟨ht, hts⟩ := List.forall_mem_cons.mp h
    simp only [selections]
    split
    · rename_i htag
      have hnode : t.IsNodeOr E := ParseTree.IsFitIn.isNodeOr ⟨ht, htag⟩ (by decide)
      exact (answers_selection t hnode ht).bind fun _ => (answers_selections ts hts).bind fun _ =>
        .pure _
    · trivial

theorem answers_selection [Machine] [CoversDeclared E] :
    (t : ParseTree) → t.IsNodeOr E → t.IsFit E → Answers E (selection t)
  | .token _ _ _, hnode, _ => by
    simp only [selection]
    exact hnode.covered
  | .rule tag span children, hnode, h => by
    have inside := h.inside
    have hstart : Cursor.IsAmong E children ⟨tag, span, 0, children⟩ := ⟨inside, rfl⟩
    simp only [selection]
    split
    · refine (gives_fieldHeader hstart).bind fun ⟨header, c⟩ hheader => ?_
      refine (Cursor.IsAmong.finish c).bind fun _ => ?_
      dsimp only
      split
      · rename_i hselects
        obtain ⟨t, hchild, ht⟩ := hheader hselects
        exact ((answers_selectionSetAt (c.read - 1) children inside hchild ht).map some).bind
          fun _ => (Answers.checkNames _).bind fun _ => .pure _
      · exact (Answers.pure none).bind fun _ => (Answers.checkNames _).bind fun _ => .pure _
    split
    · exact answers_fragmentSpread _ hnode h
    · refine (answers_typeCondition children _ hstart).bind fun ⟨_, c⟩ ⟨_, hc⟩ => ?_
      refine (answers_directives children c hc).bind fun ⟨_, c⟩ ⟨_, hc⟩ => ?_
      refine (hc.next _).bind fun ⟨t, c⟩ ⟨⟨ht, hchild⟩, _⟩ => ?_
      exact (answers_selectionSetAt (c.read - 1) children inside hchild ht).bind fun _ =>
        (Cursor.IsAmong.finish c).bind fun _ => .pure _

theorem answers_selectionSetAt [Machine] [CoversDeclared E] :
    (n : Nat) → (ts : List ParseTree) → (∀ t ∈ ts, t.IsFit E) →
    ∀ {t : ParseTree}, ts[n]? = some t → t.IsFitIn E ["selection_set"] →
      Answers E (selectionSetAt n ts)
  | _, [], _, _, _, _ => by simp only [selectionSetAt]; trivial
  | 0, t :: _, h, _, hchild, ht => by
    obtain rfl := Option.some.inj hchild
    simp only [selectionSetAt]
    exact answers_selectionSet t (ht.isNodeOr (by decide)) ht.1
  | n + 1, _ :: ts, h, _, hchild, ht => by
    simp only [selectionSetAt]
    exact answers_selectionSetAt n ts (fun t ht => h t (List.mem_cons_of_mem _ ht)) hchild ht

end

variable [Machine] [CoversDeclared E]

theorem answers_nextSelectionSet : nextSelectionSet.Answers E :=
  .next fun t ht => .lift (answers_selectionSet t (ht.isNodeOr (by decide)) ht.1)

theorem answers_operationName : operationName.Answers E :=
  .node? (.pure none) fun t _ => .bind (.lift (Walk.Answers.nameToken t "name")) fun _ => .pure _

theorem answers_operation : AnswersNodes E operation := by
  refine .whole (.get fun c => ?_) fun _ => .bind (.checkNames _) fun _ => .pure _
  split
  · exact .bind answers_nextSelectionSet fun _ => .pure _
  · refine .next fun _ ht => ?_
    exact .bind (.lift (answers_operationType.of_tag (by decide) ht)) fun _ =>
      .bind answers_operationName fun _ =>
      .bind (.clause (by decide) (by decide) answers_variableDefinition) fun _ =>
      .bind answers_directives fun _ => .bind answers_nextSelectionSet fun _ => .pure _

theorem answers_fragment : AnswersNodes E fragment := by
  intro t hnode ht
  refine Answers.bind (hnode.answers ht _ (.next fun nameTree _ => ?_)) fun _ =>
    .bind (.checkNames _) fun _ => .pure _
  refine .bind (.lift (Walk.Answers.nameToken nameTree _)) fun ⟨name, span⟩ => ?_
  dsimp only
  split
  · exact Walk.GivesAmong.bind
      (.lift (show Gives E (fun _ => False) (.error _) from CoversDeclared.literal)) fun _ h => h.elim
  · refine .bind answers_typeCondition fun condition => ?_
    split
    · exact .lift (show Answers E (.error _) from CoversDeclared.shape)
    · exact .bind answers_directives fun _ => .bind answers_nextSelectionSet fun _ => .pure _

end GraphQLDoc.Conversion
