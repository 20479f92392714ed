import GraphQLDoc.Proofs.Faults.Executable
import GraphQLDoc.Proofs.Leaves.TypeSystem

/-!
The conversions of type system definitions and extensions find the faults of their trees, and so does
the conversion of a document.
-/
namespace GraphQLDoc.Conversion

open ParseTree (faultsIn spelledTags faultyTags repeatedRoots)

variable [Machine] {t : ParseTree} {ts us : List ParseTree}

/-! Fields, input values and enum values. -/

theorem finds_inputValueDefinition : Finds t.faults (inputValueDefinition t) := by
  refine Finds.checked (Walk.Finds.whole ?_ (by decide))
  exact finds_description.bind fun _ => finds_name.bind fun _ => finds_type.bind fun _ =>
    finds_defaultValue.bind fun _ => finds_directives.bind fun _ => .pure _

theorem finds_argumentsDefinition : argumentsDefinition.Finds [] :=
  Walk.finds_clause (by decide) fun _ _ => finds_inputValueDefinition

theorem finds_fieldDefinition : Finds t.faults (fieldDefinition t) := by
  refine Finds.checked (Walk.Finds.whole ?_ (by decide))
  exact finds_description.bind fun _ => finds_name.bind fun _ => finds_argumentsDefinition.bind
    fun _ => finds_type.bind fun _ => finds_directives.bind fun _ => .pure _

omit [Machine] in
theorem enumValueFaults_eq_nil (h : t.tag ≠ "name") : t.enumValueFaults = [] := by
  unfold ParseTree.enumValueFaults
  split
  · exact absurd rfl h
  · rfl

/-- The fault of the name of an enum value. -/
def enumNameFaults (p : EnumValueDefinition × Span) : List TreeFault :=
  if p.1.name ∈ enumValueNames then [(.enumValueName p.1.name, some p.2)] else []

theorem finds_enumValueDefinition : Finds t.faults (enumValueDefinition t) := by
  refine .after (Walk.Blames.node (P := fun ts p =>
    ts.flatMap ParseTree.enumValueFaults ++ faultsIn ts = enumNameFaults p) ?_ (by decide))
    fun p hp => ?_
  · refine Walk.Blames.bind (Walk.Blames.and finds_description tagged_description) fun ts₁ d h₁ =>
      Walk.Blames.next.bind fun ts₂ u h₂ => (blames_nameToken u "name").bind fun ts₃ p h₃ =>
      Walk.Blames.bind ((Walk.Blames.and finds_directives Walk.tagged_clause).widen fun rest => ?_)
      fun ts₄ ds h₄ => .pure ?_
    · simp only [Walk.behind, List.nil_append, ParseTree.faultsIn_append]
      grind
    · obtain ⟨rfl, htag⟩ := h₂
      obtain ⟨rfl, hp⟩ := h₃
      have htag := List.mem_singleton.mp htag
      have hword : u.faults = [] := ParseTree.faults_word (by rw [htag]; decide)
      have hnone {tag : String} (hne : tag ≠ "name") {us : List ParseTree}
          (hus : ∀ t ∈ us, t.tag = tag) : us.flatMap ParseTree.enumValueFaults = [] :=
        List.flatMap_eq_nil_iff.mpr fun t ht => enumValueFaults_eq_nil (by rw [hus t ht]; exact hne)
      have hname : u.enumValueFaults = enumNameFaults (⟨d, p.1, ds⟩, p.2) := by
        obtain ⟨span, tag, hu⟩ := eq_rule_of_nameToken hp
        rw [htag] at hu
        rw [hu]
        rfl
      have h₁' : faultsIn ts₁ = [] := h₁.1
      have h₄' : faultsIn ts₄ = [] := h₄.1
      simp [hnone (by decide) h₁.2, hnone (by decide) h₄.2, hname, hword, h₁', h₄']
  · obtain ⟨span, ts, rfl, hfaults⟩ := hp
    have hall : (ParseTree.rule "enum_value_definition" span ts).faults = enumNameFaults p := by
      rw [ParseTree.faults_rule (by decide)]
      exact hfaults
    rw [hall, enumNameFaults]
    dsimp only
    split
    · intro q s he
      cases he
      exact List.mem_singleton_self _
    · exact (Finds.checkNames _).thenNone fun _ => .pure _

theorem finds_fields : fields.Finds [] := Walk.finds_clause (by decide) fun _ _ => finds_fieldDefinition

theorem finds_inputFields : inputFields.Finds [] :=
  Walk.finds_clause (by decide) fun _ _ => finds_inputValueDefinition

theorem finds_enumValues : enumValues.Finds [] :=
  Walk.finds_clause (by decide) fun _ _ => finds_enumValueDefinition

omit [Machine] in
theorem finds_interfaces : interfaces.Finds [] :=
  Walk.finds_clause (by decide) fun _ _ => finds_namedType

omit [Machine] in
theorem finds_unionMembers : unionMembers.Finds [] :=
  Walk.finds_clause (by decide) fun _ _ => finds_namedType

/-! Type definitions and extensions. -/

omit [Machine] in
theorem finds_typeDefinition {rule : String} {body : Walk (List Directive × TypeBody)}
    (hrule : rule ∉ spelledTags ++ faultyTags) (h : body.Finds []) :
    Finds t.faults (typeDefinition rule body t) := by
  refine Finds.checked (Walk.Finds.whole ?_ hrule)
  exact finds_description.bind fun _ => finds_name.bind fun _ => h.bind fun _ => .pure _

theorem finds_scalarBody : scalarBody.Finds [] := finds_directives.bind fun _ => .pure _

theorem finds_fieldsBody (owner : FieldOwner) : (fieldsBody owner).Finds [] :=
  finds_interfaces.bind fun _ => finds_directives.bind fun _ => finds_fields.bind fun _ => .pure _

theorem finds_unionBody : unionBody.Finds [] :=
  finds_directives.bind fun _ => finds_unionMembers.bind fun _ => .pure _

theorem finds_enumBody : enumBody.Finds [] :=
  finds_directives.bind fun _ => finds_enumValues.bind fun _ => .pure _

theorem finds_inputBody : inputBody.Finds [] :=
  finds_directives.bind fun _ => finds_inputFields.bind fun _ => .pure _

omit [Machine] in
theorem finds_noClauses {α : Type} (t : ParseTree) : Finds [] (noClauses t : Converted α) :=
  ConversionError.isAmong_shape

omit [Machine] in
theorem finds_typeExtension {α : Type} {rule : String} {clauses : Walk α}
    {choose : α → Option ExtensionBody} (hrule : rule ∉ spelledTags ++ faultyTags)
    (h : clauses.Finds []) : Finds t.faults (typeExtension rule clauses choose t) := by
  refine Finds.thenNone (Walk.Finds.whole (finds_name.bind fun n => h.bind fun c => .pure _) hrule)
    fun p => ?_
  dsimp only
  split
  · exact finds_noClauses t
  · exact (Finds.checkNames _).thenNone fun _ => .pure _

theorem finds_fieldsClauses : fieldsClauses.Finds [] :=
  finds_interfaces.bind fun _ => finds_directives.bind fun _ => finds_fields.bind fun _ => .pure _

theorem finds_directivesAnd {α : Type} {items : Walk (List α)} (h : items.Finds []) :
    (directivesAnd items).Finds [] :=
  finds_directives.bind fun _ => h.bind fun _ => .pure _

/-! Schema blocks. -/

omit [Machine] in
theorem repeatedRoots_subset (seen : List OperationType) (ts us : List ParseTree) :
    repeatedRoots seen ts ⊆ repeatedRoots seen (ts ++ us) := by
  induction ts generalizing seen with
  | nil => exact List.nil_subset _
  | cons t ts ih =>
    rw [List.cons_append, repeatedRoots, repeatedRoots]
    split
    · exact ih seen
    · split
      · exact List.cons_subset_cons _ (ih seen)
      · exact ih _

omit [Machine] in
theorem repeatedRoots_append (h : ∀ t ∈ ts, t.rootOperation? = none) (us : List ParseTree)
    (seen : List OperationType) : repeatedRoots seen (ts ++ us) = repeatedRoots seen us := by
  induction ts with
  | nil => rfl
  | cons t ts ih =>
    obtain ⟨ht, hts⟩ := List.forall_mem_cons.mp h
    rw [List.cons_append, repeatedRoots, ht]
    exact ih hts

theorem finds_rootEntry : Finds t.faults (rootEntry t) :=
  Walk.Finds.whole (.next fun u _ => .lift finds_operationType fun o _ =>
    .next fun v _ => .lift finds_namedType fun n _ => .pure _) (by decide)

/-- An entry of a schema block, behind others with the operations `seen`. -/
theorem blames_addRoot {roots : RootTypes} {seen : List OperationType}
    (hseen : ∀ o, o ∈ seen ↔ (roots.get o).isSome = true) :
    Blames (repeatedRoots seen [t] ++ t.faults) (fun roots' => t.faults = [] ∧
      ∃ o, t.rootOperation? = some o ∧ o ∉ seen ∧
        ∀ p, p ∈ o :: seen ↔ (roots'.get p).isSome = true) (addRoot roots t) := by
  have hentry := Blames.and (finds_rootEntry (t := t)) gives_rootEntry_leaves
  refine Gives.bind (hentry.mono (List.subset_append_right _ _)) fun e he => ?_
  obtain ⟨o, name⟩ := e
  obtain ⟨hfaults, -, hoperation⟩ := he
  dsimp only at *
  cases hroot : roots.get o with
  | some _ =>
    have ho : o ∈ seen := (hseen o).mpr (by rw [hroot]; rfl)
    intro p span hp
    cases hp
    simp [repeatedRoots, hoperation, ho]
  | none =>
    have ho : o ∉ seen := fun ho => by
      have hsome := (hseen o).mp ho
      rw [hroot] at hsome
      cases hsome
    refine ⟨hfaults, o, hoperation, ho, fun p => ?_⟩
    by_cases hp : p = o
    · subst hp
      have hget : (roots.set name p).get p = some name := by cases p <;> rfl
      simp [hget]
    · have hget : (roots.set name o).get p = roots.get p := by
        cases o <;> cases p <;> first | rfl | exact absurd rfl hp
      simp [hget, hp, hseen p]

theorem finds_addRoots {roots : RootTypes} {seen : List OperationType}
    (hseen : ∀ o, o ∈ seen ↔ (roots.get o).isSome = true) :
    Finds (repeatedRoots seen ts ++ faultsIn ts) (ts.foldlM addRoot roots) := by
  induction ts generalizing roots seen with
  | nil => exact ParseTree.faultsIn_nil
  | cons t ts ih =>
    rw [List.foldlM_cons, ParseTree.faultsIn_cons]
    have hsub : repeatedRoots seen [t] ++ t.faults ⊆
        repeatedRoots seen (t :: ts) ++ (t.faults ++ faultsIn ts) :=
      List.append_subset.mpr
        ⟨List.subset_append_of_subset_left _ (repeatedRoots_subset seen [t] ts),
          List.subset_append_of_subset_right _ (List.subset_append_left _ _)⟩
    refine .after ((blames_addRoot hseen).mono hsub) fun roots' hroots' => ?_
    obtain ⟨hfaults, o, hoperation, ho, hseen'⟩ := hroots'
    have hrepeated : repeatedRoots seen (t :: ts) = repeatedRoots (o :: seen) ts := by
      simp only [repeatedRoots, hoperation, if_neg ho]
    rw [hfaults, List.nil_append, hrepeated]
    exact ih hseen'

/-- The faults of the children of a schema block. -/
def schemaFaults (ts : List ParseTree) : List TreeFault := repeatedRoots [] ts ++ faultsIn ts

theorem finds_rootTypes :
    rootTypes.Blames schemaFaults fun ts _ => schemaFaults ts = [] := by
  refine Walk.Blames.repeated.bind fun ts us hus => ?_
  obtain ⟨rfl, -⟩ := hus
  have hseen (o : OperationType) : o ∈ [] ↔ (RootTypes.none.get o).isSome = true := by
    cases o <;> decide
  have hroots : Finds (schemaFaults us) _ := finds_addRoots hseen
  refine .lift (?_ : Blames (schemaFaults us) _ _) fun rest => ?_
  · rw [List.append_nil]
    exact hroots
  · unfold schemaFaults
    rw [ParseTree.faultsIn_append]
    exact List.append_subset.mpr
      ⟨List.subset_append_of_subset_left _ (repeatedRoots_subset [] us rest),
        List.subset_append_of_subset_right _ (List.subset_append_left _ _)⟩

/-- A clause in front of the entries of a schema block. -/
theorem blames_beforeRoots {α β : Type} {w : Walk α} {k : α → Walk β} {tag : String}
    (h : w.Finds []) (htagged : w.Reads fun ts _ => ∀ t ∈ ts, t.tag = tag)
    (htag : tag ≠ "root_operation_type_definition")
    (hk : ∀ x, (k x).Blames schemaFaults fun ts _ => schemaFaults ts = []) :
    (w >>= k).Blames schemaFaults fun ts _ => schemaFaults ts = [] := by
  have hw := (Walk.Blames.and h htagged).widen fun ts =>
    (List.subset_append_right (repeatedRoots [] ts) (faultsIn ts))
  refine Walk.Blames.bind hw fun ts x hx => ?_
  have hfaults : faultsIn ts = [] := hx.1
  have hroots : ∀ t ∈ ts, t.rootOperation? = none := fun t ht =>
    rootOperation?_eq_none (by rw [hx.2 t ht]; exact htag)
  have hbehind (rest : List ParseTree) : schemaFaults (ts ++ rest) = schemaFaults rest := by
    rw [schemaFaults, repeatedRoots_append hroots, ParseTree.faultsIn_append, hfaults]
    rfl
  simp only [hbehind]
  exact hk x

omit [Machine] in
theorem faults_schema {tag : String} {span : Option Span} (h : tag ∈ ParseTree.schemaTags) :
    (ParseTree.rule tag span ts).faults = schemaFaults ts := by
  have hother : ∀ tag ∈ ParseTree.schemaTags, tag ∉ spelledTags := by decide
  rw [ParseTree.faults_rule (hother tag h), ParseTree.ruleFaults, if_pos h]
  rfl

omit [Machine] in
theorem finds_schemaBlock {α : Type} {rule : String} {w : Walk α}
    (hrule : rule ∈ ParseTree.schemaTags)
    (h : w.Blames schemaFaults fun ts _ => schemaFaults ts = []) :
    Finds t.faults (t.whole rule w) := by
  refine Gives.mono (h.whole fun span ts ht => ?_) ?_
  · rw [ht, faults_schema hrule]
    exact List.Subset.refl _
  · rintro x ⟨span, ts, rfl, hx⟩
    rw [faults_schema hrule]
    exact hx

theorem finds_schemaDefinition : Finds t.faults (schemaDefinition t) :=
  finds_schemaBlock (by decide) <|
    blames_beforeRoots finds_description tagged_description (by decide) fun _ =>
    blames_beforeRoots finds_directives Walk.tagged_clause (by decide) fun _ =>
    finds_rootTypes.bind fun ts _ hts => .pure (by rwa [List.append_nil])

theorem finds_schemaExtension : Finds t.faults (schemaExtension t) := by
  refine Finds.thenNone (finds_schemaBlock (by decide) <|
    blames_beforeRoots finds_directives Walk.tagged_clause (by decide) fun _ =>
    finds_rootTypes.bind fun ts _ hts => .pure (by rwa [List.append_nil])) fun p => ?_
  dsimp only
  split
  · exact .pure _
  · split
    · exact .pure _
    · exact finds_noClauses t

/-! Directive definitions. -/

omit [Machine] in
theorem finds_directiveLocation : Finds t.faults (directiveLocation t) := by
  refine .after (Walk.Blames.next.node (by decide)) fun u hu => ?_
  obtain ⟨span, _, rfl, rfl, htag⟩ := hu
  cases u with
  | rule tag span ts => exact fun p span he => nomatch he
  | token tag text tokenSpan =>
    obtain rfl := List.mem_singleton.mp htag
    have hname : (ParseTree.token "NAME" text tokenSpan).tokenFaults = [] :=
      ParseTree.tokenFaults_eq_nil (show "NAME" ∉ _ by decide)
    have hall : (ParseTree.rule "directive_location" span [.token "NAME" text tokenSpan]).faults =
        (ParseTree.token "NAME" text tokenSpan).locationFaults := by
      rw [ParseTree.faults_rule (by decide), ParseTree.faultsIn_singleton, ParseTree.faults_token rfl,
        hname, List.append_nil]
      exact List.append_nil _
    rw [hall, ParseTree.locationFaults]
    dsimp only
    cases DirectiveLocation.ofWord? text with
    | some l => exact .pure l
    | none =>
      intro p s he
      cases he
      exact List.mem_singleton_self _

theorem finds_directiveDefinition : Finds t.faults (directiveDefinition t) := by
  have hlocations (repeatable : Option ParseTree) (d : Option JsonString) (n : String)
      (vs : List InputValueDefinition) : Walk.Finds [] (do
        let locations ← Walk.clause "directive_locations" "directive_location" directiveLocation
        return DirectiveDefinition.mk d n vs repeatable.isSome locations) :=
    (Walk.finds_clause (by decide) fun _ _ => finds_directiveLocation).bind fun ls => .pure _
  refine Finds.thenNone (Walk.Finds.whole (finds_description.bind fun d => finds_name.bind fun n =>
    finds_argumentsDefinition.bind fun vs => .optional (hlocations none d n vs) fun u hu => ?_)
    (by decide)) fun d => ?_
  · rw [ParseTree.faults_word (by rw [hu]; decide)]
    exact hlocations (some u) d n vs
  · dsimp only
    split
    · exact ConversionError.isAmong_shape
    · exact (Finds.checkNames _).thenNone fun _ => .pure _

/-! Documents. -/

theorem finds_definitionRules : ∀ p ∈ definitionRules, ∀ t : ParseTree, Finds t.faults (p.2 t) := by
  simp only [definitionRules, List.forall_mem_cons, List.not_mem_nil, false_implies,
    implies_true, and_true]
  refine ⟨?_, ?_, ?_, ?_, ?_, ?_, ?_, ?_, ?_, ?_, ?_, ?_, ?_, ?_, ?_, ?_, ?_⟩ <;> intro t
  · exact finds_operation.map _
  · exact finds_fragment.map _
  · exact finds_schemaDefinition.map _
  · exact (finds_typeDefinition (by decide) finds_scalarBody).map _
  · exact (finds_typeDefinition (by decide) (finds_fieldsBody .object)).map _
  · exact (finds_typeDefinition (by decide) (finds_fieldsBody .interface)).map _
  · exact (finds_typeDefinition (by decide) finds_unionBody).map _
  · exact (finds_typeDefinition (by decide) finds_enumBody).map _
  · exact (finds_typeDefinition (by decide) finds_inputBody).map _
  · exact finds_directiveDefinition.map _
  · exact finds_schemaExtension.map _
  · exact (finds_typeExtension (by decide) finds_directives).map _
  · exact (finds_typeExtension (by decide) finds_fieldsClauses).map _
  · exact (finds_typeExtension (by decide) finds_fieldsClauses).map _
  · exact (finds_typeExtension (by decide) (finds_directivesAnd finds_unionMembers)).map _
  · exact (finds_typeExtension (by decide) (finds_directivesAnd finds_enumValues)).map _
  · exact (finds_typeExtension (by decide) (finds_directivesAnd finds_inputFields)).map _

theorem finds_definition : Finds t.faults (definition t) := by
  unfold definition
  cases hlookup : definitionRules.lookup t.tag with
  | none => exact ConversionError.isAmong_shape
  | some convert =>
    obtain ⟨front, back, hrules, -⟩ := List.lookup_eq_some_iff.mp hlookup
    refine finds_definitionRules (t.tag, convert) ?_ t
    rw [hrules]
    exact List.mem_append_right front List.mem_cons_self

theorem finds_definitions {rule : String} {span : Option Span} {n : Nat} :
    Finds (faultsIn ts) (definitions ts.length ⟨rule, span, n, ts⟩) := by
  induction ts generalizing n with
  | nil => exact ParseTree.faultsIn_nil
  | cons t ts ih =>
    rw [List.length_cons, definitions, if_neg (by simp)]
    by_cases htag : t.tag ∈ definitionTags
    · have hnext : (⟨rule, span, n, t :: ts⟩ : Cursor).next definitionTags =
          .ok (t, ⟨rule, span, n + 1, ts⟩) := if_pos htag
      rw [hnext, ParseTree.faultsIn_cons]
      exact finds_definition.bind fun d => ih.thenNone fun ds => .pure _
    · have hnext : (⟨rule, span, n, t :: ts⟩ : Cursor).next definitionTags =
          (⟨rule, span, n, t :: ts⟩ : Cursor).fail (.otherChild definitionTags rule (some t.tag)) :=
        if_neg htag
      rw [hnext]
      exact ConversionError.isAmong_shape

theorem finds_document : Finds t.faults (document t) := by
  unfold document
  cases t with
  | token tag text span =>
    intro p span he
    cases he
  | rule tag span ts =>
    by_cases htag : tag = "document"
    · subst htag
      have henter : Cursor.enter "document" (.rule "document" span ts) =
          .ok ⟨"document", span, 0, ts⟩ := by simp [Cursor.enter]
      rw [henter, ParseTree.faults_plain (by decide)]
      exact finds_definitions.thenNone fun ds => .pure _
    · have henter : Cursor.enter "document" (.rule tag span ts) =
          .error (.shape (.otherRule "document" tag) span) := if_neg htag
      rw [henter]
      exact ConversionError.isAmong_shape

end GraphQLDoc.Conversion
