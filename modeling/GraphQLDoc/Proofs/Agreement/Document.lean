import GraphQLDoc.Parse
import GraphQLDoc.Proofs.Agreement.Executable
import GraphQLDoc.Proofs.ParseTree.Alternatives

/-!
Type system definitions and extensions, and whole documents, from trees that are alike. As long as
the inputs of two texts go on giving tokens that are alike, what comes out of one text comes out of
the other.
-/
namespace GraphQLDoc.Conversion

variable [Machine] {α β : Type}

omit [Machine] in
theorem same_interfaces : interfaces.Same := .clause _ _ same_namedType

theorem same_rootEntry : SameOnAlike rootEntry :=
  fun _ _ htu => htu.wholeSame _ (.next fun _ _ hab =>
    .bind (.lift (same_operationType _ _ hab.1)) fun _ _ ho => ho ▸
    Walk.Same.next fun _ _ hab => .bind (.lift (same_namedType _ _ hab.1)) fun _ _ hname =>
      .pure (congrArg _ hname))

theorem same_rootTypes : rootTypes.Same :=
  Walk.Agrees.bind (.repeated _) fun _ _ h => .lift (.foldlM h (fun roots t u htu => by
    refine (same_rootEntry t u htu).bindEq fun ⟨o, name⟩ => ?_
    dsimp only
    split <;> rfl) _)

theorem same_schemaDefinition : SameOnAlike schemaDefinition :=
  fun _ _ htu => htu.wholeSame _ (.bind same_description fun _ => .bind same_directives fun _ =>
    .bind same_rootTypes fun _ => .pure _)

theorem same_inputValueDefinition : SameOnAlike inputValueDefinition :=
  .whole (.bind same_description fun _ => .bind .name fun _ => .bind same_type fun _ =>
    .bind same_defaultValue fun _ => .bind same_directives fun _ => .pure _)

theorem same_argumentsDefinition : argumentsDefinition.Same :=
  .clause _ _ same_inputValueDefinition

theorem same_fieldDefinition : SameOnAlike fieldDefinition :=
  .whole (.bind same_description fun _ => .bind .name fun _ =>
    .bind same_argumentsDefinition fun _ => .bind same_type fun _ => .bind same_directives fun _ =>
    .pure _)

theorem same_enumValueDefinition : SameOnAlike enumValueDefinition := by
  intro t u htu
  refine (htu.whole (R := fun x y => x.1 = y.1) _ ?walk).bind fun ⟨v, span⟩ ⟨v', span'⟩ hv => ?check
  case walk =>
    refine .bind same_description fun description _ hdescription => hdescription ▸ ?_
    refine .bind (.next _) fun _ _ hab => .bind (.lift (hab.nameToken (by decide))) ?_
    intro ⟨name, _⟩ ⟨name', _⟩ hname
    obtain rfl : name = name' := hname
    exact .bind same_directives fun _ _ hdirectives => .pure (by rw [hdirectives])
  case check =>
    obtain rfl : v = v' := hv
    dsimp only
    split
    · rfl
    · exact .refl _

theorem same_fields : fields.Same := .clause _ _ same_fieldDefinition

theorem same_inputFields : inputFields.Same := .clause _ _ same_inputValueDefinition

omit [Machine] in
theorem same_unionMembers : unionMembers.Same := .clause _ _ same_namedType

theorem same_enumValues : enumValues.Same := .clause _ _ same_enumValueDefinition

omit [Machine] in
theorem same_typeDefinition {rule : String} {body : Walk (List Directive × TypeBody)}
    (hbody : body.Same) : SameOnAlike (typeDefinition rule body) :=
  .whole (.bind same_description fun _ => .bind .name fun _ => .bind hbody fun _ => .pure _)

theorem same_fieldsBody (owner : FieldOwner) : (fieldsBody owner).Same :=
  .bind same_interfaces fun _ => .bind same_directives fun _ => .bind same_fields fun _ => .pure _

/-- Directives, and one more clause behind them. -/
theorem same_directivesAnd {items : Walk α} (hitems : items.Same) {f : List Directive → α → β} :
    (do let ds ← directives; let as ← items; return f ds as).Same :=
  .bind same_directives fun _ => .bind hitems fun _ => .pure _

omit [Machine] in
theorem same_directiveLocation : SameOnAlike directiveLocation := by
  refine fun _ _ htu => (htu.whole _ (.next _)).bind fun a b hab => ?_
  obtain ⟨hab, htag⟩ := hab
  cases hab with
  | rule => rfl
  | token tag span span' htext =>
    rcases htext with rfl | ⟨rfl, -⟩
    · dsimp only
      split <;> rfl
    · exact absurd htag (by simp [ParseTree.tag])

theorem same_directiveDefinition : SameOnAlike directiveDefinition := by
  intro t u htu
  refine (htu.wholeSame _ (.bind same_description fun _ => .bind .name fun _ =>
    .bind same_argumentsDefinition fun _ => .node? ?_ fun _ _ _ => ?_)).bindEq fun d => ?_
  · exact .bind (.clause _ _ same_directiveLocation) fun _ => .pure _
  · exact Walk.Same.bind (.clause _ _ same_directiveLocation) fun _ => .pure _
  · dsimp only
    split
    · rfl
    · exact .refl _

omit [Machine] in
theorem same_noClauses : SameOnAlike (noClauses : ParseTree → Converted α) := by
  intro t u htu
  cases htu <;> rfl

theorem same_schemaExtension : SameOnAlike schemaExtension := by
  intro t u htu
  refine (htu.wholeSame _ (same_directivesAnd same_rootTypes)).bindEq fun ⟨directives, roots⟩ => ?_
  dsimp only
  split
  · rfl
  split
  · rfl
  · exact same_noClauses t u htu

omit [Machine] in
theorem same_typeExtension {rule : String} {clauses : Walk α} (hclauses : clauses.Same)
    (choose : α → Option ExtensionBody) : SameOnAlike (typeExtension rule clauses choose) := by
  intro t u htu
  refine (htu.wholeSame _ (.bind .name fun _ => .bind hclauses fun _ => .pure _)).bindEq
    fun ⟨name, found⟩ => ?_
  dsimp only
  split
  · exact same_noClauses t u htu
  · exact .refl _

theorem same_fieldsClauses : fieldsClauses.Same :=
  .bind same_interfaces fun _ => .bind same_directives fun _ => .bind same_fields fun _ => .pure _

/-- Each rule of a definition is converted the same. -/
theorem same_definitionRules : ∀ r ∈ definitionRules, SameOnAlike r.2 := by
  have htype {rule : String} {body : Walk (List Directive × TypeBody)} (hbody : body.Same) :
      SameOnAlike fun t => (typeDefinition rule body t).map Definition.type :=
    .map (same_typeDefinition hbody) _
  have hfields (rule : String) (owner : FieldOwner) :
      SameOnAlike fun t => (fieldsExtension rule owner t).map Definition.typeExtension :=
    .map (same_typeExtension same_fieldsClauses _) _
  have hitems {α : Type} {items : Walk (List α)} (hitems : items.Same) (rule : String)
      (choose : List Directive × List α → Option ExtensionBody) :
      SameOnAlike fun t => (typeExtension rule (directivesAnd items) choose t).map
        Definition.typeExtension :=
    .map (same_typeExtension (same_directivesAnd hitems) _) _
  simp only [definitionRules, List.forall_mem_cons, List.not_mem_nil, false_imp_iff, implies_true,
    and_true]
  exact ⟨.map same_operation _, .map same_fragment _, .map same_schemaDefinition _,
    htype (.bind same_directives fun _ => .pure _), htype (same_fieldsBody _),
    htype (same_fieldsBody _), htype (same_directivesAnd same_unionMembers),
    htype (same_directivesAnd same_enumValues), htype (same_directivesAnd same_inputFields),
    .map same_directiveDefinition _, .map same_schemaExtension _,
    .map (same_typeExtension same_directives _) _, hfields _ _, hfields _ _,
    hitems same_unionMembers _ _, hitems same_enumValues _ _, hitems same_inputFields _ _⟩

theorem same_definition : SameOnAlike definition := by
  intro t u htu
  unfold definition
  rw [htu.tag_eq]
  cases hrule : definitionRules.lookup u.tag with
  | none => exact same_noClauses t u htu
  | some convert =>
    obtain ⟨front, back, hrules, -⟩ := List.lookup_eq_some_iff.mp hrule
    exact same_definitionRules (u.tag, convert) (by rw [hrules]; simp) t u htu

theorem same_definitions (n : Nat) {c d : Cursor} (h : c.Alike d) :
    Agree (· = ·) (definitions n c) (definitions n d) := by
  induction n generalizing c d with
  | zero => rfl
  | succ n ih =>
    have hempty {ts us : List ParseTree} (h : List.Forall₂ ParseTree.Alike ts us) :
        ts.isEmpty = us.isEmpty := by
      cases h <;> rfl
    rw [definitions, definitions, hempty h.rest]
    split
    · rfl
    · exact (h.next _).bind fun ⟨_, c⟩ ⟨_, d⟩ ⟨htu, hcd⟩ =>
        (same_definition _ _ htu.1).bindEq fun _ => (ih hcd).bindEq fun _ => .refl _

/-- Documents, whatever they are made of. -/
theorem same_document : SameOnAlike document := by
  intro t u htu
  refine (htu.enter "document").bind fun c d hcd => ?_
  rw [hcd.rest.length_eq]
  exact (same_definitions _ hcd).bindEq fun _ => .refl _

end GraphQLDoc.Conversion

/-! Texts. -/

namespace GraphQLDoc

variable {α : Type} {start : Start} {text text' : List Char}

/-- The same value, or an error of the same sort. -/
def SameOutcome : Except ParseError α → Except ParseError α → Prop
  | .ok a, .ok b => a = b
  | .error (.malformed _), .error (.malformed _) => True
  | .error (.conversion e), .error (.conversion f) => e.unplaced = f.unplaced
  | _, _ => False

theorem SameOutcome.eq_ok {a : α} {r : Except ParseError α} (h : SameOutcome (.ok a) r) :
    r = .ok a := by
  cases r with
  | ok b => exact congrArg Except.ok (Eq.symm h)
  | error e => exact h.elim

theorem SameOutcome.symm {r r' : Except ParseError α} (h : SameOutcome r r') : SameOutcome r' r := by
  unfold SameOutcome at h ⊢
  split at h
  · exact h.symm
  · exact h
  · exact h.symm
  · exact h.elim

theorem SameOutcome.eq_ok_iff {r r' : Except ParseError α} (h : SameOutcome r r') {a : α} :
    r = .ok a ↔ r' = .ok a :=
  ⟨fun hr => (hr ▸ h).eq_ok, fun hr => (hr ▸ h.symm).eq_ok⟩

/-- If the inputs go on giving tokens that are alike, the texts are derived alike. -/
theorem derive_follow {R : Input → Input → List Token → Prop}
    (ends : ∀ {i j}, R i j [] → i.skipIgnored.text = [] → j.skipIgnored.text = [])
    (reads : ∀ {i j rest a ts wanted}, R i j (a :: ts) →
      i.skipIgnored.token? wanted = some (a, rest) →
      ∃ b rest', j.skipIgnored.token? wanted = some (b, rest') ∧ a.Alike b ∧ R rest rest' ts)
    {d : Derivation} (h : derive start text = .ok d)
    (hR : R (.ofText text) (.ofText text') d.tokens) :
    ∃ e, derive start text' = .ok e ∧ d.Alike e := by
  have hstack : Stack.Alike ⟨start, []⟩ ⟨start, []⟩ := ⟨rfl, .nil⟩
  obtain ⟨e, us, hrun, hde⟩ := (derive_eq_ok_iff.mp h).follow ends reads hstack hR
  have htokens : e.tokens = us := hrun.tokens_eq
  exact ⟨e, derive_eq_ok_iff.mpr (htokens ▸ hrun), hde⟩

theorem parseTree_of_derive {d : Derivation} (h : derive start text = .ok d) :
    ∃ t, parseTree start text = .ok t ∧ (d.trees false).1 = [t] := by
  obtain ⟨t, ht⟩ : ∃ t, parseTree start text = .ok t := ⟨_, by rw [parseTree, h]; rfl⟩
  obtain ⟨d', hd', htrees⟩ := parseTree_eq_ok ht
  obtain rfl := Except.ok.inj (h.symm.trans hd')
  exact ⟨t, ht, htrees⟩

/-- Derivations that are alike are converted to the same. -/
theorem sameOutcome_of_alike {convert : ParseTree → Converted α} (hconvert : SameOnAlike convert)
    {d e : Derivation} (hd : derive start text = .ok d) (he : derive start text' = .ok e)
    (hde : d.Alike e) :
    SameOutcome (parseWith start convert text) (parseWith start convert text') := by
  obtain ⟨t, ht, htrees⟩ := parseTree_of_derive hd
  obtain ⟨u, hu, hutrees⟩ := parseTree_of_derive he
  have htu : t.Alike u := by
    have h := hde.trees false d (derive_sound hd).1 e
    rw [htrees, hutrees] at h
    exact (List.forall₂_cons.mp h).1
  have h := hconvert t u htu
  simp only [parseWith, ht, hu]
  cases ht : convert t <;> cases hu : convert u <;> rw [ht, hu] at h
  case ok.ok => exact h
  case error.error => exact h
  all_goals exact h.elim

end GraphQLDoc
