import GraphQLDoc.Decoding.Document
import GraphQLDoc.Proofs.Ast.Validity
import GraphQLDoc.Proofs.Decoding.Passes

/-!
Whatever is decoded meets the rules of documents. The decoders are followed field by field: a number, a
name or a wrapper that breaks a rule would have to pass the check of its own field first.
-/
namespace GraphQLDoc.Decoder

section

variable {α : Type} {isValid : α → Bool} {d : Decoder α}

/-- What the decoder reads meets a rule. -/
abbrev Validates (isValid : α → Bool) (d : Decoder α) : Prop := Ensures (isValid · = true) d

namespace Validates

theorem sequence (h : Validates isValid d) : Validates (·.all isValid) (sequence d) :=
  Ensures.mono (Ensures.sequence h) fun _ => List.all_eq_true.mpr

theorem nonempty (h : Validates isValid d) :
    Validates (fun as => !as.isEmpty && as.all isValid) (nonempty d) :=
  Ensures.mono (Ensures.nonempty h) fun as ⟨hne, hall⟩ => by
    simp [hne, List.all_eq_true.mpr hall]

variable {es : Entries} (hes : AreCanonical es) (key : String)
include hes

theorem optional (h : Validates isValid d) :
    (optional key d es).Passes fun o => o.all isValid = true :=
  (Ensures.optional h hes key).mono fun o ho => by
    cases o with
    | none => rfl
    | some a => exact ho a rfl

theorem list (h : Validates isValid d) :
    (withDefault key [] (Decoder.sequence d) es).Passes fun as => as.all isValid = true :=
  Ensures.withDefault h.sequence hes key rfl

end Validates

end

/-! Scalars. -/

theorem validates_name : Validates isValidName name := by
  intro v _
  unfold name
  split
  · split
    · assumption
    · trivial
  · trivial
  · trivial

theorem ensures_int64 : Ensures (fun n => minInt64 ≤ n ∧ n ≤ maxInt64) int64 :=
  fun v _ => .andThen (.any (anyInt v)) fun n _ => by
    split
    · trivial
    split
    · trivial
    · exact ⟨by omega, by omega⟩

theorem ensures_anyFloat : Ensures Binary64.IsCanonical anyFloat := by
  intro v hv
  cases hv with
  | float h => exact h
  | int n =>
    have hcanonical : (Binary64.ofInt n).IsCanonical := Binary64.ofRatio_isCanonical _ _ one_pos
    simp only [anyFloat]
    split
    · trivial
    · exact hcanonical
  | bool b => exact Binary64.ofRatio_isCanonical _ _ one_pos
  | string s =>
    cases s with
    | text s =>
      simp only [anyFloat]
      split
      · rename_i x hx
        exact Numeral.float?_canonical hx
      · trivial
    | unpaired => trivial
  | _ => trivial

theorem validates_finiteFloat : Validates Binary64.isValid finiteFloat :=
  (ensures_anyFloat.refine _ _).mono fun x ⟨hcanonical, hfinite⟩ => by
    simp [Binary64.isValid, hcanonical, hfinite]

/-! Types and values. -/

theorem validates_namedType : Validates isValidName namedType :=
  .node fun _ hes => validates_name.required hes _

theorem validates_typeRefTo (n : Nat) : Validates TypeRef.isValid (typeRefTo n) := by
  induction n with
  | zero => exact fun _ _ => trivial
  | succ n ih =>
    refine .variant fun tag _ => ?_
    split
    · exact .node fun _ hes => .map (ih.required hes _) fun of hof => hof
    · refine .node fun _ hes => .map ((ih.refine _ _).required hes _) fun of ⟨hof, hmark⟩ => ?_
      simp only [TypeRef.isValid, hmark, hof, Bool.and_self]
    · exact fun v hv => .map (validates_namedType v hv) fun _ h => h

theorem validates_typeRef : Validates TypeRef.isValid typeRef := .nested validates_typeRefTo

theorem areValid_iff {vs : List Value} : Value.areValid vs = vs.all (·.isValid) := by
  induction vs with
  | nil => rfl
  | cons v vs ih => rw [Value.areValid, ih, List.all_cons]

theorem areValidFields_iff {fs : List (String × Value)} :
    Value.areValidFields fs = fs.all fun f => isValidName f.1 && f.2.isValid := by
  induction fs with
  | nil => rfl
  | cons f fs ih => rw [Value.areValidFields, ih, List.all_cons]

theorem validates_objectField {inner : Decoder Value} (h : Validates Value.isValid inner) :
    Validates (fun f : String × Value => isValidName f.1 && f.2.isValid) (objectField inner) :=
  .record fun _ hes => .seq (.map (validates_name.required hes _) fun name hname v hv => by
    simp only [hname, hv, Bool.and_self]) (h.required hes _)

theorem validates_valueTo (n : Nat) : Validates Value.isValid (valueTo n) := by
  induction n with
  | zero => exact fun _ _ => trivial
  | succ n ih =>
    refine .variant fun tag _ => ?_
    split
    · exact .node fun _ hes => .map (ensures_int64.required hes _) fun n hn => by
        simpa only [Value.isValid, decide_eq_true_eq] using hn
    · exact .node fun _ hes => .map (validates_finiteFloat.required hes _) fun x hx => by
        simpa only [Value.isValid] using hx
    · exact .node fun _ _ => .seq (.map (.any _) fun _ _ _ _ => by simp only [Value.isValid]) (.any _)
    · exact .node fun _ _ => .map (.any _) fun _ _ => by simp only [Value.isValid]
    · exact .node fun _ _ => by simp only [Checked.Passes, Value.isValid]
    · exact .node fun _ hes => .map (validates_name.required hes _) fun name hname => by
        simpa only [Value.isValid] using hname
    · exact .node fun _ hes => .map (validates_name.required hes _) fun name hname => by
        simpa only [Value.isValid] using hname
    · exact .node fun _ hes => .map (Validates.list hes _ ih) fun vs hvs => by
        simpa only [Value.isValid, areValid_iff] using hvs
    · exact .node fun _ hes => .map (Validates.list hes _ (validates_objectField ih)) fun fs hfs => by
        simpa only [Value.isValid, areValidFields_iff] using hfs

theorem validates_value : Validates Value.isValid value := .nested validates_valueTo

theorem validates_argument : Validates Argument.isValid argument :=
  .record fun _ hes => .seq (.map (validates_name.required hes _) fun name hname v hv => by
    simp only [Argument.isValid, hname, hv, Bool.and_self]) (validates_value.required hes _)

theorem validates_directive : Validates Directive.isValid directive :=
  .record fun _ hes => .seq (.map (validates_name.required hes _) fun name hname as has => by
    simp only [Directive.isValid, hname, has, Bool.and_self])
    (Validates.list hes _ validates_argument)

section

variable {es : Entries} (hes : AreCanonical es)
include hes

theorem passes_directives : (directives es).Passes fun ds => ds.all (·.isValid) = true :=
  Validates.list hes _ validates_directive

theorem passes_someDirectives :
    (someDirectives es).Passes fun ds => (!ds.isEmpty && ds.all (·.isValid)) = true :=
  Ensures.required (Validates.nonempty validates_directive) hes _

end

/-! Executable definitions. -/

theorem selectionsAreValid_iff {ss : List Selection} : Selection.areValid ss = ss.all (·.isValid) := by
  induction ss with
  | nil => rfl
  | cons s ss ih => rw [Selection.areValid, ih, List.all_cons]

theorem validates_selectionSetOf {inner : Decoder Selection} (h : Validates Selection.isValid inner) :
    Validates Selection.areValid (selectionSetOf inner) :=
  .record fun _ hes => (Validates.list hes _ h).mono fun _ hss => selectionsAreValid_iff.trans hss

theorem validates_fieldSelection {inner : Decoder Selection} (h : Validates Selection.isValid inner) :
    Validates Selection.isValid (fieldSelection inner) :=
  .node fun _ hes => .seq (.seq (.seq (.seq (.map (Validates.optional hes _ validates_name)
    fun alternative halternative name hname arguments harguments directives hdirectives inner hinner => by
      have hinside : Selection.isValidInner inner = true := by
        cases inner with
        | none => simp only [Selection.isValidInner]
        | some ss => simpa only [Selection.isValidInner, Option.all_some] using hinner
      simp only [Selection.isValid, halternative, hname, harguments, hdirectives, hinside, Bool.and_self])
    (validates_name.required hes _)) (Validates.list hes _ validates_argument))
    (passes_directives hes)) (Validates.optional hes _ (validates_selectionSetOf h))

theorem validates_fragmentSpread : Validates Selection.isValid fragmentSpread :=
  .node fun _ hes => .seq (.map (validates_name.required hes _) fun name hname ds hds => by
    simp only [Selection.isValid, hname, hds, Bool.and_self]) (passes_directives hes)

theorem validates_inlineFragment {inner : Decoder Selection} (h : Validates Selection.isValid inner) :
    Validates Selection.isValid (inlineFragment inner) :=
  .node fun _ hes => .seq (.seq (.map (Validates.optional hes _ validates_namedType)
    fun condition hcondition ds hds inner hinner => by
      simp only [Selection.isValid, hcondition, hds, hinner, Bool.and_self])
    (passes_directives hes)) ((validates_selectionSetOf h).required hes _)

theorem validates_selectionTo (n : Nat) : Validates Selection.isValid (selectionTo n) := by
  induction n with
  | zero => exact fun _ _ => trivial
  | succ n ih =>
    refine .variant fun tag _ => ?_
    split
    · exact validates_fieldSelection ih
    · exact validates_fragmentSpread
    · exact validates_inlineFragment ih

theorem validates_selectionSet : Validates Selection.areValid selectionSet :=
  validates_selectionSetOf (.nested validates_selectionTo)

theorem validates_variableDefinition : Validates VariableDefinition.isValid variableDefinition :=
  .record fun _ hes => .seq (.seq (.seq (.map (validates_name.required hes _)
    fun name hname type htype default hdefault ds hds => by
      simp only [VariableDefinition.isValid, hname, htype, hdefault, hds, Bool.and_self])
    (validates_typeRef.required hes _)) (Validates.optional hes _ validates_value))
    (passes_directives hes)

theorem validates_operation : Validates Operation.isValid operation :=
  .node fun _ hes => .seq (.seq (.seq (.seq (.map (.any _)
    fun type _ name hname declared hdeclared ds hds inner hinner => by
      simp only [Operation.isValid, hname, hdeclared, hds, hinner, Bool.and_self])
    (Validates.optional hes _ validates_name))
    (Validates.list hes _ validates_variableDefinition)) (passes_directives hes))
    (validates_selectionSet.required hes _)

theorem validates_fragment : Validates Fragment.isValid fragment :=
  .node fun _ hes => .seq (.seq (.seq (.map (validates_name.required hes _)
    fun name hname condition hcondition ds hds inner hinner => by
      simp only [Fragment.isValid, hname, hcondition, hds, hinner, Bool.and_self])
    (validates_namedType.required hes _)) (passes_directives hes))
    (validates_selectionSet.required hes _)

/-! Type system definitions. -/

theorem validates_inputValueDefinition :
    Validates InputValueDefinition.isValid inputValueDefinition :=
  .record fun es hes => .seq (.seq (.seq (.seq (.map (.any (description es))
    fun text _ name hname type htype default hdefault ds hds => by
      simp only [InputValueDefinition.isValid, hname, htype, hdefault, hds, Bool.and_self])
    (validates_name.required hes _)) (validates_typeRef.required hes _))
    (Validates.optional hes _ validates_value)) (passes_directives hes)

theorem validates_fieldDefinition : Validates FieldDefinition.isValid fieldDefinition :=
  .record fun es hes => .seq (.seq (.seq (.seq (.map (.any (description es))
    fun text _ name hname arguments harguments type htype ds hds => by
      simp only [FieldDefinition.isValid, hname, harguments, htype, hds, Bool.and_self])
    (validates_name.required hes _)) (Validates.list hes _ validates_inputValueDefinition))
    (validates_typeRef.required hes _)) (passes_directives hes)

theorem validates_enumValueDefinition : Validates EnumValueDefinition.isValid enumValueDefinition :=
  .record fun es hes => .seq (.seq (.map (.any (description es)) fun text _ name hname ds hds => by
    simp only [EnumValueDefinition.isValid, hname, hds, Bool.and_self])
    (validates_name.required hes _)) (passes_directives hes)

theorem passes_rootTypes {es : Entries} (hes : AreCanonical es) :
    (rootTypes es).Passes fun roots => roots.isValid = true :=
  .seq (.seq (.map (Validates.optional hes _ validates_namedType)
    fun query hquery mutation hmutation subscription hsubscription => by
      simp only [RootTypes.isValid, hquery, hmutation, hsubscription, Bool.and_self])
    (Validates.optional hes _ validates_namedType)) (Validates.optional hes _ validates_namedType)

theorem validates_schema : Validates SchemaDefinition.isValid schema :=
  .node fun es hes => .seq (.seq (.map (.any (description es)) fun text _ ds hds roots hroots => by
    simp only [SchemaDefinition.isValid, hds, hroots, Bool.and_self])
    (passes_directives hes)) (passes_rootTypes hes)

theorem passes_namedTypes {es : Entries} (hes : AreCanonical es) (key : String) :
    (namedTypes key es).Passes fun names => names.all isValidName = true :=
  Validates.list hes _ validates_namedType

theorem validates_scalarType : Validates TypeDefinition.isValid scalarType :=
  .node fun es hes => .seq (.seq (.map (.any (description es)) fun text _ name hname ds hds => by
    simp only [TypeDefinition.isValid, TypeBody.isValid, hname, hds, Bool.and_self])
    (validates_name.required hes _)) (passes_directives hes)

theorem validates_fieldsType (owner : FieldOwner) (className tag : String) :
    Validates TypeDefinition.isValid (fieldsType owner className tag) :=
  .node fun es hes => .seq (.seq (.seq (.seq (.map (.any (description es))
    fun text _ name hname interfaces hinterfaces ds hds fields hfields => by
      simp only [TypeDefinition.isValid, TypeBody.isValid, hname, hinterfaces, hds, hfields,
        Bool.and_self])
    (validates_name.required hes _)) (passes_namedTypes hes _)) (passes_directives hes))
    (Validates.list hes _ validates_fieldDefinition)

/-- A type whose body is one list behind its directives. -/
theorem passes_typeWith {α : Type} {isValid : α → Bool} {es : Entries} (hes : AreCanonical es)
    {items : Checked (List α)} (hitems : items.Passes fun as => as.all isValid = true)
    {body : List α → TypeBody} (hbody : ∀ as, (body as).isValid = as.all isValid) :
    ((fun d n ds as => (⟨d, n, ds, body as⟩ : TypeDefinition)) <$> description es <*>
      required "name" name es <*> directives es <*> items).Passes (·.isValid = true) :=
  .seq (.seq (.seq (.map (.any (description es)) fun text _ name hname ds hds as has => by
    simp only [TypeDefinition.isValid, hname, hds, hbody, has, Bool.and_self])
    (validates_name.required hes _)) (passes_directives hes)) hitems

theorem validates_unionType : Validates TypeDefinition.isValid unionType :=
  .node fun _ hes => passes_typeWith hes (passes_namedTypes hes _) fun _ => rfl

theorem validates_enumType : Validates TypeDefinition.isValid enumType :=
  .node fun _ hes => passes_typeWith hes (Validates.list hes _ validates_enumValueDefinition) fun _ => rfl

theorem validates_inputObjectType : Validates TypeDefinition.isValid inputObjectType :=
  .node fun _ hes => passes_typeWith hes (Validates.list hes _ validates_inputValueDefinition) fun _ => rfl

theorem validates_directiveDefinition : Validates DirectiveDefinition.isValid directiveDefinition :=
  .node fun es hes => .seq (.seq (.seq (.seq (.map (.any (description es))
    fun text _ name hname arguments harguments repeatable _ locations hlocations => by
      simp only [DirectiveDefinition.isValid, hname, harguments, List.isEmpty_eq_false_iff.mpr hlocations.1,
        Bool.not_false, Bool.and_self])
    (validates_name.required hes _)) (Validates.list hes _ validates_inputValueDefinition))
    (.any _)) ((Ensures.nonempty fun v _ => .any (directiveLocation v)).required hes _)

/-! Extensions. -/

theorem validates_schemaExtensionRoots : Validates SchemaExtension.isValid schemaExtensionRoots := by
  -- the rule on the body is checked after the fields
  have hfields : Ensures (fun e => ∃ ds roots, e = SchemaExtension.withRoots ds roots ∧
        ds.all (·.isValid) = true ∧ roots.isValid = true)
      (node "SchemaExtensionWithOperationTypes" "schema_extension_with_operation_types"
        ("directives" :: rootKeys) fun es =>
          SchemaExtension.withRoots <$> directives es <*> rootTypes es) :=
    .node fun _ hes =>
      .seq (.map (passes_directives hes) fun ds hds roots hroots => ⟨ds, roots, rfl, hds, hroots⟩)
        (passes_rootTypes hes)
  refine (hfields.refine _ _).mono fun e he => ?_
  obtain ⟨⟨ds, roots, rfl, hds, hvalid⟩, hroots⟩ := he
  simp only [SchemaExtension.isValid, hds, hvalid, Bool.true_and, Bool.and_true]
  exact hroots

theorem validates_schemaExtensionDirectives :
    Validates SchemaExtension.isValid schemaExtensionDirectives :=
  .node fun _ hes => .map (passes_someDirectives hes) fun _ hds => hds

theorem validates_directivesExtension {className tag : String} {body : List Directive → ExtensionBody}
    (hbody : ∀ ds, (body ds).isValid = (!ds.isEmpty && ds.all (·.isValid))) :
    Validates TypeExtension.isValid (directivesExtension className tag body) :=
  .node fun _ hes => .seq (.map (validates_name.required hes _) fun name hname ds hds => by
    simp only [TypeExtension.isValid, hname, hbody, hds, Bool.and_self]) (passes_someDirectives hes)

theorem validates_fieldsExtension (owner : FieldOwner) (className tag : String) :
    Validates TypeExtension.isValid (fieldsExtension owner className tag) :=
  .node fun _ hes => .seq (.seq (.seq (.map (validates_name.required hes _)
    fun name hname interfaces hinterfaces ds hds fields hfields => by
      simp only [TypeExtension.isValid, ExtensionBody.isValid, hname, hinterfaces, hds, hfields,
        Bool.and_self])
    (passes_namedTypes hes _)) (passes_directives hes))
    ((Validates.nonempty validates_fieldDefinition).required hes _)

theorem validates_fieldsDirectivesExtension (owner : FieldOwner) (className tag : String) :
    Validates TypeExtension.isValid (fieldsDirectivesExtension owner className tag) :=
  .node fun _ hes => .seq (.seq (.map (validates_name.required hes _)
    fun name hname interfaces hinterfaces ds hds => by
      simp only [TypeExtension.isValid, ExtensionBody.isValid, hname, hinterfaces, hds, Bool.and_self])
    (passes_namedTypes hes _)) (passes_someDirectives hes)

theorem validates_fieldsInterfacesExtension (owner : FieldOwner) (className tag : String) :
    Validates TypeExtension.isValid (fieldsInterfacesExtension owner className tag) :=
  .node fun _ hes => .seq (.map (validates_name.required hes _) fun name hname interfaces hinterfaces => by
      simp only [TypeExtension.isValid, ExtensionBody.isValid, hname, hinterfaces, Bool.and_self])
    ((Validates.nonempty validates_namedType).required hes _)

/-- An extension by directives and one list behind them that is not empty. -/
theorem passes_extensionWith {α : Type} {isValid : α → Bool} {es : Entries} (hes : AreCanonical es)
    {items : Checked (List α)} (hitems : items.Passes fun as => (!as.isEmpty && as.all isValid) = true)
    {body : List Directive → List α → ExtensionBody} (hbody : ∀ ds as, (body ds as).isValid =
      (ds.all (·.isValid) && (!as.isEmpty && as.all isValid))) :
    ((fun n ds as => (⟨n, body ds as⟩ : TypeExtension)) <$> required "name" name es <*>
      directives es <*> items).Passes (·.isValid = true) :=
  .seq (.seq (.map (validates_name.required hes _) fun name hname ds hds as has => by
    simp only [TypeExtension.isValid, hname, hds, hbody, has, Bool.and_self])
    (passes_directives hes)) hitems

theorem validates_unionMembersExtension : Validates TypeExtension.isValid unionMembersExtension :=
  .node fun _ hes => passes_extensionWith hes
    ((Validates.nonempty validates_namedType).required hes _) fun _ _ => rfl

theorem validates_enumValuesExtension : Validates TypeExtension.isValid enumValuesExtension :=
  .node fun _ hes => passes_extensionWith hes
    ((Validates.nonempty validates_enumValueDefinition).required hes _) fun _ _ => rfl

theorem validates_inputFieldsExtension : Validates TypeExtension.isValid inputFieldsExtension :=
  .node fun _ hes => passes_extensionWith hes
    ((Validates.nonempty validates_inputValueDefinition).required hes _) fun _ _ => rfl

/-! Documents. -/

theorem Validates.fmap {α β : Type} {isValid : α → Bool} {isValid' : β → Bool} {d : Decoder α}
    (h : Validates isValid d) {f : α → β} (hf : ∀ a, isValid' (f a) = isValid a) :
    Validates isValid' fun v => f <$> d v :=
  fun v hv => .map (h v hv) fun a ha => (hf a).trans ha

theorem validates_definitionClasses : ∀ c ∈ definitionClasses, Validates Definition.isValid c.2.2 := by
  have htype {d : Decoder TypeDefinition} (h : Validates TypeDefinition.isValid d) :
      Validates Definition.isValid fun v => Definition.type <$> d v := h.fmap fun _ => rfl
  have hextension {d : Decoder TypeExtension} (h : Validates TypeExtension.isValid d) :
      Validates Definition.isValid fun v => Definition.typeExtension <$> d v := h.fmap fun _ => rfl
  simp only [definitionClasses, List.forall_mem_append, List.forall_mem_cons, List.not_mem_nil,
    false_imp_iff, implies_true, and_true]
  refine ⟨⟨⟨?basic, ?object⟩, ?interface⟩, ?others⟩
  case basic =>
    exact ⟨validates_operation.fmap fun _ => rfl, validates_fragment.fmap fun _ => rfl,
      validates_schema.fmap fun _ => rfl, htype validates_scalarType,
      htype (validates_fieldsType _ _ _), htype (validates_fieldsType _ _ _), htype validates_unionType,
      htype validates_enumType, htype validates_inputObjectType,
      validates_directiveDefinition.fmap fun _ => rfl,
      validates_schemaExtensionRoots.fmap fun _ => rfl,
      validates_schemaExtensionDirectives.fmap fun _ => rfl,
      hextension (validates_directivesExtension fun _ => rfl)⟩
  case object =>
    exact ⟨hextension (validates_fieldsExtension _ _ _),
      hextension (validates_fieldsDirectivesExtension _ _ _),
      hextension (validates_fieldsInterfacesExtension _ _ _)⟩
  case interface =>
    exact ⟨hextension (validates_fieldsExtension _ _ _),
      hextension (validates_fieldsDirectivesExtension _ _ _),
      hextension (validates_fieldsInterfacesExtension _ _ _)⟩
  case others =>
    exact ⟨hextension validates_unionMembersExtension,
      hextension (validates_directivesExtension fun _ => rfl),
      hextension validates_enumValuesExtension,
      hextension (validates_directivesExtension fun _ => rfl),
      hextension validates_inputFieldsExtension,
      hextension (validates_directivesExtension fun _ => rfl)⟩

theorem validates_definition : Validates Definition.isValid definition := by
  refine .variant fun tag _ => ?_
  cases htag : definitionClasses.lookup tag with
  | none => exact fun _ _ => trivial
  | some c =>
    obtain ⟨front, back, hclasses, -⟩ := List.lookup_eq_some_iff.mp htag
    exact validates_definitionClasses (tag, c) (by rw [hclasses]; simp)

theorem validates_deepDocument : Validates Document.isValid deepDocument :=
  .record fun _ hes => .map (Validates.list hes _ validates_definition) fun _ h => h

theorem validates_document : Validates Document.isValid document :=
  fun v hv => (validates_deepDocument v hv).andThen fun d hd => by
    split
    · exact hd
    · trivial

end GraphQLDoc.Decoder
