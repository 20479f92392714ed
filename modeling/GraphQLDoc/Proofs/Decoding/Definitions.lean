import GraphQLDoc.Decoding.Executable
import GraphQLDoc.Decoding.TypeSystem
import GraphQLDoc.Proofs.Decoding.Types

/-!
Definitions are decoded from their encodings: executable ones, and those and the extensions of the
type system, each by the decoder of its own kind.
-/
namespace GraphQLDoc.Decoder

theorem depth_lt_selectionSet {inner : List Selection} {v : Json}
    (hv : v ∈ Selection.toJsonList inner) : v.depth < (SelectionSet.toJson inner).depth :=
  Nat.lt_trans (Json.depth_lt_array hv) (Json.depth_lt_record List.mem_cons_self)

theorem selectionSetOf_items {d : Decoder Selection} {ss : List Selection}
    (h : items d 0 (Selection.toJsonList ss) = .ok ss) :
    selectionSetOf d (SelectionSet.toJson ss) = .ok ss := by
  rw [selectionSetOf, SelectionSet.toJson]
  exact record_entries (by simp [withDefault, sequence, h]) (by simp)

mutual

theorem selectionTo_toJson : (s : Selection) → s.isValid = true → ∀ n, s.toJson.depth ≤ n →
    selectionTo n s.toJson = .ok s
  | .field alternative name arguments directives none, h, n, hn => by
    obtain ⟨m, rfl, -⟩ := exists_level List.mem_cons_self hn
    simp only [Selection.isValid, Bool.and_eq_true] at h
    obtain ⟨⟨⟨⟨halias, hname⟩, harguments⟩, hdirectives⟩, -⟩ := h
    refine variant_node (by decide) (node_entries ?_ (by simp [Encoding.directivesField]))
    simp [Encoding.directivesField, optional, required, withDefault, Decoder.directives,
      optionalName_str halias, name_str hname, arguments_toJson harguments,
      directives_toJson hdirectives]
  | .field alternative name arguments directives (some inner), h, n, hn => by
    obtain ⟨m, rfl, hm⟩ :=
      @exists_level "selection_set" (SelectionSet.toJson inner) _ _ (by simp [SelectionSet.toJson]) hn
    simp only [Selection.isValid, Selection.isValidInner, Bool.and_eq_true] at h
    obtain ⟨⟨⟨⟨halias, hname⟩, harguments⟩, hdirectives⟩, hinner⟩ := h
    have hset := selectionSetOf_toJson inner hinner m hm
    refine variant_node (by decide) (node_entries ?_ (by simp [Encoding.directivesField]))
    simp [Encoding.directivesField, optional, required, withDefault, Decoder.directives,
      optionalName_str halias, name_str hname, arguments_toJson harguments,
      directives_toJson hdirectives, hset]
  | .fragmentSpread name directives, h, n, hn => by
    obtain ⟨m, rfl, -⟩ := exists_level List.mem_cons_self hn
    simp only [Selection.isValid, Bool.and_eq_true] at h
    refine variant_node (by decide) (node_entries ?_ (by simp [Encoding.directivesField]))
    simp [Encoding.directivesField, required, withDefault, Decoder.directives, name_str h.1,
      directives_toJson h.2]
  | .inlineFragment typeCondition directives inner, h, n, hn => by
    obtain ⟨m, rfl, hm⟩ :=
      @exists_level "selection_set" (SelectionSet.toJson inner) _ _ (by simp [SelectionSet.toJson]) hn
    simp only [Selection.isValid, Bool.and_eq_true] at h
    obtain ⟨⟨hcondition, hdirectives⟩, hinner⟩ := h
    have hset := selectionSetOf_toJson inner hinner m hm
    refine variant_node (by decide) (node_entries ?_ (by simp [Encoding.directivesField]))
    simp [Encoding.directivesField, optional, required, withDefault, Decoder.directives,
      optionalType_toJson hcondition, directives_toJson hdirectives, hset]

theorem selectionSetOf_toJson (inner : List Selection) (h : Selection.areValid inner = true) (n : Nat)
    (hn : (SelectionSet.toJson inner).depth ≤ n) :
    selectionSetOf (selectionTo n) (.record [("selections", .array (Selection.toJsonList inner))]) =
      .ok inner := by
  refine selectionSetOf_items (items_toJsonSelections inner h n (fun v hv => ?_) 0)
  exact Nat.le_of_lt (Nat.lt_of_lt_of_le (depth_lt_selectionSet hv) hn)

theorem items_toJsonSelections : (ss : List Selection) → Selection.areValid ss = true → ∀ n,
    (∀ v ∈ Selection.toJsonList ss, v.depth ≤ n) → ∀ k,
    items (selectionTo n) k (Selection.toJsonList ss) = .ok ss
  | [], _, _, _, _ => rfl
  | s :: ss, h, n, hn, k => by
    rw [Selection.areValid, Bool.and_eq_true] at h
    rw [Selection.toJsonList, List.forall_mem_cons] at hn
    have hs := selectionTo_toJson s h.1 n hn.1
    have hss := items_toJsonSelections ss h.2 n hn.2 (k + 1)
    simp [Selection.toJsonList, items, hs, hss]

end

theorem selectionSet_toJson {ss : SelectionSet} (h : Selection.areValid ss = true) :
    selectionSet (SelectionSet.toJson ss) = .ok ss := by
  have hselections : ∀ k, items selection k (Selection.toJsonList ss) = .ok ss := by
    induction ss with
    | nil => exact fun _ => rfl
    | cons s ss ih =>
      rw [Selection.areValid, Bool.and_eq_true] at h
      have hs : selection s.toJson = .ok s := selectionTo_toJson s h.1 _ (Nat.le_refl _)
      intro k
      simp [Selection.toJsonList, items, hs, ih h.2]
  exact selectionSetOf_items (hselections 0)

theorem variableDefinition_toJson {v : VariableDefinition} (h : v.isValid = true) :
    variableDefinition v.toJson = .ok v := by
  simp only [VariableDefinition.isValid, Bool.and_eq_true] at h
  obtain ⟨⟨⟨hname, htype⟩, hdefault⟩, hdirectives⟩ := h
  refine record_entries ?_ (by simp [Encoding.directivesField])
  simp [Encoding.directivesField, required, optional, withDefault, directives, name_str hname,
    typeRef_toJson htype, defaultValue_toJson hdefault, directives_toJson hdirectives]

theorem operationType_word (o : OperationType) : operationType (.str o.word) = .ok o := by
  cases o <;> rfl

theorem operation_toJson {o : Operation} (h : o.isValid = true) : operation o.toJson = .ok o := by
  simp only [Operation.isValid, Bool.and_eq_true] at h
  obtain ⟨⟨⟨hname, hvariables⟩, hdirectives⟩, hselections⟩ := h
  have hvariables := sequence_valid (fun _ => variableDefinition_toJson) hvariables
  refine node_entries ?_ (by simp [Encoding.directivesField])
  simp [Encoding.directivesField, required, optional, withDefault, directives,
    operationType_word, optionalName_str hname, hvariables, directives_toJson hdirectives,
    selectionSet_toJson hselections]

theorem fragment_toJson {f : Fragment} (h : f.isValid = true) : fragment f.toJson = .ok f := by
  simp only [Fragment.isValid, Bool.and_eq_true] at h
  obtain ⟨⟨⟨hname, hcondition⟩, hdirectives⟩, hselections⟩ := h
  refine node_entries ?_ (by simp [Encoding.directivesField])
  simp [Encoding.directivesField, required, withDefault, directives, name_str hname,
    namedType_toJson hcondition, directives_toJson hdirectives, selectionSet_toJson hselections]

/-! The type system. -/

open Encoding (descriptionField directivesField interfacesField rootFields)

theorem description_string (o : Option JsonString) :
    nullable string (Encoding.optional .string o) = .ok o :=
  nullable_optional (fun _ h => by cases h) fun s _ => string_string s

theorem inputValueDefinition_toJson {v : InputValueDefinition} (h : v.isValid = true) :
    inputValueDefinition v.toJson = .ok v := by
  simp only [InputValueDefinition.isValid, Bool.and_eq_true] at h
  obtain ⟨⟨⟨hname, htype⟩, hdefault⟩, hdirectives⟩ := h
  refine record_entries ?_ (by simp [descriptionField, directivesField])
  simp [descriptionField, directivesField, description, required, optional, withDefault, directives,
    description_string, name_str hname, typeRef_toJson htype, defaultValue_toJson hdefault,
    directives_toJson hdirectives]

theorem inputValues_toJson {vs : List InputValueDefinition} (h : vs.all (·.isValid) = true) :
    sequence inputValueDefinition (Encoding.sequence InputValueDefinition.toJson vs) = .ok vs :=
  sequence_valid (fun _ => inputValueDefinition_toJson) h

theorem fieldDefinition_toJson {f : FieldDefinition} (h : f.isValid = true) :
    fieldDefinition f.toJson = .ok f := by
  simp only [FieldDefinition.isValid, Bool.and_eq_true] at h
  obtain ⟨⟨⟨hname, harguments⟩, htype⟩, hdirectives⟩ := h
  refine record_entries ?_ (by simp [descriptionField, directivesField])
  simp [descriptionField, directivesField, description, required, optional, withDefault, directives,
    inputValues, description_string, name_str hname, inputValues_toJson harguments,
    typeRef_toJson htype, directives_toJson hdirectives]

theorem enumValueDefinition_toJson {v : EnumValueDefinition} (h : v.isValid = true) :
    enumValueDefinition v.toJson = .ok v := by
  simp only [EnumValueDefinition.isValid, Bool.and_eq_true] at h
  refine record_entries ?_ (by simp [descriptionField, directivesField])
  simp [descriptionField, directivesField, description, required, optional, withDefault, directives,
    description_string, name_str h.1, directives_toJson h.2]

/-- The three fields for root types, wherever they stand. -/
theorem rootTypes_entries {es : Entries} {r : RootTypes} (h : r.isValid = true)
    (hget : ∀ o, Json.get? o.word es = some (Encoding.optional namedTypeJson (r.get o))) :
    rootTypes es = .ok r := by
  simp only [RootTypes.isValid, Bool.and_eq_true] at h
  have hquery := hget .query
  have hmutation := hget .mutation
  have hsubscription := hget .subscription
  simp only [OperationType.word, RootTypes.get] at hquery hmutation hsubscription
  simp [rootTypes, optional, withDefault, hquery, hmutation, hsubscription,
    optionalType_toJson h.1.1, optionalType_toJson h.1.2, optionalType_toJson h.2]

theorem schema_toJson {s : SchemaDefinition} (h : s.isValid = true) : schema s.toJson = .ok s := by
  simp only [SchemaDefinition.isValid, Bool.and_eq_true] at h
  refine node_entries ?_ ?_
  · rw [rootTypes_entries h.2]
    · simp [descriptionField, directivesField, description, optional, withDefault, directives,
        description_string, directives_toJson h.1]
    · intro o
      cases o <;> simp [descriptionField, directivesField, rootFields, OperationType.all,
        OperationType.word]
  · simp [descriptionField, directivesField, rootFields, OperationType.all, OperationType.word,
      rootKeys]

section

variable {description : Option JsonString} {name : String} {ds : List Directive}

theorem scalarType_toJson (h : (TypeDefinition.mk description name ds .scalar).isValid = true) :
    scalarType (TypeDefinition.toJson ⟨description, name, ds, .scalar⟩) =
      .ok ⟨description, name, ds, .scalar⟩ := by
  simp only [TypeDefinition.isValid, Bool.and_eq_true] at h
  obtain ⟨⟨hname, hdirectives⟩, -⟩ := h
  refine node_entries ?_ (by simp [descriptionField, directivesField])
  simp [descriptionField, directivesField, Decoder.description, required, optional, withDefault,
    directives, description_string, name_str hname, directives_toJson hdirectives]

theorem fieldsType_toJson {owner : FieldOwner} {interfaces : List String}
    {fields : List FieldDefinition} (className : String)
    (h : (TypeDefinition.mk description name ds (.fields owner interfaces fields)).isValid = true) :
    fieldsType owner className (TypeBody.kind (.fields owner interfaces fields))
        (TypeDefinition.toJson ⟨description, name, ds, .fields owner interfaces fields⟩) =
      .ok ⟨description, name, ds, .fields owner interfaces fields⟩ := by
  simp only [TypeDefinition.isValid, TypeBody.isValid, Bool.and_eq_true] at h
  obtain ⟨⟨hname, hdirectives⟩, hinterfaces, hfields⟩ := h
  have hfields := sequence_valid (fun _ => fieldDefinition_toJson) hfields
  refine node_entries ?_ (by simp [descriptionField, directivesField, interfacesField])
  simp [descriptionField, directivesField, interfacesField, Decoder.description, required, optional,
    withDefault, directives, namedTypes, description_string, name_str hname,
    namedTypes_toJson hinterfaces, directives_toJson hdirectives, hfields]

theorem unionType_toJson {members : List String}
    (h : (TypeDefinition.mk description name ds (.union members)).isValid = true) :
    unionType (TypeDefinition.toJson ⟨description, name, ds, .union members⟩) =
      .ok ⟨description, name, ds, .union members⟩ := by
  simp only [TypeDefinition.isValid, TypeBody.isValid, Bool.and_eq_true] at h
  obtain ⟨⟨hname, hdirectives⟩, hmembers⟩ := h
  refine node_entries ?_ (by simp [descriptionField, directivesField])
  simp [descriptionField, directivesField, Decoder.description, required, optional, withDefault,
    directives, namedTypes, description_string, name_str hname, directives_toJson hdirectives,
    namedTypes_toJson hmembers]

theorem enumType_toJson {values : List EnumValueDefinition}
    (h : (TypeDefinition.mk description name ds (.enum values)).isValid = true) :
    enumType (TypeDefinition.toJson ⟨description, name, ds, .enum values⟩) =
      .ok ⟨description, name, ds, .enum values⟩ := by
  simp only [TypeDefinition.isValid, TypeBody.isValid, Bool.and_eq_true] at h
  obtain ⟨⟨hname, hdirectives⟩, hvalues⟩ := h
  have hvalues := sequence_valid (fun _ => enumValueDefinition_toJson) hvalues
  refine node_entries ?_ (by simp [descriptionField, directivesField])
  simp [descriptionField, directivesField, Decoder.description, required, optional, withDefault,
    directives, description_string, name_str hname, directives_toJson hdirectives, hvalues]

theorem inputObjectType_toJson {fields : List InputValueDefinition}
    (h : (TypeDefinition.mk description name ds (.inputObject fields)).isValid = true) :
    inputObjectType (TypeDefinition.toJson ⟨description, name, ds, .inputObject fields⟩) =
      .ok ⟨description, name, ds, .inputObject fields⟩ := by
  simp only [TypeDefinition.isValid, TypeBody.isValid, Bool.and_eq_true] at h
  obtain ⟨⟨hname, hdirectives⟩, hfields⟩ := h
  refine node_entries ?_ (by simp [descriptionField, directivesField])
  simp [descriptionField, directivesField, Decoder.description, required, optional, withDefault,
    directives, inputValues, description_string, name_str hname, directives_toJson hdirectives,
    inputValues_toJson hfields]

end

theorem directiveLocation_word (l : DirectiveLocation) :
    directiveLocation (.str l.word) = .ok l := by
  cases l <;> rfl

theorem directiveDefinition_toJson {d : DirectiveDefinition} (h : d.isValid = true) :
    directiveDefinition d.toJson = .ok d := by
  simp only [DirectiveDefinition.isValid, Bool.and_eq_true, Bool.not_eq_true',
    List.isEmpty_eq_false_iff] at h
  obtain ⟨⟨hname, harguments⟩, hlocations⟩ := h
  have hlocations := nonempty_sequence hlocations fun l _ => directiveLocation_word l
  refine node_entries ?_ (by simp [descriptionField])
  simp [descriptionField, description, required, optional, withDefault, inputValues, boolean,
    description_string, name_str hname, inputValues_toJson harguments, hlocations]

theorem schemaExtensionRoots_toJson {ds : List Directive} {r : RootTypes}
    (h : (SchemaExtension.withRoots ds r).isValid = true) :
    schemaExtensionRoots (SchemaExtension.withRoots ds r).toJson = .ok (.withRoots ds r) := by
  simp only [SchemaExtension.isValid, Bool.and_eq_true] at h
  obtain ⟨⟨hdirectives, hsome⟩, hroots⟩ := h
  refine refine_ok (node_entries ?_ ?_) hsome
  · rw [rootTypes_entries hroots]
    · simp [directivesField, withDefault, directives, directives_toJson hdirectives]
    · intro o
      cases o <;> simp [directivesField, rootFields, OperationType.all, OperationType.word]
  · simp [directivesField, rootFields, OperationType.all, OperationType.word, rootKeys]

theorem schemaExtensionDirectives_toJson {ds : List Directive}
    (h : (SchemaExtension.withDirectives ds).isValid = true) :
    schemaExtensionDirectives (SchemaExtension.withDirectives ds).toJson =
      .ok (.withDirectives ds) := by
  have hdirectives := someDirectives_toJson h
  refine node_entries ?_ (by simp [directivesField])
  simp [directivesField, required, someDirectives, hdirectives]

/-! Extensions of types. The class of an extension matters to what is reported only. -/

section

variable {className tag name : String} {owner : FieldOwner} {interfaces : List String}
  {ds : List Directive}

theorem directivesExtension_toJson {body : List Directive → ExtensionBody}
    (hname : isValidName name = true) (h : (!ds.isEmpty && ds.all (·.isValid)) = true) :
    directivesExtension className tag body
        (Encoding.node tag [("name", .str name), directivesField ds]) = .ok ⟨name, body ds⟩ := by
  refine node_entries ?_ (by simp [directivesField])
  simp [directivesField, required, someDirectives, name_str hname, someDirectives_toJson h]

theorem fieldsExtension_toJson {fields : List FieldDefinition}
    (h : (TypeExtension.mk name (.fields owner interfaces ds fields)).isValid = true) :
    fieldsExtension owner className (ExtensionBody.kind (.fields owner interfaces ds fields))
        (TypeExtension.toJson ⟨name, .fields owner interfaces ds fields⟩) =
      .ok ⟨name, .fields owner interfaces ds fields⟩ := by
  rw [TypeExtension.isValid, ExtensionBody.isValid, Bool.and_eq_true, Bool.and_eq_true,
    Bool.and_eq_true] at h
  obtain ⟨hname, ⟨hinterfaces, hdirectives⟩, hfields⟩ := h
  have hfields := nonempty_valid (fun _ => fieldDefinition_toJson) hfields
  refine node_entries ?_ (by simp [directivesField, interfacesField])
  simp [directivesField, interfacesField, required, withDefault, directives, namedTypes,
    name_str hname, namedTypes_toJson hinterfaces, directives_toJson hdirectives, hfields]

theorem fieldsDirectivesExtension_toJson
    (h : (TypeExtension.mk name (.fieldsDirectives owner interfaces ds)).isValid = true) :
    fieldsDirectivesExtension owner className
        (ExtensionBody.kind (.fieldsDirectives owner interfaces ds))
        (TypeExtension.toJson ⟨name, .fieldsDirectives owner interfaces ds⟩) =
      .ok ⟨name, .fieldsDirectives owner interfaces ds⟩ := by
  rw [TypeExtension.isValid, ExtensionBody.isValid, Bool.and_eq_true, Bool.and_eq_true] at h
  obtain ⟨hname, hinterfaces, hdirectives⟩ := h
  refine node_entries ?_ (by simp [directivesField, interfacesField])
  simp [directivesField, interfacesField, required, withDefault, someDirectives, namedTypes,
    name_str hname, namedTypes_toJson hinterfaces, someDirectives_toJson hdirectives]

theorem fieldsInterfacesExtension_toJson
    (h : (TypeExtension.mk name (.fieldsInterfaces owner interfaces)).isValid = true) :
    fieldsInterfacesExtension owner className
        (ExtensionBody.kind (.fieldsInterfaces owner interfaces))
        (TypeExtension.toJson ⟨name, .fieldsInterfaces owner interfaces⟩) =
      .ok ⟨name, .fieldsInterfaces owner interfaces⟩ := by
  rw [TypeExtension.isValid, ExtensionBody.isValid, Bool.and_eq_true] at h
  have hinterfaces := nonempty_valid (fun _ => namedType_toJson) h.2
  refine node_entries ?_ (by simp [interfacesField])
  simp [interfacesField, required, name_str h.1, hinterfaces]

theorem unionMembersExtension_toJson {members : List String}
    (h : (TypeExtension.mk name (.unionMembers ds members)).isValid = true) :
    unionMembersExtension (TypeExtension.toJson ⟨name, .unionMembers ds members⟩) =
      .ok ⟨name, .unionMembers ds members⟩ := by
  rw [TypeExtension.isValid, ExtensionBody.isValid, Bool.and_eq_true, Bool.and_eq_true] at h
  obtain ⟨hname, hdirectives, hmembers⟩ := h
  have hmembers := nonempty_valid (fun _ => namedType_toJson) hmembers
  refine node_entries ?_ (by simp [directivesField])
  simp [directivesField, required, withDefault, directives, name_str hname,
    directives_toJson hdirectives, hmembers]

theorem enumValuesExtension_toJson {values : List EnumValueDefinition}
    (h : (TypeExtension.mk name (.enumValues ds values)).isValid = true) :
    enumValuesExtension (TypeExtension.toJson ⟨name, .enumValues ds values⟩) =
      .ok ⟨name, .enumValues ds values⟩ := by
  rw [TypeExtension.isValid, ExtensionBody.isValid, Bool.and_eq_true, Bool.and_eq_true] at h
  obtain ⟨hname, hdirectives, hvalues⟩ := h
  have hvalues := nonempty_valid (fun _ => enumValueDefinition_toJson) hvalues
  refine node_entries ?_ (by simp [directivesField])
  simp [directivesField, required, withDefault, directives, name_str hname,
    directives_toJson hdirectives, hvalues]

theorem inputFieldsExtension_toJson {fields : List InputValueDefinition}
    (h : (TypeExtension.mk name (.inputFields ds fields)).isValid = true) :
    inputFieldsExtension (TypeExtension.toJson ⟨name, .inputFields ds fields⟩) =
      .ok ⟨name, .inputFields ds fields⟩ := by
  rw [TypeExtension.isValid, ExtensionBody.isValid, Bool.and_eq_true, Bool.and_eq_true] at h
  obtain ⟨hname, hdirectives, hfields⟩ := h
  have hfields := nonempty_valid (fun _ => inputValueDefinition_toJson) hfields
  refine node_entries ?_ (by simp [directivesField])
  simp [directivesField, required, withDefault, directives, name_str hname,
    directives_toJson hdirectives, hfields]

end

end GraphQLDoc.Decoder
