import GraphQLDoc.Artifact
import GraphQLDoc.Proofs.Ast.Writable
import GraphQLDoc.Proofs.Decoding.Definitions

/-!
An artifact holds its document. A definition is decoded by the decoder that its kind selects, and
the text of an artifact is read as the data it was written from, so a well-formed document comes
back from its artifact as it was, as long as it is not nested too deeply to have data.
-/
namespace GraphQLDoc

open Encoding (directivesField)

namespace Decoder

/-- A node is decoded by the class of its kind. -/
theorem definition_node {tag className : String} {d : Decoder Definition} {made : Definition}
    {fields : List (String × Json)} (hlookup : definitionClasses.lookup tag = some (className, d))
    (hd : d (Encoding.node tag fields) = .ok made) :
    definition (Encoding.node tag fields) = .ok made := by
  have htag : tag ∈ definitionClasses.map (·.1) := by
    obtain ⟨before, after, hclasses, -⟩ := List.lookup_eq_some_iff.mp hlookup
    rw [hclasses, List.map_append, List.map_cons]
    exact List.mem_append_right _ List.mem_cons_self
  refine variant_node htag ?_
  rw [hlookup]
  exact hd

theorem typeDefinition_toJson (t : TypeDefinition) (h : t.isValid = true) :
    definition t.toJson = .ok (.type t) := by
  obtain ⟨description, name, directives, body⟩ := t
  cases body with
  | scalar => exact definition_node rfl (congrArg (Definition.type <$> ·) (scalarType_toJson h))
  | fields owner interfaces fields =>
    cases owner with
    | object =>
      exact definition_node rfl
        (congrArg (Definition.type <$> ·) (fieldsType_toJson "ObjectTypeDefinition" h))
    | interface =>
      exact definition_node rfl
        (congrArg (Definition.type <$> ·) (fieldsType_toJson "InterfaceTypeDefinition" h))
  | union members => exact definition_node rfl (congrArg (Definition.type <$> ·) (unionType_toJson h))
  | enum values => exact definition_node rfl (congrArg (Definition.type <$> ·) (enumType_toJson h))
  | inputObject fields =>
    exact definition_node rfl (congrArg (Definition.type <$> ·) (inputObjectType_toJson h))

theorem schemaExtension_toJson (e : SchemaExtension) (h : e.isValid = true) :
    definition e.toJson = .ok (.schemaExtension e) := by
  cases e with
  | withRoots directives roots =>
    exact definition_node rfl
      (congrArg (Definition.schemaExtension <$> ·) (schemaExtensionRoots_toJson h))
  | withDirectives directives =>
    exact definition_node rfl
      (congrArg (Definition.schemaExtension <$> ·) (schemaExtensionDirectives_toJson h))

theorem typeExtension_toJson (e : TypeExtension) (h : e.isValid = true) :
    definition e.toJson = .ok (.typeExtension e) := by
  have hmap {d : Decoder TypeExtension} {v : Json} (hd : d v = .ok e) :
      Definition.typeExtension <$> d v = .ok (.typeExtension e) := by rw [hd]; rfl
  obtain ⟨name, body⟩ := e
  cases body with
  | scalar directives | unionDirectives directives | enumDirectives directives
  | inputDirectives directives =>
    rw [TypeExtension.isValid, Bool.and_eq_true] at h
    exact definition_node rfl (hmap (directivesExtension_toJson h.1 h.2))
  | fields owner interfaces directives fields =>
    cases owner <;> exact definition_node rfl (hmap (fieldsExtension_toJson h))
  | fieldsDirectives owner interfaces directives =>
    cases owner <;> exact definition_node rfl (hmap (fieldsDirectivesExtension_toJson h))
  | fieldsInterfaces owner interfaces =>
    cases owner <;> exact definition_node rfl (hmap (fieldsInterfacesExtension_toJson h))
  | unionMembers directives members =>
    exact definition_node rfl (hmap (unionMembersExtension_toJson h))
  | enumValues directives values =>
    exact definition_node rfl (hmap (enumValuesExtension_toJson h))
  | inputFields directives fields =>
    exact definition_node rfl (hmap (inputFieldsExtension_toJson h))

theorem definition_toJson (d : Definition) (h : d.isValid = true) :
    definition d.toJson = .ok d := by
  cases d with
  | operation o => exact definition_node rfl (congrArg (Definition.operation <$> ·) (operation_toJson h))
  | fragment f => exact definition_node rfl (congrArg (Definition.fragment <$> ·) (fragment_toJson h))
  | schema s => exact definition_node rfl (congrArg (Definition.schema <$> ·) (schema_toJson h))
  | type t => exact typeDefinition_toJson t h
  | directive d =>
    exact definition_node rfl (congrArg (Definition.directive <$> ·) (directiveDefinition_toJson h))
  | schemaExtension e => exact schemaExtension_toJson e h
  | typeExtension e => exact typeExtension_toJson e h

theorem document_toJson {d : Document} (h : d.isValid = true) (hn : d.nesting ≤ maxNesting) :
    document d.toJson = .ok d := by
  have hdefinitions := sequence_valid definition_toJson h
  have hdeep : deepDocument d.toJson = .ok d :=
    record_entries (by simp [withDefault, hdefinitions]) (by simp)
  rw [document, hdeep]
  exact if_pos hn

/-- No document is nested more deeply than can be written. -/
theorem nesting_of_document {v : Json} {d : Document} (h : document v = .ok d) :
    d.nesting ≤ maxNesting := by
  unfold document at h
  cases hdeep : deepDocument v with
  | wrong issues =>
    rw [hdeep] at h
    cases h
  | ok d' =>
    rw [hdeep, Checked.andThen] at h
    split at h
    · cases h
      assumption
    · cases h

end Decoder

namespace Artifact

variable {d : Document}

theorem isWritable_encode (h : d.isValid = true) (ht : AreTexts d.leaves) :
    (encode d.toJson).IsWritable := by
  simpa [encode] using d.isWritable_toJson h ht

/-- The nested calls that the data of an artifact takes at most. -/
def maxDepth : Nat := 3 * maxNesting + 12

theorem depth_encode_le (hn : d.nesting ≤ maxNesting) : (encode d.toJson).depth ≤ maxDepth := by
  have hdepth := d.depth_toJson_le
  simp only [encode, maxDepth, Json.depth_record_le, List.forall_mem_cons, Json.depth_str,
    List.not_mem_nil, false_imp_iff, implies_true, and_true]
  omega

theorem decode_encode (h : d.isValid = true) (hn : d.nesting ≤ maxNesting) :
    decode (encode d.toJson) = .ok d := by
  rw [encode, Json.record, ← Json.entries, decode]
  simp [Json.str, Decoder.document_toJson h hn]

/-- The text of the data of a document, however deep its nodes are nested. -/
def textOf (d : Document) : String := (encode d.toJson).render .compact

/-- What is written are the data, if the nodes are not nested too deeply. -/
theorem serialize_eq (hn : d.nesting ≤ maxNesting) : serialize d = .ok (textOf d) := by
  rw [serialize, Document.dump, if_pos hn]
  rfl

theorem serialize_tooDeep (hn : maxNesting < d.nesting) : serialize d = .error .tooDeep := by
  rw [serialize, Document.dump, if_neg (Nat.not_le.mpr hn)]
  rfl

theorem serialize_eq_ok_iff {text : String} :
    serialize d = .ok text ↔ d.nesting ≤ maxNesting ∧ text = textOf d := by
  constructor
  · intro h
    by_cases hn : d.nesting ≤ maxNesting
    · rw [serialize_eq hn] at h
      exact ⟨hn, (Except.ok.inj h).symm⟩
    · rw [serialize_tooDeep (Nat.not_le.mp hn)] at h
      cases h
  · rintro ⟨hn, rfl⟩
    exact serialize_eq hn

theorem nesting_of_decode {v : Json} (h : decode v = .ok d) : d.nesting ≤ maxNesting := by
  unfold decode at h
  split at h
  · dsimp only at h
    split at h
    · split at h
      · cases h
      · split at h
        · cases h
        · split at h
          · rename_i hdocument
            cases h
            exact Decoder.nesting_of_document hdocument
          · cases h
    · cases h
  · cases h

variable [Machine]

theorem deserialize_textOf (h : d.isValid = true) (ht : AreTexts d.leaves)
    (hn : d.nesting ≤ maxNesting) (hcalls : maxDepth ≤ Machine.calls) :
    deserialize (textOf d).toList = .ok d := by
  rw [deserialize, textOf, Json.read_render (isWritable_encode h ht) ((depth_encode_le hn).trans hcalls)]
  exact decode_encode h hn

/-- A document that meets the rules is read back from the text of its artifact. It has none if its
nodes are nested too deeply. -/
theorem deserialize_serialize (d : Document) (h : d.isValid = true) (ht : AreTexts d.leaves)
    (hcalls : maxDepth ≤ Machine.calls) :
    (d.nesting ≤ maxNesting →
      ∃ text, serialize d = .ok text ∧ deserialize text.toList = .ok d) ∧
    (maxNesting < d.nesting → serialize d = .error .tooDeep) :=
  ⟨fun hn => ⟨_, serialize_eq hn, deserialize_textOf h ht hn hcalls⟩, serialize_tooDeep⟩

omit [Machine] in
theorem deserialize_serialize_scalar :
    let d : Document :=
      ⟨[.type ⟨some (.text "𝄞"), "A", [⟨"d", [⟨"x", .list [.int (-1), .null]⟩]⟩], .scalar⟩]⟩
    d.isValid = true ∧ AreTexts d.leaves ∧ maxDepth ≤ Machine.usual.calls ∧ d.nesting ≤ maxNesting ∧
      ∃ text, serialize d = .ok text ∧ @deserialize .usual text.toList = .ok d :=
  ⟨by decide, by decide, by decide, by decide,
    (@deserialize_serialize .usual _ (by decide) (by decide) (by decide)).1 (by decide)⟩

end Artifact

/-! Types that are nested without end. -/

namespace TypeRef

/-- Lists of lists, over and over. -/
def listsOf : Nat → TypeRef
  | 0 => named "A"
  | n + 1 => list (listsOf n)

theorem isValid_listsOf (n : Nat) : (listsOf n).isValid = true := by
  induction n with
  | zero => decide
  | succ n ih => rwa [listsOf, isValid]

theorem nesting_listsOf (n : Nat) : (listsOf n).nesting = n + 1 := by
  induction n with
  | zero => rfl
  | succ n ih => rw [listsOf, nesting, ih]

end TypeRef

/-- A schema of one field with its type. -/
def Document.ofField (type : TypeRef) : Document :=
  ⟨[.type ⟨none, "A", [], .fields .object [] [⟨none, "f", [], type, []⟩]⟩]⟩

theorem Document.isValid_ofField {type : TypeRef} (h : type.isValid = true) :
    (ofField type).isValid = true := by
  simp [ofField, isValid, Definition.isValid, TypeDefinition.isValid, TypeBody.isValid,
    FieldDefinition.isValid, h]
  decide

theorem Document.areTexts_ofField (type : TypeRef) : AreTexts (ofField type).leaves := by
  simp [ofField, leaves, Definition.leaves, TypeDefinition.leaves, TypeBody.leaves,
    FieldDefinition.leaves, TypeRef.leaves, descriptionLeaves, directiveLeaves,
    GraphQLDoc.wordLeaves]

theorem Document.nesting_ofField (type : TypeRef) :
    (ofField type).nesting = type.nestingOfUse := by
  simp [ofField, nesting, Definition.nesting, TypeDefinition.nesting, TypeBody.nesting,
    FieldDefinition.nesting, nestingOf]

/-- Documents meet the rules however deep their nodes are nested, and then have no artifact. -/
theorem Artifact.not_serialize_listsOf :
    ¬ ∀ d : Document, d.isValid = true → AreTexts d.leaves → ∃ text, serialize d = .ok text := by
  intro h
  obtain ⟨text, htext⟩ := h (.ofField (.listsOf 400))
    (Document.isValid_ofField (TypeRef.isValid_listsOf 400)) (Document.areTexts_ofField _)
  have hnesting := (serialize_eq_ok_iff.mp htext).1
  rw [Document.nesting_ofField, TypeRef.listsOf, TypeRef.nestingOfUse, TypeRef.nesting_listsOf]
    at hnesting
  exact absurd hnesting (by decide)

end GraphQLDoc
