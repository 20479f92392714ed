import GraphQLDoc.Ast.Encoding
import GraphQLDoc.Proofs.Validation.Verdict

/-!
Every reference is checked. The nodes of named types are found in the encoding of a definition, where
each is known by its kind wherever it stands. The main statement is that validation reports those of
them whose names are not known, definition by definition, and reports each as often as it occurs.
-/
namespace GraphQLDoc

open Encoding

namespace Json

/-- The name of a node for a named type. -/
def namedType? (entries : List (JsonString × Json)) : Option String :=
  match get? "kind" entries, get? "name" entries with
  | some (.string (.text "named")), some (.string (.text name)) => some name
  | _, _ => none

mutual

/-- The names in all nodes for named types, at any depth and in their order. -/
def namedTypes : Json → List String
  | array items => namedTypesOfItems items
  | object entries => (namedType? entries).toList ++ namedTypesOfEntries entries
  | _ => []

def namedTypesOfItems : List Json → List String
  | [] => []
  | v :: vs => v.namedTypes ++ namedTypesOfItems vs

def namedTypesOfEntries : List (JsonString × Json) → List String
  | [] => []
  | (_, v) :: es => v.namedTypes ++ namedTypesOfEntries es

end

theorem namedTypesOfItems_eq (items : List Json) :
    namedTypesOfItems items = items.flatMap namedTypes := by
  induction items with
  | nil => rfl
  | cons v vs ih => rw [namedTypesOfItems, ih, List.flatMap_cons]

@[simp] theorem namedTypes_array (items : List Json) :
    (array items).namedTypes = items.flatMap namedTypes := by
  rw [namedTypes, namedTypesOfItems_eq]

@[simp] theorem namedTypes_null : null.namedTypes = [] := by rw [namedTypes] <;> nofun

@[simp] theorem namedTypes_string (s : JsonString) : (string s).namedTypes = [] := by
  rw [namedTypes] <;> nofun

@[simp] theorem namedTypes_str (s : String) : (str s).namedTypes = [] := namedTypes_string _

@[simp] theorem namedTypes_bool (b : Bool) : (bool b).namedTypes = [] := by rw [namedTypes] <;> nofun

@[simp] theorem namedTypes_int (n : Int) : (int n).namedTypes = [] := by rw [namedTypes] <;> nofun

@[simp] theorem namedTypes_float (x : Binary64) : (float x).namedTypes = [] := by
  rw [namedTypes] <;> nofun

theorem namedTypes_object (fields : List (String × Json)) :
    (record fields).namedTypes =
      (namedType? (fields.map fun (k, v) => (.text k, v))).toList ++
        fields.flatMap (·.2.namedTypes) := by
  have hentries : namedTypesOfEntries (fields.map fun (k, v) => (.text k, v)) =
      fields.flatMap (·.2.namedTypes) := by
    induction fields with
    | nil => rfl
    | cons f fs ih => rw [List.map_cons, namedTypesOfEntries, ih, List.flatMap_cons]
  rw [record, namedTypes, hentries]

/-- A node of another kind. -/
@[simp] theorem namedTypes_node {kind : String} (h : kind ≠ "named") (fields : List (String × Json)) :
    (node kind fields).namedTypes = fields.flatMap (·.2.namedTypes) := by
  have hnone : namedType? ((("kind", str kind) :: fields).map fun (k, v) => (.text k, v)) = none := by
    simp only [namedType?, List.map_cons, get?, Entries.get?, if_true, str]
    split
    · rename_i hkind _
      cases hkind
      exact absurd rfl h
    · rfl
  rw [node, namedTypes_object, hnone]
  simp

/-- A node without a kind. -/
theorem namedTypes_record {fields : List (String × Json)} (h : ∀ f ∈ fields, f.1 ≠ "kind") :
    (record fields).namedTypes = fields.flatMap (·.2.namedTypes) := by
  have hkind : get? "kind" (fields.map fun (k, v) => (.text k, v)) = none := by
    induction fields with
    | nil => rfl
    | cons f fs ih =>
      obtain ⟨hf, hfs⟩ := List.forall_mem_cons.mp h
      have hkey : JsonString.text f.1 ≠ .text "kind" := fun hkey => hf (JsonString.text.inj hkey)
      rw [List.map_cons, get?, Entries.get?, if_neg hkey]
      exact ih hfs
  rw [namedTypes_object, namedType?, hkind]
  rfl

@[simp] theorem namedTypes_sequence {α : Type} (encode : α → Json) (as : List α) :
    (sequence encode as).namedTypes = as.flatMap fun a => (encode a).namedTypes := by
  rw [Encoding.sequence, namedTypes_array, List.flatMap_map]

@[simp] theorem namedTypes_optional {α : Type} (encode : α → Json) (o : Option α) :
    (optional encode o).namedTypes = o.toList.flatMap fun a => (encode a).namedTypes := by
  cases o with
  | none => exact namedTypes_null
  | some a => simp [Encoding.optional]

end Json

@[simp] theorem namedTypes_namedTypeJson (name : String) :
    (namedTypeJson name).namedTypes = [name] := by
  simp [namedTypeJson, node, Json.namedTypes_object, Json.namedType?, Json.get?, Entries.get?, Json.str,
    Json.namedTypes]

@[simp] theorem TypeRef.namedTypes_toJson (t : TypeRef) : t.toJson.namedTypes = [t.innermost] := by
  induction t with
  | named name => simp [toJson, innermost]
  | list of ih => simp [toJson, innermost, ih]
  | nonNull of ih => simp [toJson, innermost, ih]

/-! Values, and what holds values only, refer to no type. -/

mutual

theorem Value.namedTypes_toJson : (v : Value) → v.toJson.namedTypes = []
  | .int n => by simp [toJson]
  | .float x => by simp [toJson]
  | .string text block => by simp [toJson]
  | .boolean b => by simp [toJson]
  | .null => by simp [toJson]
  | .enum name => by simp [toJson]
  | .variableRef name => by simp [toJson]
  | .list vs => by simp [toJson, ← Json.namedTypesOfItems_eq, namedTypes_toJsonList vs]
  | .object fs => by simp [toJson, ← Json.namedTypesOfItems_eq, namedTypes_toJsonFields fs]

theorem Value.namedTypes_toJsonList :
    (vs : List Value) → Json.namedTypesOfItems (toJsonList vs) = []
  | [] => rfl
  | v :: vs => by
    rw [toJsonList, Json.namedTypesOfItems, namedTypes_toJson v, namedTypes_toJsonList vs]
    rfl

theorem Value.namedTypes_toJsonFields :
    (fs : List (String × Value)) → Json.namedTypesOfItems (toJsonFields fs) = []
  | [] => rfl
  | (name, v) :: fs => by
    rw [toJsonFields, Json.namedTypesOfItems, namedTypes_toJsonFields fs,
      Json.namedTypes_record (by simp)]
    simp [namedTypes_toJson v]

end

attribute [simp] Value.namedTypes_toJson

@[simp] theorem Argument.namedTypes_toJson (a : Argument) : a.toJson.namedTypes = [] := by
  rw [toJson, Json.namedTypes_record (by simp)]
  simp

@[simp] theorem Directive.namedTypes_toJson (d : Directive) : d.toJson.namedTypes = [] := by
  rw [toJson, Json.namedTypes_record (by simp)]
  simp

@[simp] theorem namedTypes_directivesField (ds : List Directive) :
    (directivesField ds).2.namedTypes = [] := by
  simp [directivesField]

@[simp] theorem namedTypes_descriptionField (d : Option JsonString) :
    (descriptionField d).2.namedTypes = [] := by
  simp [descriptionField]

@[simp] theorem namedTypes_interfacesField (names : List String) :
    (interfacesField names).2.namedTypes = names := by
  simp [interfacesField]

theorem namedTypes_rootFields (r : RootTypes) :
    (rootFields r).flatMap (·.2.namedTypes) = OperationType.all.filterMap r.get := by
  simp [rootFields, OperationType.all, RootTypes.get, List.filterMap_cons]
  cases r.query <;> cases r.mutation <;> cases r.subscription <;> rfl

theorem InputValueDefinition.namedTypes_toJson (v : InputValueDefinition) :
    v.toJson.namedTypes = [v.type.innermost] := by
  rw [toJson, Json.namedTypes_record (by simp [descriptionField, directivesField])]
  simp

theorem FieldDefinition.namedTypes_toJson (f : FieldDefinition) :
    f.toJson.namedTypes = f.arguments.map (·.type.innermost) ++ [f.type.innermost] := by
  rw [toJson, Json.namedTypes_record (by simp [descriptionField, directivesField])]
  simp [InputValueDefinition.namedTypes_toJson, List.map_eq_flatMap]

theorem EnumValueDefinition.namedTypes_toJson (v : EnumValueDefinition) : v.toJson.namedTypes = [] := by
  rw [toJson, Json.namedTypes_record (by simp [descriptionField, directivesField])]
  simp

def Definition.isExecutable : Definition → Bool
  | operation _ | fragment _ => true
  | _ => false

theorem ExtensionBody.kind_ne_named (body : ExtensionBody) : body.kind ≠ "named" := by
  cases body with
  | fields owner => cases owner <;> simp [kind, FieldOwner.word]
  | fieldsDirectives owner => cases owner <;> simp [kind, FieldOwner.word]
  | fieldsInterfaces owner => cases owner <;> simp [kind, FieldOwner.word]
  | _ => simp [kind]

theorem TypeBody.kind_ne_named (body : TypeBody) : body.kind ≠ "named" := by
  cases body with
  | fields owner => cases owner <;> simp [kind]
  | _ => simp [kind]

namespace Validation

/-! What the checks go through, against all nodes for named types. -/

theorem names_inputReferences (of : String → Reference) (vs : List InputValueDefinition) :
    (inputReferences of vs).map Prod.snd = vs.flatMap fun v => v.toJson.namedTypes := by
  simp [inputReferences, InputValueDefinition.namedTypes_toJson, Function.comp_def,
    ← List.map_eq_flatMap]

/-- The type of a field is gone through in front of its arguments, and written behind them. -/
theorem names_fieldReferences (owner : String) (fs : List FieldDefinition) :
    ((fieldReferences owner fs).map Prod.snd).Perm (fs.flatMap fun f => f.toJson.namedTypes) := by
  rw [fieldReferences, List.map_flatMap]
  refine .flatMap_left fs fun f _ => ?_
  rw [List.map_cons, names_inputReferences, FieldDefinition.namedTypes_toJson]
  refine .trans ?_ List.perm_append_comm
  simp [InputValueDefinition.namedTypes_toJson, List.map_eq_flatMap]

theorem names_interfaceReferences (type : String) (names : List String) :
    (interfaceReferences type names).map Prod.snd = names := by
  simp [interfaceReferences, Function.comp_def]

theorem names_rootReferences (r : RootTypes) :
    (rootReferences r).map Prod.snd = (rootFields r).flatMap (·.2.namedTypes) := by
  rw [namedTypes_rootFields]
  simp [rootReferences, List.map_filterMap, Function.comp_def]

theorem names_typeReferences (t : TypeDefinition) :
    (((typeReferences t).getD []).map Prod.snd).Perm t.toJson.namedTypes := by
  obtain ⟨description, name, directives, body⟩ := t
  have hkind := body.kind_ne_named
  cases body with
  | scalar => simp [typeReferences, TypeDefinition.toJson, hkind]
  | fields owner interfaces fields =>
    have hfields := (names_fieldReferences name fields).append_left interfaces
    simpa [typeReferences, TypeDefinition.toJson, hkind, names_interfaceReferences] using hfields
  | union members => simp [typeReferences, TypeDefinition.toJson, hkind, Function.comp_def]
  | enum values =>
    simp [typeReferences, TypeDefinition.toJson, hkind, EnumValueDefinition.namedTypes_toJson]
  | inputObject fields =>
    simp [typeReferences, TypeDefinition.toJson, hkind, names_inputReferences]

theorem names_extensionReferences (e : TypeExtension) :
    (((extensionReferences e).getD []).map Prod.snd).Perm e.toJson.namedTypes := by
  obtain ⟨name, body⟩ := e
  have hkind := body.kind_ne_named
  cases body with
  | fields owner interfaces directives fields =>
    have hfields := (names_fieldReferences name fields).append_left interfaces
    simpa [extensionReferences, TypeExtension.toJson, hkind, names_interfaceReferences] using hfields
  | inputFields directives fields =>
    simp [extensionReferences, TypeExtension.toJson, hkind, names_inputReferences]
  | enumValues directives values =>
    simp [extensionReferences, TypeExtension.toJson, hkind, EnumValueDefinition.namedTypes_toJson]
  | unionMembers directives members =>
    simp [extensionReferences, TypeExtension.toJson, hkind, Function.comp_def]
  | _ => simp [extensionReferences, TypeExtension.toJson, hkind, names_interfaceReferences]

/-- The checks go through each node for a named type once. -/
theorem names_referencesOf {d : Definition} (h : d.isExecutable = false) :
    ((referencesOf d).map Prod.snd).Perm d.toJson.namedTypes := by
  cases d with
  | operation o => cases h
  | fragment f => cases h
  | schema s => simp [referencesOf, references?, Definition.toJson, SchemaDefinition.toJson,
      names_rootReferences]
  | type t => exact names_typeReferences t
  | directive d =>
    have hnone : (d.locations.flatMap fun _ => ([] : List String)) = [] := by simp
    simp [referencesOf, references?, Definition.toJson, DirectiveDefinition.toJson,
      names_inputReferences, hnone]
  | schemaExtension e =>
    cases e with
    | withRoots directives roots =>
      simp [referencesOf, references?, Definition.toJson, SchemaExtension.toJson, SchemaExtension.kind,
        names_rootReferences]
    | withDirectives directives =>
      simp [referencesOf, references?, Definition.toJson, SchemaExtension.toJson, SchemaExtension.kind]
  | typeExtension e => exact names_extensionReferences e

/-- The named types of a definition, unless it is executable, that are neither defined nor built in
nor reserved by two underscores. -/
def missingTypes (defined : List String) (d : Definition) : List String :=
  if d.isExecutable then []
  else d.toJson.namedTypes.filter fun name =>
    name ∉ defined && name ∉ builtinScalars && !"__".toList.isPrefixOf name.toList

/-- The references of one definition to undefined types. -/
def undefinedReferences (defined : List String) (d : Definition) : List (Reference × String) :=
  (referencesOf d).filter fun r => !isKnown defined r.2

theorem names_undefinedReferences (defined : List String) (d : Definition) :
    ((undefinedReferences defined d).map Prod.snd).Perm (missingTypes defined d) := by
  have hfilter : (undefinedReferences defined d).map Prod.snd =
      ((referencesOf d).map Prod.snd).filter fun name => !isKnown defined name := by
    rw [List.filter_map]
    rfl
  rw [hfilter, missingTypes]
  split
  · rename_i hexecutable
    have hnone : referencesOf d = [] := by
      cases d with
      | operation o => rfl
      | fragment f => rfl
      | _ => cases hexecutable
    simp [hnone]
  · rename_i hsystem
    have hknown (name : String) : (!isKnown defined name) =
        (name ∉ defined && name ∉ builtinScalars && !"__".toList.isPrefixOf name.toList) := by
      simp [isKnown, Bool.not_or]
    simp only [hknown]
    exact (names_referencesOf (Bool.eq_false_iff.mpr hsystem)).filter _

theorem undefinedErrorsOf_eq (defined : List String) (d : Document) :
    undefinedErrorsOf defined d =
      (d.definitions.map (undefinedReferences defined)).flatten.map fun r => .undefinedType r.1 r.2 := by
  rw [undefinedErrorsOf, ← List.flatMap_def, List.map_flatMap, List.filterMap_flatMap]
  refine List.flatMap_congr fun definition _ => ?_
  rw [undefinedReferences, ← List.filterMap_eq_map, List.filterMap_filter]
  refine List.filterMap_congr fun r _ => ?_
  cases hr : isKnown defined r.2 <;> simp [hr]

/-- Validation comes to its end, and the errors about undefined types are, definition by definition, the
named types that are missing, each as often as it occurs. -/
theorem validate_undefined (d : Document) :
    ∃ r, validate d = .ok r ∧ ∃ groups : List (List (Reference × String)),
      r.undefined = groups.flatten.map (fun r => .undefinedType r.1 r.2) ∧
        List.Forall₂ (fun definition group =>
          (group.map Prod.snd).Perm (missingTypes (definedNames d.definitions) definition))
          d.definitions groups := by
  refine ⟨verdict d, validate_eq d,
    d.definitions.map (undefinedReferences (definedNames d.definitions)), ?_, ?_⟩
  · rw [verdict, undefined_resultOf, contextOf, undefinedErrorsOf_eq]
  · rw [List.forall₂_map_right_iff, List.forall₂_same]
    exact fun definition _ => names_undefinedReferences _ definition

end Validation

end GraphQLDoc
