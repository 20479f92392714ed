import Mathlib.Data.List.Nodup
import Mathlib.Data.Nat.Digits.Defs
import GraphQLDoc.Ast.Encoding
import GraphQLDoc.Proofs.Ast.Validity
import GraphQLDoc.Proofs.Json.RoundTrip
import GraphQLDoc.Proofs.Leaves.Basic

/-!
The JSON of a well-formed document whose strings are texts can be written and read back: its numbers
are in range, and no object has a key twice. It is no deeper than the nodes of the document are nested,
three times over, so that there is a depth that no document with data goes beyond.
-/
namespace GraphQLDoc

open Encoding

namespace Json

theorem areWritable_iff (items : List Json) : AreWritable items ↔ ∀ v ∈ items, v.IsWritable := by
  induction items with
  | nil => simp [AreWritable]
  | cons v vs ih => rw [AreWritable, ih, List.forall_mem_cons]

@[simp] theorem isWritable_null : null.IsWritable := by simp [IsWritable]

@[simp] theorem isWritable_bool (b : Bool) : (bool b).IsWritable := by simp [IsWritable]

@[simp] theorem isWritable_string (s : JsonString) :
    (string s).IsWritable ↔ ∃ text, s = .text text := by rw [IsWritable]

@[simp] theorem isWritable_str (s : String) : (str s).IsWritable := by simp [str]

@[simp] theorem isWritable_array (items : List Json) :
    (array items).IsWritable ↔ ∀ v ∈ items, v.IsWritable := by
  rw [IsWritable, areWritable_iff]

theorem areWritableEntries_iff (fields : List (String × Json)) :
    AreWritableEntries (fields.map fun (k, v) => (.text k, v)) ↔ ∀ f ∈ fields, f.2.IsWritable := by
  induction fields with
  | nil => simp [AreWritableEntries]
  | cons f fs ih => simp [AreWritableEntries, ih]

@[simp] theorem isWritable_record (fields : List (String × Json)) :
    (record fields).IsWritable ↔ (fields.map (·.1)).Nodup ∧ ∀ f ∈ fields, f.2.IsWritable := by
  have hkeys : (fields.map fun (k, v) => (JsonString.text k, v)).map (·.1) =
      (fields.map (·.1)).map JsonString.text := by simp
  rw [record, IsWritable, areWritableEntries_iff, hkeys,
    List.nodup_map_iff fun _ _ => JsonString.text.inj]

@[simp] theorem isWritable_node (kind : String) (fields : List (String × Json)) :
    (node kind fields).IsWritable ↔
      "kind" ∉ fields.map (·.1) ∧ (fields.map (·.1)).Nodup ∧ ∀ f ∈ fields, f.2.IsWritable := by
  simp [node, and_assoc]

@[simp] theorem isWritable_sequence {α : Type} (encode : α → Json) (as : List α) :
    (sequence encode as).IsWritable ↔ ∀ a ∈ as, (encode a).IsWritable := by
  simp [Encoding.sequence]

@[simp] theorem isWritable_optional {α : Type} (encode : α → Json) (o : Option α) :
    (optional encode o).IsWritable ↔ ∀ a ∈ o, (encode a).IsWritable := by
  cases o <;> simp [Encoding.optional]

end Json

@[simp] theorem isWritable_namedTypeJson (name : String) : (namedTypeJson name).IsWritable := by
  simp [namedTypeJson]

@[simp] theorem TypeRef.isWritable_toJson (t : TypeRef) : t.toJson.IsWritable := by
  induction t with
  | named name => simp [toJson]
  | list of ih => simp [toJson, ih]
  | nonNull of ih => simp [toJson, ih]

/-- An integer of 64 bits has few enough digits to be read. -/
theorem Json.isWritable_int {n : Int} (h : minInt64 ≤ n ∧ n ≤ maxInt64) : (int n).IsWritable := by
  have hsize : n.natAbs < 10 ^ 19 := by
    rw [minInt64, maxInt64] at h
    omega
  rw [IsWritable]
  exact (Nat.toDigits_length 10 n.natAbs 19 (by decide) hsize).trans (by decide)

theorem Json.isWritable_float {x : Binary64} (h : x.isValid = true) : (float x).IsWritable := by
  rw [IsWritable]
  simpa [Binary64.isValid] using h

mutual

theorem Value.isWritable_toJson : (v : Value) → v.isValid = true → AreTexts v.leaves →
    v.toJson.IsWritable
  | .int n, h, _ => by simpa [toJson] using Json.isWritable_int (by simpa [isValid] using h)
  | .float x, h, _ => by simpa [toJson] using Json.isWritable_float (by simpa [isValid] using h)
  | .string text block, _, ht => by simpa [toJson, leaves] using ht
  | .boolean b, _, _ => by simp [toJson]
  | .null, _, _ => by simp [toJson]
  | .enum name, _, _ => by simp [toJson]
  | .variableRef name, _, _ => by simp [toJson]
  | .list values, h, ht => by
    simpa [toJson] using Value.isWritable_toJsonList values (by simpa [isValid] using h) ht
  | .object fields, h, ht => by
    simpa [toJson] using Value.isWritable_toJsonFields fields (by simpa [isValid] using h) ht

theorem Value.isWritable_toJsonList : (vs : List Value) → Value.areValid vs = true →
    AreTexts (Value.leavesOf vs) → ∀ v ∈ Value.toJsonList vs, v.IsWritable
  | [], _, _ => by simp [toJsonList]
  | v :: vs, h, ht => by
    rw [areValid, Bool.and_eq_true] at h
    rw [leavesOf, AreTexts.append_iff] at ht
    rw [toJsonList, List.forall_mem_cons]
    exact ⟨Value.isWritable_toJson v h.1 ht.1, Value.isWritable_toJsonList vs h.2 ht.2⟩

theorem Value.isWritable_toJsonFields : (fs : List (String × Value)) →
    Value.areValidFields fs = true → AreTexts (Value.leavesOfFields fs) →
    ∀ v ∈ Value.toJsonFields fs, v.IsWritable
  | [], _, _ => by simp [toJsonFields]
  | (name, v) :: fs, h, ht => by
    rw [areValidFields, Bool.and_eq_true, Bool.and_eq_true] at h
    rw [leavesOfFields, List.cons_append, AreTexts.word_iff, AreTexts.append_iff] at ht
    rw [toJsonFields, List.forall_mem_cons]
    exact ⟨by simpa using Value.isWritable_toJson v h.1.2 ht.1,
      Value.isWritable_toJsonFields fs h.2 ht.2⟩

end

theorem Json.isWritable_all {α : Type} {encode : α → Json} {isValid : α → Bool}
    {leaves : α → List Leaf} {as : List α}
    (hencode : ∀ a, isValid a = true → AreTexts (leaves a) → (encode a).IsWritable)
    (h : as.all isValid = true) (ht : AreTexts (as.flatMap leaves)) :
    ∀ a ∈ as, (encode a).IsWritable :=
  fun a ha => hencode a (List.all_eq_true.mp h a ha) (AreTexts.flatMap_iff.mp ht a ha)

theorem Value.isWritable_default {o : Option Value} (h : o.all (·.isValid) = true)
    (ht : AreTexts (defaultLeaves o)) : ∀ v ∈ o, v.toJson.IsWritable := by
  rintro v rfl
  exact v.isWritable_toJson h (by simpa [defaultLeaves] using ht)

theorem Json.isWritable_description {o : Option JsonString} (ht : AreTexts (descriptionLeaves o)) :
    ∀ s ∈ o, (string s).IsWritable := by
  rintro s rfl
  simpa [descriptionLeaves] using ht

theorem Argument.isWritable_toJson (a : Argument) (h : a.isValid = true) (ht : AreTexts a.leaves) :
    a.toJson.IsWritable := by
  simp only [isValid, Bool.and_eq_true] at h
  rw [leaves, List.singleton_append, AreTexts.word_iff] at ht
  simpa [toJson] using a.value.isWritable_toJson h.2 ht

theorem Directive.isWritable_toJson (d : Directive) (h : d.isValid = true) (ht : AreTexts d.leaves) :
    d.toJson.IsWritable := by
  simp only [isValid, Bool.and_eq_true] at h
  rw [leaves, List.singleton_append, AreTexts.word_iff] at ht
  simpa [toJson] using Json.isWritable_all Argument.isWritable_toJson h.2 ht

theorem Directive.areWritable {ds : List Directive} (h : ds.all (·.isValid) = true)
    (ht : AreTexts (directiveLeaves ds)) : ∀ d ∈ ds, d.toJson.IsWritable :=
  Json.isWritable_all isWritable_toJson h ht

mutual

theorem Selection.isWritable_toJson : (s : Selection) → s.isValid = true → AreTexts s.leaves →
    s.toJson.IsWritable
  | .field alternative name arguments directives none, h, ht => by
    simp only [isValid, Bool.and_eq_true] at h
    obtain ⟨⟨⟨-, harguments⟩, hdirectives⟩, -⟩ := h
    simp only [leaves, AreTexts.append_iff] at ht
    obtain ⟨⟨⟨-, hargumentTexts⟩, hdirectiveTexts⟩, -⟩ := ht
    have harguments := Json.isWritable_all Argument.isWritable_toJson harguments hargumentTexts
    simpa [toJson, directivesField] using
      ⟨harguments, Directive.areWritable hdirectives hdirectiveTexts⟩
  | .field alternative name arguments directives (some inner), h, ht => by
    simp only [isValid, isValidInner, Bool.and_eq_true] at h
    obtain ⟨⟨⟨-, harguments⟩, hdirectives⟩, hinner⟩ := h
    simp only [leaves, AreTexts.append_iff] at ht
    obtain ⟨⟨⟨-, hargumentTexts⟩, hdirectiveTexts⟩, hinnerTexts⟩ := ht
    have harguments := Json.isWritable_all Argument.isWritable_toJson harguments hargumentTexts
    simpa [toJson, directivesField] using
      ⟨harguments, Directive.areWritable hdirectives hdirectiveTexts,
        Selection.isWritable_toJsonList inner hinner hinnerTexts⟩
  | .fragmentSpread name directives, h, ht => by
    simp only [isValid, Bool.and_eq_true] at h
    simp only [leaves, AreTexts.append_iff] at ht
    simpa [toJson, directivesField] using Directive.areWritable h.2 ht.2
  | .inlineFragment typeCondition directives inner, h, ht => by
    simp only [isValid, Bool.and_eq_true] at h
    simp only [leaves, AreTexts.append_iff] at ht
    simpa [toJson, directivesField] using
      ⟨Directive.areWritable h.1.2 ht.1.2, Selection.isWritable_toJsonList inner h.2 ht.2⟩

theorem Selection.isWritable_toJsonList : (ss : List Selection) → Selection.areValid ss = true →
    AreTexts (Selection.leavesOf ss) → ∀ v ∈ Selection.toJsonList ss, v.IsWritable
  | [], _, _ => by simp [toJsonList]
  | s :: ss, h, ht => by
    rw [areValid, Bool.and_eq_true] at h
    rw [leavesOf, AreTexts.append_iff] at ht
    rw [toJsonList, List.forall_mem_cons]
    exact ⟨Selection.isWritable_toJson s h.1 ht.1, Selection.isWritable_toJsonList ss h.2 ht.2⟩

end

theorem SelectionSet.isWritable_toJson (s : SelectionSet) (h : Selection.areValid s = true)
    (ht : AreTexts (Selection.leavesOf s)) : (SelectionSet.toJson s).IsWritable := by
  simpa [SelectionSet.toJson] using Selection.isWritable_toJsonList s h ht

theorem VariableDefinition.isWritable_toJson (v : VariableDefinition) (h : v.isValid = true)
    (ht : AreTexts v.leaves) : v.toJson.IsWritable := by
  simp only [isValid, Bool.and_eq_true] at h
  simp only [leaves, AreTexts.append_iff] at ht
  simpa [toJson, directivesField] using
    ⟨Value.isWritable_default h.1.2 ht.1.2, Directive.areWritable h.2 ht.2⟩

theorem Operation.isWritable_toJson (o : Operation) (h : o.isValid = true) (ht : AreTexts o.leaves) :
    o.toJson.IsWritable := by
  simp only [isValid, Bool.and_eq_true] at h
  obtain ⟨⟨⟨-, hvariables⟩, hdirectives⟩, hselections⟩ := h
  simp only [leaves, AreTexts.append_iff] at ht
  simpa [toJson, directivesField] using
    ⟨Json.isWritable_all VariableDefinition.isWritable_toJson hvariables ht.1.1.2,
      Directive.areWritable hdirectives ht.1.2, SelectionSet.isWritable_toJson _ hselections ht.2⟩

theorem Fragment.isWritable_toJson (f : Fragment) (h : f.isValid = true) (ht : AreTexts f.leaves) :
    f.toJson.IsWritable := by
  simp only [isValid, Bool.and_eq_true] at h
  simp only [leaves, AreTexts.append_iff] at ht
  simpa [toJson, directivesField] using
    ⟨Directive.areWritable h.1.2 ht.1.2, SelectionSet.isWritable_toJson _ h.2 ht.2⟩

theorem InputValueDefinition.isWritable_toJson (v : InputValueDefinition) (h : v.isValid = true)
    (ht : AreTexts v.leaves) : v.toJson.IsWritable := by
  simp only [isValid, Bool.and_eq_true] at h
  simp only [leaves, AreTexts.append_iff] at ht
  simpa [toJson, descriptionField, directivesField] using
    ⟨Json.isWritable_description ht.1.1.1.1, Value.isWritable_default h.1.2 ht.1.2,
      Directive.areWritable h.2 ht.2⟩

theorem FieldDefinition.isWritable_toJson (f : FieldDefinition) (h : f.isValid = true)
    (ht : AreTexts f.leaves) : f.toJson.IsWritable := by
  simp only [isValid, Bool.and_eq_true] at h
  obtain ⟨⟨⟨-, harguments⟩, -⟩, hdirectives⟩ := h
  simp only [leaves, AreTexts.append_iff] at ht
  simpa [toJson, descriptionField, directivesField] using
    ⟨Json.isWritable_description ht.1.1.1.1,
      Json.isWritable_all InputValueDefinition.isWritable_toJson harguments ht.1.1.2,
      Directive.areWritable hdirectives ht.2⟩

theorem EnumValueDefinition.isWritable_toJson (v : EnumValueDefinition) (h : v.isValid = true)
    (ht : AreTexts v.leaves) : v.toJson.IsWritable := by
  simp only [isValid, Bool.and_eq_true] at h
  simp only [leaves, AreTexts.append_iff] at ht
  simpa [toJson, descriptionField, directivesField] using
    ⟨Json.isWritable_description ht.1.1, Directive.areWritable h.2 ht.2⟩

theorem SchemaDefinition.isWritable_toJson (s : SchemaDefinition) (h : s.isValid = true)
    (ht : AreTexts s.leaves) : s.toJson.IsWritable := by
  simp only [isValid, Bool.and_eq_true] at h
  simp only [leaves, AreTexts.append_iff] at ht
  simpa [toJson, descriptionField, directivesField, rootFields, OperationType.all,
    OperationType.word] using
    ⟨Json.isWritable_description ht.1.1, Directive.areWritable h.1 ht.1.2⟩

theorem TypeDefinition.isWritable_toJson (t : TypeDefinition) (h : t.isValid = true)
    (ht : AreTexts t.leaves) : t.toJson.IsWritable := by
  obtain ⟨description, name, directives, body⟩ := t
  simp only [isValid, Bool.and_eq_true] at h
  simp only [leaves, AreTexts.append_iff] at ht
  have hdescription := Json.isWritable_description ht.1.1
  have hbody := h.2
  have htexts := ht.2
  cases body with
  | scalar =>
    simpa [toJson, descriptionField, directivesField] using
      ⟨hdescription, Directive.areWritable h.1.2 htexts⟩
  | fields owner interfaces fields =>
    simp only [TypeBody.isValid, Bool.and_eq_true] at hbody
    simp only [TypeBody.leaves, AreTexts.append_iff] at htexts
    simpa [toJson, descriptionField, directivesField, interfacesField] using
      ⟨hdescription, Directive.areWritable h.1.2 htexts.1.2,
        Json.isWritable_all FieldDefinition.isWritable_toJson hbody.2 htexts.2⟩
  | union members =>
    simp only [TypeBody.leaves, AreTexts.append_iff] at htexts
    simpa [toJson, descriptionField, directivesField] using
      ⟨hdescription, Directive.areWritable h.1.2 htexts.1⟩
  | enum values =>
    simp only [TypeBody.leaves, AreTexts.append_iff] at htexts
    simpa [toJson, descriptionField, directivesField] using
      ⟨hdescription, Directive.areWritable h.1.2 htexts.1,
        Json.isWritable_all EnumValueDefinition.isWritable_toJson hbody htexts.2⟩
  | inputObject fields =>
    simp only [TypeBody.leaves, AreTexts.append_iff] at htexts
    simpa [toJson, descriptionField, directivesField] using
      ⟨hdescription, Directive.areWritable h.1.2 htexts.1,
        Json.isWritable_all InputValueDefinition.isWritable_toJson hbody htexts.2⟩

theorem DirectiveDefinition.isWritable_toJson (d : DirectiveDefinition) (h : d.isValid = true)
    (ht : AreTexts d.leaves) : d.toJson.IsWritable := by
  simp only [isValid, Bool.and_eq_true] at h
  simp only [leaves, AreTexts.append_iff] at ht
  simpa [toJson, descriptionField] using
    ⟨Json.isWritable_description ht.1.1.1,
      Json.isWritable_all InputValueDefinition.isWritable_toJson h.1.2 ht.1.2⟩

theorem SchemaExtension.isWritable_toJson (e : SchemaExtension) (h : e.isValid = true)
    (ht : AreTexts e.leaves) : e.toJson.IsWritable := by
  cases e with
  | withRoots directives roots =>
    simp only [isValid, Bool.and_eq_true] at h
    simp only [leaves, AreTexts.append_iff] at ht
    simpa [toJson, directivesField, rootFields, OperationType.all, OperationType.word] using
      Directive.areWritable h.1.1 ht.1
  | withDirectives directives =>
    simp only [isValid, Bool.and_eq_true] at h
    simpa [toJson, directivesField] using Directive.areWritable h.2 ht

theorem TypeExtension.isWritable_toJson (e : TypeExtension) (h : e.isValid = true)
    (ht : AreTexts e.leaves) : e.toJson.IsWritable := by
  obtain ⟨name, body⟩ := e
  simp only [isValid, Bool.and_eq_true] at h
  have hbody := h.2
  rw [leaves, List.singleton_append, AreTexts.word_iff] at ht
  cases body with
  | scalar directives | unionDirectives directives | enumDirectives directives
  | inputDirectives directives =>
    simp only [ExtensionBody.isValid, Bool.and_eq_true] at hbody
    simpa [toJson, directivesField] using Directive.areWritable hbody.2 ht
  | fields owner interfaces directives fields =>
    simp only [ExtensionBody.isValid, Bool.and_eq_true] at hbody
    simp only [ExtensionBody.leaves, AreTexts.append_iff] at ht
    simpa [toJson, directivesField, interfacesField] using
      ⟨Directive.areWritable hbody.1.2 ht.1.2,
        Json.isWritable_all FieldDefinition.isWritable_toJson hbody.2.2 ht.2⟩
  | fieldsDirectives owner interfaces directives =>
    simp only [ExtensionBody.isValid, Bool.and_eq_true] at hbody
    simp only [ExtensionBody.leaves, AreTexts.append_iff] at ht
    simpa [toJson, directivesField, interfacesField] using Directive.areWritable hbody.2.2 ht.2
  | fieldsInterfaces owner interfaces => simp [toJson, interfacesField]
  | unionMembers directives members =>
    simp only [ExtensionBody.isValid, Bool.and_eq_true] at hbody
    simp only [ExtensionBody.leaves, AreTexts.append_iff] at ht
    simpa [toJson, directivesField] using Directive.areWritable hbody.1 ht.1
  | enumValues directives values =>
    simp only [ExtensionBody.isValid, Bool.and_eq_true] at hbody
    simp only [ExtensionBody.leaves, AreTexts.append_iff] at ht
    simpa [toJson, directivesField] using
      ⟨Directive.areWritable hbody.1 ht.1,
        Json.isWritable_all EnumValueDefinition.isWritable_toJson hbody.2.2 ht.2⟩
  | inputFields directives fields =>
    simp only [ExtensionBody.isValid, Bool.and_eq_true] at hbody
    simp only [ExtensionBody.leaves, AreTexts.append_iff] at ht
    simpa [toJson, directivesField] using
      ⟨Directive.areWritable hbody.1 ht.1,
        Json.isWritable_all InputValueDefinition.isWritable_toJson hbody.2.2 ht.2⟩

theorem Definition.isWritable_toJson (d : Definition) (h : d.isValid = true)
    (ht : AreTexts d.leaves) : d.toJson.IsWritable := by
  cases d with
  | operation o => exact o.isWritable_toJson h ht
  | fragment f => exact f.isWritable_toJson h ht
  | schema s => exact s.isWritable_toJson h ht
  | type t => exact t.isWritable_toJson h ht
  | directive d => exact d.isWritable_toJson h ht
  | schemaExtension e => exact e.isWritable_toJson h ht
  | typeExtension e => exact e.isWritable_toJson h ht

theorem Document.isWritable_toJson (d : Document) (h : d.isValid = true) (ht : AreTexts d.leaves) :
    d.toJson.IsWritable := by
  simpa [toJson] using Json.isWritable_all Definition.isWritable_toJson h ht

/-! The depth of the data. -/

section Depth

variable {α : Type} {n k : Nat}

theorem nestingOf_cons (f : α → Nat) (a : α) (as : List α) :
    nestingOf f (a :: as) = max (f a) (nestingOf f as) := rfl

theorem nestingOf_le {f : α → Nat} {as : List α} : nestingOf f as ≤ n ↔ ∀ a ∈ as, f a ≤ n := by
  induction as with
  | nil => simp [nestingOf]
  | cons a as ih => rw [nestingOf_cons, Nat.max_le, ih, List.forall_mem_cons]

/-- Each of several being bounded by its nesting, so is the deepest of them. -/
theorem depths_le {encode : α → Json} {nesting : α → Nat}
    (h : ∀ a, (encode a).depth ≤ 3 * nesting a + k) (as : List α) :
    nestingOf (fun a => (encode a).depth) as ≤ 3 * nestingOf nesting as + k := by
  induction as with
  | nil => exact Nat.zero_le _
  | cons a as ih =>
    have ha := h a
    rw [nestingOf_cons, nestingOf_cons]
    omega

namespace Json

@[simp] theorem depth_str (s : String) : (str s).depth = 1 := by simp [str, depth]

@[simp] theorem depth_string (s : JsonString) : (string s).depth = 1 := by simp [depth]

@[simp] theorem depth_bool (b : Bool) : (bool b).depth = 1 := by simp [depth]

@[simp] theorem depth_null : null.depth = 1 := by simp [depth]

theorem depthOfEntries_le {fields : List (String × Json)} :
    depthOfEntries (fields.map fun (k, v) => (.text k, v)) ≤ n ↔ ∀ f ∈ fields, f.2.depth ≤ n := by
  induction fields with
  | nil => simp [depthOfEntries]
  | cons f fs ih => rw [List.map_cons, depthOfEntries, Nat.max_le, ih, List.forall_mem_cons]

@[simp] theorem depth_array (items : List Json) :
    (array items).depth = depthOfItems items + 1 := by
  rw [depth]

@[simp] theorem depth_record_le {fields : List (String × Json)} :
    (record fields).depth ≤ n + 1 ↔ ∀ f ∈ fields, f.2.depth ≤ n := by
  rw [record, depth, Nat.succ_le_succ_iff, depthOfEntries_le]

@[simp] theorem depth_node_le {kind : String} {fields : List (String × Json)} :
    (node kind fields).depth ≤ n + 1 ↔ 1 ≤ n ∧ ∀ f ∈ fields, f.2.depth ≤ n := by
  rw [node, depth_record_le, List.forall_mem_cons, depth_str]

@[simp] theorem depth_sequence (encode : α → Json) (as : List α) :
    (sequence encode as).depth = nestingOf (fun a => (encode a).depth) as + 1 := by
  rw [Encoding.sequence, depth_array]
  induction as with
  | nil => rfl
  | cons a as ih =>
    rw [List.map_cons, depthOfItems, nestingOf_cons]
    omega

@[simp] theorem depth_optional_le {encode : α → Json} {o : Option α} :
    (Encoding.optional encode o).depth ≤ n + 1 ↔
      nestingOf (fun a => (encode a).depth) o.toList ≤ n + 1 := by
  cases o <;> simp [Encoding.optional, nestingOf_le]

theorem depth_namedTypeJson (name : String) : (namedTypeJson name).depth = 2 := by
  rfl

@[simp] theorem depth_optional_str (o : Option String) : (Encoding.optional str o).depth = 1 := by
  cases o <;> simp [Encoding.optional]

@[simp] theorem depth_optional_string (o : Option JsonString) :
    (Encoding.optional string o).depth = 1 := by
  cases o <;> simp [Encoding.optional]

theorem depth_names_le (names : List String) :
    nestingOf (fun name => (namedTypeJson name).depth) names ≤ 2 :=
  nestingOf_le.mpr fun name _ => (depth_namedTypeJson name).le

end Json

end Depth

namespace TypeRef

theorem nesting_le_nestingInNonNull (t : TypeRef) : t.nesting ≤ t.nestingInNonNull := by
  induction t with
  | named name => exact le_rfl
  | list of => exact Nat.le_succ _
  | nonNull of ih => exact Nat.succ_le_succ ih

/-- Where a type begins counts for more. -/
theorem nesting_le_nestingOfUse (t : TypeRef) : t.nesting ≤ t.nestingOfUse := by
  cases t with
  | named name => exact le_rfl
  | list of => exact Nat.le_succ _
  | nonNull of => exact Nat.succ_le_succ (Nat.le_succ_of_le of.nesting_le_nestingInNonNull)

end TypeRef

namespace Value

theorem nesting_pos (v : Value) : 0 < v.nesting := by
  cases v <;> simp [nesting]

mutual

theorem nesting_le_nestingInObject : (v : Value) → v.nesting ≤ v.nestingInObject
  | .int _ | .float _ | .string _ _ | .boolean _ | .null | .enum _ | .variableRef _ => by
    simp [nesting, nestingInObject]
  | .list values => by simp [nesting, nestingInObject]
  | .object fields => by
    have hfields := nestingOfFields_le_nestingInFields fields
    simpa [nesting, nestingInObject] using hfields

theorem nestingOfFields_le_nestingInFields : (fs : List (String × Value)) →
    nestingOfFields fs ≤ nestingInFields fs
  | [] => by simp [nestingOfFields]
  | (name, v) :: fs => by
    have hv := nesting_le_nestingInObject v
    have hfs := nestingOfFields_le_nestingInFields fs
    rw [nestingOfFields, nestingInFields]
    omega

end

theorem nesting_le_nestingOfDefault (v : Value) : v.nesting ≤ v.nestingOfDefault := by
  cases v with
  | object fields =>
    have hfields := nestingOfFields_le_nestingInFields fields
    simp only [nesting, nestingOfDefault]
    omega
  | _ => simp [nesting, nestingOfDefault]

end Value

theorem TypeRef.depth_toJson_le (t : TypeRef) : t.toJson.depth ≤ 3 * t.nesting := by
  induction t with
  | named name => simp [toJson, nesting, Json.depth_namedTypeJson]
  | list of ih | nonNull of ih =>
    simp only [toJson, nesting, Nat.mul_add, Nat.mul_one, Json.depth_node_le, List.forall_mem_singleton]
    omega

mutual

theorem Value.depth_toJson_le : (v : Value) → v.toJson.depth ≤ 3 * v.nesting
  | .int _ | .float _ => by simp [toJson, nesting, Json.depth]
  | .string _ _ | .boolean _ | .null | .enum _ | .variableRef _ => by simp [toJson, nesting]
  | .list values => by
    have hvalues := Value.depth_toJsonList_le values
    simp [toJson, nesting, Nat.mul_add]
    omega
  | .object fields => by
    have hfields := Value.depth_toJsonFields_le fields
    simp [toJson, nesting, Nat.mul_add]
    omega

theorem Value.depth_toJsonList_le : (vs : List Value) →
    Json.depthOfItems (Value.toJsonList vs) ≤ 3 * Value.nestingOfList vs
  | [] => by simp [toJsonList, Json.depthOfItems]
  | v :: vs => by
    have hv := Value.depth_toJson_le v
    have hvs := Value.depth_toJsonList_le vs
    rw [toJsonList, Json.depthOfItems, nestingOfList]
    omega

theorem Value.depth_toJsonFields_le : (fs : List (String × Value)) →
    Json.depthOfItems (Value.toJsonFields fs) ≤ 3 * Value.nestingOfFields fs + 1
  | [] => by simp [toJsonFields, Json.depthOfItems]
  | (name, v) :: fs => by
    have hfield : (Json.record [("name", .str name), ("value", v.toJson)]).depth ≤
        3 * v.nesting + 1 := by
      have hv := Value.depth_toJson_le v
      have hpositive := v.nesting_pos
      simp
      omega
    have hfs := Value.depth_toJsonFields_le fs
    rw [toJsonFields, Json.depthOfItems, nestingOfFields]
    omega

end

theorem TypeRef.depth_toJson_le_ofUse (t : TypeRef) : t.toJson.depth ≤ 3 * t.nestingOfUse :=
  t.depth_toJson_le.trans (Nat.mul_le_mul_left 3 t.nesting_le_nestingOfUse)

theorem Value.depths_default_le (o : Option Value) :
    nestingOf (fun v => v.toJson.depth) o.toList ≤ 3 * nestingOf nestingOfDefault o.toList :=
  depths_le (k := 0)
    (fun v => v.depth_toJson_le.trans (Nat.mul_le_mul_left 3 v.nesting_le_nestingOfDefault)) _

theorem Argument.depth_toJson_le (a : Argument) : a.toJson.depth ≤ 3 * a.nesting + 1 := by
  have hvalue := a.value.depth_toJson_le
  have hpositive := a.value.nesting_pos
  simp [toJson, nesting]
  omega

theorem Directive.depth_toJson_le (d : Directive) : d.toJson.depth ≤ 3 * d.nesting + 3 := by
  have harguments := depths_le Argument.depth_toJson_le d.arguments
  simp [toJson, nesting]
  omega

theorem Directive.depths_le (ds : List Directive) :
    nestingOf (fun d => d.toJson.depth) ds ≤ 3 * nestingOf nesting ds + 3 :=
  GraphQLDoc.depths_le depth_toJson_le ds

theorem Directive.depths_le_bySelections (ds : List Directive) :
    nestingOf (fun d => d.toJson.depth) ds ≤ 3 * nestingOf nestingBySelections ds :=
  GraphQLDoc.depths_le (k := 0) depth_toJson_le ds

mutual

theorem Selection.depth_toJson_le : (s : Selection) → s.toJson.depth ≤ 3 * s.nesting + 5
  | .field alternative name arguments directives none => by
    have harguments := depths_le Argument.depth_toJson_le arguments
    have hdirectives := Directive.depths_le_bySelections directives
    simp [toJson, nesting, directivesField]
    omega
  | .field alternative name arguments directives (some inner) => by
    have harguments := depths_le Argument.depth_toJson_le arguments
    have hdirectives := Directive.depths_le_bySelections directives
    have hinner := Selection.depth_toJsonList_le inner
    simp [toJson, nesting, directivesField]
    omega
  | .fragmentSpread name directives => by
    have hdirectives := Directive.depths_le directives
    simp [toJson, nesting, directivesField]
    omega
  | .inlineFragment typeCondition directives inner => by
    have hcondition := Json.depth_names_le typeCondition.toList
    have hdirectives := Directive.depths_le_bySelections directives
    have hinner := Selection.depth_toJsonList_le inner
    simp [toJson, nesting, directivesField]
    omega

theorem Selection.depth_toJsonList_le : (ss : List Selection) →
    Json.depthOfItems (Selection.toJsonList ss) ≤ 3 * Selection.nestingOfList ss + 5
  | [] => by simp [toJsonList, Json.depthOfItems]
  | s :: ss => by
    have hs := Selection.depth_toJson_le s
    have hss := Selection.depth_toJsonList_le ss
    rw [toJsonList, Json.depthOfItems, nestingOfList]
    omega

end

theorem SelectionSet.depth_toJson_le (s : SelectionSet) :
    (SelectionSet.toJson s).depth ≤ 3 * SelectionSet.nesting s + 1 := by
  have hs := Selection.depth_toJsonList_le s
  simp [toJson, nesting]
  omega

theorem VariableDefinition.depth_toJson_le (v : VariableDefinition) :
    v.toJson.depth ≤ 3 * v.nesting + 5 := by
  have htype := v.type.depth_toJson_le_ofUse
  have hdefault := Value.depths_default_le v.defaultValue
  have hdirectives := Directive.depths_le v.directives
  simp [toJson, nesting, directivesField]
  omega

theorem Operation.depth_toJson_le (o : Operation) : o.toJson.depth ≤ 3 * o.nesting + 7 := by
  have hvariables := depths_le VariableDefinition.depth_toJson_le o.variableDefinitions
  have hdirectives := Directive.depths_le_bySelections o.directives
  have hselections := SelectionSet.depth_toJson_le o.selectionSet
  simp [toJson, nesting, directivesField]
  omega

theorem Fragment.depth_toJson_le (f : Fragment) : f.toJson.depth ≤ 3 * f.nesting + 3 := by
  have hdirectives := Directive.depths_le_bySelections f.directives
  have hselections := SelectionSet.depth_toJson_le f.selectionSet
  simp [toJson, nesting, directivesField, Json.depth_namedTypeJson]
  omega

theorem InputValueDefinition.depth_toJson_le (v : InputValueDefinition) :
    v.toJson.depth ≤ 3 * v.nesting + 5 := by
  have htype := v.type.depth_toJson_le_ofUse
  have hdefault := Value.depths_default_le v.defaultValue
  have hdirectives := Directive.depths_le v.directives
  simp [toJson, nesting, descriptionField, directivesField]
  omega

theorem FieldDefinition.depth_toJson_le (f : FieldDefinition) :
    f.toJson.depth ≤ 3 * f.nesting + 7 := by
  have harguments := depths_le InputValueDefinition.depth_toJson_le f.arguments
  have htype := f.type.depth_toJson_le_ofUse
  have hdirectives := Directive.depths_le f.directives
  simp [toJson, nesting, descriptionField, directivesField]
  omega

theorem EnumValueDefinition.depth_toJson_le (v : EnumValueDefinition) :
    v.toJson.depth ≤ 3 * v.nesting + 5 := by
  have hdirectives := Directive.depths_le v.directives
  simp [toJson, nesting, descriptionField, directivesField]
  omega

theorem RootTypes.depth_rootFields_le (r : RootTypes) : ∀ f ∈ rootFields r, f.2.depth ≤ 2 := by
  intro f hf
  obtain ⟨o, -, rfl⟩ := List.mem_map.mp hf
  cases hname : r.get o with
  | none => simp [Encoding.optional]
  | some name => exact (Json.depth_namedTypeJson name).le

theorem SchemaDefinition.depth_toJson_le (s : SchemaDefinition) :
    s.toJson.depth ≤ 3 * nestingOf Directive.nesting s.directives + 5 := by
  have hdirectives := Directive.depths_le s.directives
  simp only [toJson, Json.depth_node_le, List.forall_mem_cons, descriptionField, directivesField,
    Json.depth_optional_string, Json.depth_sequence]
  refine ⟨by omega, by omega, by omega, fun f hf => ?_⟩
  have hroot := RootTypes.depth_rootFields_le s.roots f hf
  omega

theorem TypeDefinition.depth_toJson_le (t : TypeDefinition) : t.toJson.depth ≤ 3 * t.nesting + 9 := by
  obtain ⟨description, name, directives, body⟩ := t
  have hdirectives := Directive.depths_le directives
  cases body with
  | scalar =>
    simp [toJson, nesting, TypeBody.nesting, descriptionField, directivesField]
    omega
  | fields owner interfaces fields =>
    have hinterfaces := Json.depth_names_le interfaces
    have hfields := depths_le FieldDefinition.depth_toJson_le fields
    simp [toJson, nesting, TypeBody.nesting, descriptionField, directivesField, interfacesField]
    omega
  | union members =>
    have hmembers := Json.depth_names_le members
    simp [toJson, nesting, TypeBody.nesting, descriptionField, directivesField]
    omega
  | enum values =>
    have hvalues := depths_le EnumValueDefinition.depth_toJson_le values
    simp [toJson, nesting, TypeBody.nesting, descriptionField, directivesField]
    omega
  | inputObject fields =>
    have hfields := depths_le InputValueDefinition.depth_toJson_le fields
    simp [toJson, nesting, TypeBody.nesting, descriptionField, directivesField]
    omega

theorem DirectiveDefinition.depth_toJson_le (d : DirectiveDefinition) :
    d.toJson.depth ≤ 3 * d.nesting + 7 := by
  have harguments := depths_le InputValueDefinition.depth_toJson_le d.arguments
  have hlocations : nestingOf (fun _ => 1) d.locations ≤ 1 := nestingOf_le.mpr fun _ _ => le_rfl
  simp [toJson, nesting, descriptionField]
  omega

theorem SchemaExtension.depth_toJson_le (e : SchemaExtension) :
    e.toJson.depth ≤ 3 * e.nesting + 5 := by
  cases e with
  | withRoots directives roots =>
    have hdirectives := Directive.depths_le directives
    simp only [toJson, Json.depth_node_le, List.forall_mem_cons, directivesField,
      Json.depth_sequence, nesting]
    refine ⟨by omega, by omega, fun f hf => ?_⟩
    have hroot := RootTypes.depth_rootFields_le roots f hf
    omega
  | withDirectives directives =>
    have hdirectives := Directive.depths_le directives
    simp [toJson, nesting, directivesField]
    omega

theorem TypeExtension.depth_toJson_le (e : TypeExtension) :
    e.toJson.depth ≤ 3 * e.body.nesting + 9 := by
  obtain ⟨name, body⟩ := e
  cases body with
  | scalar directives | unionDirectives directives | enumDirectives directives
  | inputDirectives directives =>
    have hdirectives := Directive.depths_le directives
    simp [toJson, ExtensionBody.nesting, directivesField]
    omega
  | fields owner interfaces directives fields =>
    have hinterfaces := Json.depth_names_le interfaces
    have hdirectives := Directive.depths_le directives
    have hfields := depths_le FieldDefinition.depth_toJson_le fields
    simp [toJson, ExtensionBody.nesting, directivesField, interfacesField]
    omega
  | fieldsDirectives owner interfaces directives =>
    have hinterfaces := Json.depth_names_le interfaces
    have hdirectives := Directive.depths_le directives
    simp [toJson, ExtensionBody.nesting, directivesField, interfacesField]
    omega
  | fieldsInterfaces owner interfaces =>
    have hinterfaces := Json.depth_names_le interfaces
    simp [toJson, ExtensionBody.nesting, interfacesField]
    omega
  | unionMembers directives members =>
    have hdirectives := Directive.depths_le directives
    have hmembers := Json.depth_names_le members
    simp [toJson, ExtensionBody.nesting, directivesField]
    omega
  | enumValues directives values =>
    have hdirectives := Directive.depths_le directives
    have hvalues := depths_le EnumValueDefinition.depth_toJson_le values
    simp [toJson, ExtensionBody.nesting, directivesField]
    omega
  | inputFields directives fields =>
    have hdirectives := Directive.depths_le directives
    have hfields := depths_le InputValueDefinition.depth_toJson_le fields
    simp [toJson, ExtensionBody.nesting, directivesField]
    omega

theorem Definition.depth_toJson_le (d : Definition) : d.toJson.depth ≤ 3 * d.nesting + 9 := by
  cases d with
  | operation o => exact Nat.le_add_right_of_le (k := 2) o.depth_toJson_le
  | fragment f => exact Nat.le_add_right_of_le (k := 6) f.depth_toJson_le
  | schema s => exact Nat.le_add_right_of_le (k := 4) s.depth_toJson_le
  | type t => exact t.depth_toJson_le
  | directive d => exact Nat.le_add_right_of_le (k := 2) d.depth_toJson_le
  | schemaExtension e => exact Nat.le_add_right_of_le (k := 4) e.depth_toJson_le
  | typeExtension e => exact e.depth_toJson_le

theorem Document.depth_toJson_le (d : Document) : d.toJson.depth ≤ 3 * d.nesting + 11 := by
  have hdefinitions := depths_le Definition.depth_toJson_le d.definitions
  simp [toJson, nesting]
  omega

end GraphQLDoc
