import GraphQLDoc.Decoding.Types
import GraphQLDoc.Proofs.Ast.Validity
import GraphQLDoc.Proofs.Decoding.Check

/-!
Type references, values, arguments and directives are decoded from their encodings. A nested one
needs as many levels as its encoding is deep.
-/
namespace GraphQLDoc

open Encoding

namespace Json

theorem depth_lt_array {v : Json} {items : List Json} (h : v ∈ items) :
    v.depth < (array items).depth := by
  have hitems : v.depth ≤ depthOfItems items := by
    induction items with
    | nil => cases h
    | cons w items ih =>
      rw [depthOfItems]
      rcases List.mem_cons.mp h with rfl | h
      · exact Nat.le_max_left _ _
      · exact Nat.le_trans (ih h) (Nat.le_max_right _ _)
  rw [depth]
  omega

theorem depth_lt_record {key : String} {v : Json} {fields : List (String × Json)}
    (h : (key, v) ∈ fields) : v.depth < (record fields).depth := by
  have hentries : v.depth ≤ depthOfEntries (entries fields) := by
    induction fields with
    | nil => cases h
    | cons g fields ih =>
      rw [entries, List.map_cons, depthOfEntries]
      rcases List.mem_cons.mp h with rfl | h
      · exact Nat.le_max_left _ _
      · exact Nat.le_trans (ih h) (Nat.le_max_right _ _)
  have hrecord : (record fields).depth = depthOfEntries (entries fields) + 1 := by
    rw [record, depth, entries]
  omega

end Json

namespace Decoder

@[simp] theorem string_string (s : JsonString) : string (.string s) = .ok s := rfl

theorem name_str {s : String} (h : isValidName s = true) : name (.str s) = .ok s := by
  rw [Json.str, name]
  exact if_pos h

theorem namedType_toJson {name : String} (h : isValidName name = true) :
    namedType (namedTypeJson name) = .ok name :=
  node_entries (by simp [required, name_str h]) (by simp)

/-- A field of a record takes one level less than the record. -/
theorem exists_level {key : String} {v : Json} {fields : List (String × Json)} {n : Nat}
    (hv : (key, v) ∈ fields) (hn : (Json.record fields).depth ≤ n) :
    ∃ m, n = m + 1 ∧ v.depth ≤ m := by
  have hlt := Json.depth_lt_record hv
  exact ⟨n - 1, by omega, by omega⟩

theorem typeRefTo_toJson (t : TypeRef) (h : t.isValid = true) (n : Nat)
    (hn : t.toJson.depth ≤ n) : typeRefTo n t.toJson = .ok t := by
  induction t generalizing n with
  | named name =>
    obtain ⟨m, rfl, -⟩ := exists_level List.mem_cons_self hn
    have hname : namedType (Encoding.node "named" [("name", .str name)]) = .ok name :=
      namedType_toJson h
    exact variant_node (by decide) (by simp [hname])
  | list of ih =>
    obtain ⟨m, rfl, hm⟩ := exists_level (List.mem_cons_of_mem _ List.mem_cons_self) hn
    refine variant_node (by decide) ?_
    have hof := ih h m hm
    exact node_entries (by simp [required, hof]) (by simp)
  | nonNull of ih =>
    obtain ⟨m, rfl, hm⟩ := exists_level (List.mem_cons_of_mem _ List.mem_cons_self) hn
    rw [TypeRef.isValid, Bool.and_eq_true] at h
    refine variant_node (by decide) ?_
    have hof := @refine_ok _ _ (!·.isNonNull) doubleNonNull _ _ (ih h.2 m hm) h.1
    exact node_entries (by simp [required, hof]) (by simp)

theorem typeRef_toJson {t : TypeRef} (h : t.isValid = true) : typeRef t.toJson = .ok t :=
  typeRefTo_toJson t h _ (Nat.le_refl _)

theorem int64_int {n : Int} (h : minInt64 ≤ n ∧ n ≤ maxInt64) : int64 (.int n) = .ok n := by
  rw [int64, anyInt, Checked.andThen_ok, if_neg (by omega), if_neg (by omega)]

theorem finiteFloat_float {x : Binary64} (h : x.isFinite = true) :
    finiteFloat (.float x) = .ok x := refine_ok rfl h

mutual

theorem valueTo_toJson : (v : Value) → v.isValid = true → ∀ n, v.toJson.depth ≤ n →
    valueTo n v.toJson = .ok v
  | .int k, h, n, hn => by
    obtain ⟨m, rfl, -⟩ := exists_level List.mem_cons_self hn
    have hk := int64_int (by simpa [Value.isValid] using h)
    exact variant_node (by decide) (node_entries (by simp [required, hk]) (by simp))
  | .float x, h, n, hn => by
    obtain ⟨m, rfl, -⟩ := exists_level List.mem_cons_self hn
    rw [Value.isValid, Binary64.isValid, Bool.and_eq_true] at h
    have hx := finiteFloat_float h.1
    exact variant_node (by decide) (node_entries (by simp [required, hx]) (by simp))
  | .string s block, _, n, hn => by
    obtain ⟨m, rfl, -⟩ := exists_level List.mem_cons_self hn
    exact variant_node (by decide)
      (node_entries (by simp [required, withDefault, boolean]) (by simp))
  | .boolean b, _, n, hn => by
    obtain ⟨m, rfl, -⟩ := exists_level List.mem_cons_self hn
    exact variant_node (by decide) (node_entries (by simp [required, boolean]) (by simp))
  | .null, _, n, hn => by
    obtain ⟨m, rfl, -⟩ := exists_level List.mem_cons_self hn
    exact variant_node (by decide) (node_entries rfl (by simp))
  | .enum name, h, n, hn => by
    obtain ⟨m, rfl, -⟩ := exists_level List.mem_cons_self hn
    rw [Value.isValid] at h
    exact variant_node (by decide) (node_entries (by simp [required, name_str h]) (by simp))
  | .variableRef name, h, n, hn => by
    obtain ⟨m, rfl, -⟩ := exists_level List.mem_cons_self hn
    rw [Value.isValid] at h
    exact variant_node (by decide) (node_entries (by simp [required, name_str h]) (by simp))
  | .list values, h, n, hn => by
    obtain ⟨m, rfl, hm⟩ := exists_level (List.mem_cons_of_mem _ List.mem_cons_self) hn
    rw [Value.isValid] at h
    have hvalues := items_toJsonList values h m
      (fun v hv => Nat.le_of_lt (Nat.lt_of_lt_of_le (Json.depth_lt_array hv) hm)) 0
    exact variant_node (by decide)
      (node_entries (by simp [withDefault, sequence, hvalues]) (by simp))
  | .object fields, h, n, hn => by
    obtain ⟨m, rfl, hm⟩ := exists_level (List.mem_cons_of_mem _ List.mem_cons_self) hn
    rw [Value.isValid] at h
    have hfields := items_toJsonFields fields h m
      (fun v hv => Nat.le_of_lt (Nat.lt_of_lt_of_le (Json.depth_lt_array hv) hm)) 0
    exact variant_node (by decide)
      (node_entries (by simp [withDefault, sequence, hfields]) (by simp))

theorem items_toJsonList : (vs : List Value) → Value.areValid vs = true → ∀ n,
    (∀ v ∈ Value.toJsonList vs, v.depth ≤ n) → ∀ k,
    items (valueTo n) k (Value.toJsonList vs) = .ok vs
  | [], _, _, _, _ => rfl
  | v :: vs, h, n, hn, k => by
    rw [Value.areValid, Bool.and_eq_true] at h
    rw [Value.toJsonList, List.forall_mem_cons] at hn
    have hv := valueTo_toJson v h.1 n hn.1
    have hvs := items_toJsonList vs h.2 n hn.2 (k + 1)
    simp [Value.toJsonList, items, hv, hvs]

theorem items_toJsonFields : (fs : List (String × Value)) → Value.areValidFields fs = true → ∀ n,
    (∀ v ∈ Value.toJsonFields fs, v.depth ≤ n) → ∀ k,
    items (objectField (valueTo n)) k (Value.toJsonFields fs) = .ok fs
  | [], _, _, _, _ => rfl
  | (name, v) :: fs, h, n, hn, k => by
    rw [Value.areValidFields, Bool.and_eq_true, Bool.and_eq_true] at h
    rw [Value.toJsonFields, List.forall_mem_cons] at hn
    have hv := valueTo_toJson v h.1.2 n (by
      refine Nat.le_of_lt (Nat.lt_of_lt_of_le ?_ hn.1)
      exact Json.depth_lt_record (List.mem_cons_of_mem _ List.mem_cons_self))
    have hfield : objectField (valueTo n) (.record [("name", .str name), ("value", v.toJson)]) =
        .ok (name, v) :=
      record_entries (by simp [required, name_str h.1.1, hv]) (by simp)
    have hfs := items_toJsonFields fs h.2 n hn.2 (k + 1)
    simp [Value.toJsonFields, items, hfield, hfs]

end

theorem value_toJson {v : Value} (h : v.isValid = true) : value v.toJson = .ok v :=
  valueTo_toJson v h _ (Nat.le_refl _)

theorem argument_toJson {a : Argument} (h : a.isValid = true) : argument a.toJson = .ok a := by
  rw [Argument.isValid, Bool.and_eq_true] at h
  exact record_entries (by simp [required, name_str h.1, value_toJson h.2]) (by simp)

theorem arguments_toJson {as : List Argument} (h : as.all (·.isValid) = true) :
    sequence argument (Encoding.sequence Argument.toJson as) = .ok as :=
  sequence_valid (fun _ => argument_toJson) h

theorem directive_toJson {d : Directive} (h : d.isValid = true) : directive d.toJson = .ok d := by
  rw [Directive.isValid, Bool.and_eq_true] at h
  have harguments := arguments_toJson h.2
  exact record_entries (by simp [required, withDefault, name_str h.1, harguments]) (by simp)

theorem directives_toJson {ds : List Directive} (h : ds.all (·.isValid) = true) :
    sequence directive (Encoding.sequence Directive.toJson ds) = .ok ds :=
  sequence_valid (fun _ => directive_toJson) h

theorem someDirectives_toJson {ds : List Directive}
    (h : (!ds.isEmpty && ds.all (·.isValid)) = true) :
    nonempty directive (Encoding.sequence Directive.toJson ds) = .ok ds :=
  nonempty_valid (fun _ => directive_toJson) h

theorem optionalName_str {o : Option String} (h : o.all isValidName = true) :
    nullable name (Encoding.optional .str o) = .ok o :=
  nullable_optional (fun _ h => by cases h) fun s hs => name_str (by subst hs; exact h)

theorem optionalType_toJson {o : Option String} (h : o.all isValidName = true) :
    nullable namedType (Encoding.optional namedTypeJson o) = .ok o :=
  nullable_optional (fun _ h => by cases h) fun s hs => namedType_toJson (by subst hs; exact h)

theorem namedTypes_toJson {names : List String} (h : names.all isValidName = true) :
    sequence namedType (Encoding.sequence namedTypeJson names) = .ok names :=
  sequence_valid (fun _ => namedType_toJson) h

theorem defaultValue_toJson {o : Option Value} (h : o.all (·.isValid) = true) :
    nullable value (Encoding.optional Value.toJson o) = .ok o :=
  nullable_optional (fun v h => by cases v <;> cases h) fun v hv =>
    value_toJson (by subst hv; exact h)

end Decoder

end GraphQLDoc
