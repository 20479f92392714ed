import GraphQLDoc.Proofs.Validation.Verdict
import Mathlib.Data.List.Induction

/-!
Where the errors of a workspace are told. A type that is defined again is reported in the document that
defines it again, once for each such definition, and a repeated schema in each document that has one.
-/
namespace GraphQLDoc.Validation

/-- The type definitions of a document whose names are defined before them, in the definitions in front
of the document or by the document itself. -/
def repeatedTypes (before : List Definition) (d : Document) : List TypeDefinition :=
  (d.types.zipIdx.filter fun (t, i) =>
    decide (t.name ∈ definedNames before ++ (d.types.take i).map (·.name))).map Prod.fst

def Error.isDuplicateType : Error → Bool
  | .duplicateType _ => true
  | _ => false

/-- Whether an error says that a type of some name is defined again. -/
def Error.isDuplicateOf (name : String) : Error → Bool
  | .duplicateType n => n == name
  | _ => false

def Error.isSeveralSchemas : Error → Bool
  | .severalSchemas _ _ => true
  | _ => false

/-! Names that are defined again. -/

theorem repeated_congr {seen seen' : List String} (h : ∀ n, n ∈ seen ↔ n ∈ seen')
    (ns : List String) : repeated seen ns = repeated seen' ns := by
  induction ns generalizing seen seen' with
  | nil => rfl
  | cons n ns ih =>
    simp only [repeated, h n, ih h]
    congr 1
    exact ih fun m => by simp only [List.mem_cons, h m]

/-- Also a name that is reported has been seen behind its definition. -/
theorem repeated_cons (seen : List String) (n : String) (ns : List String) :
    repeated seen (n :: ns) = (if n ∈ seen then [n] else []) ++ repeated (seen ++ [n]) ns := by
  by_cases hn : n ∈ seen
  · rw [repeated, if_pos hn, if_pos hn, List.singleton_append]
    congr 1
    refine repeated_congr (fun m => ?_) ns
    simp only [List.mem_append, List.mem_singleton]
    exact ⟨.inl, fun h => h.elim id fun h => h ▸ hn⟩
  · rw [repeated, if_neg hn, if_neg hn, List.nil_append]
    exact repeated_congr (fun m => by simp [or_comm]) ns

theorem repeated_append (seen ns ms : List String) :
    repeated seen (ns ++ ms) = repeated seen ns ++ repeated (seen ++ ns) ms := by
  induction ns generalizing seen with
  | nil => rw [List.nil_append, List.append_nil]; rfl
  | cons n ns ih =>
    rw [List.cons_append, repeated_cons, repeated_cons, ih, List.append_assoc, List.append_assoc]
    rfl

/-- Whether the name at a place is reported depends on the names in front of that place. -/
theorem repeated_eq_filter (seen ns : List String) :
    repeated seen ns =
      (ns.zipIdx.filter fun (n, i) => decide (n ∈ seen ++ ns.take i)).map Prod.fst := by
  induction ns using List.reverseRecOn with
  | nil => rfl
  | append_singleton ns n ih =>
    have hfront : ((ns.zipIdx.filter fun (m, i) => decide (m ∈ seen ++ (ns ++ [n]).take i)).map
        Prod.fst) = repeated seen ns := by
      rw [ih]
      congr 1
      refine List.filter_congr fun ⟨m, i⟩ hm => ?_
      have hi : i ≤ ns.length := by
        have := (List.mem_zipIdx hm).2.1
        omega
      simp only [List.take_append_of_le_length hi]
    rw [repeated_append, List.zipIdx_append, List.filter_append, List.map_append, hfront]
    congr 1
    have hlast : [n].zipIdx (0 + ns.length) = [(n, ns.length)] := by simp
    rw [hlast, List.filter_singleton]
    simp only [List.take_left]
    by_cases hn : n ∈ seen ++ ns
    · rw [repeated, if_pos hn, decide_eq_true hn]
      rfl
    · rw [repeated, if_neg hn, decide_eq_false hn]
      rfl

/-- Of the definitions of a name all but the first are reported. -/
theorem count_repeated (name : String) (ns : List String) :
    (repeated [] ns).count name = ns.count name - 1 := by
  induction ns using List.reverseRecOn with
  | nil => rfl
  | append_singleton ns n ih =>
    rw [repeated_append, List.count_append, List.count_append, ih, List.nil_append]
    by_cases hn : n ∈ ns
    · have hpos : 0 < ns.count n := List.count_pos_iff.mpr hn
      by_cases hname : n = name
      · subst hname
        simp only [repeated, hn, if_true, List.count_singleton_self]
        omega
      · simp [repeated, hn, hname]
    · have hzero : ns.count n = 0 := List.count_eq_zero.mpr hn
      by_cases hname : n = name
      · subst hname
        simp [repeated, hn, hzero]
      · simp [repeated, hn, hname]

theorem repeated_types (before : List Definition) (d : Document) :
    repeated (definedNames before) (definedNames d.definitions) =
      (repeatedTypes before d).map (·.name) := by
  have hnames : definedNames d.definitions = d.types.map (·.name) := rfl
  rw [repeated_eq_filter, hnames, List.zipIdx_map, List.filter_map, List.map_map, repeatedTypes,
    List.map_map]
  simp only [Function.comp_def, List.map_take]
  rfl

/-! The errors of one kind among those of a document. -/

/-- Of the kinds of errors that neither referencesOf nor `Node` give. -/
theorem filter_errors_resultOf {p : Error → Bool} (hundefined : ∀ r n, p (.undefinedType r n) = false)
    (hcount : p .nodeFieldCount = false) (hfield : p .nodeField = false) (c : Context)
    (seen : List String) (d : Document) :
    (resultOf c seen d).errors.filter p =
      ((repeated seen (definedNames d.definitions)).map Error.duplicateType).filter p ++
        (schemaErrors c.scope c.schemas d).filter p := by
  have hreferences : (undefinedErrorsOf c.defined d).filter p = [] := by
    refine List.filter_eq_nil_iff.mpr fun e he => ?_
    obtain ⟨r, -, hr⟩ := List.mem_filterMap.mp he
    grind
  have hnode : (nodeErrors d).filter p = [] := by
    unfold nodeErrors
    repeat' split
    all_goals simp [hcount, hfield]
  simp only [resultOf, List.filter_append, hreferences, hnode, List.append_nil]

theorem duplicates_resultOf (c : Context) (seen : List String) (d : Document) :
    (resultOf c seen d).errors.filter Error.isDuplicateType =
      (repeated seen (definedNames d.definitions)).map Error.duplicateType := by
  rw [filter_errors_resultOf (fun _ _ => rfl) rfl rfl]
  have hschema : (schemaErrors c.scope c.schemas d).filter Error.isDuplicateType = [] := by
    unfold schemaErrors
    split <;> rfl
  rw [hschema, List.append_nil, List.filter_eq_self]
  intro e he
  obtain ⟨n, -, rfl⟩ := List.mem_map.mp he
  rfl

theorem severalSchemas_resultOf (c : Context) (seen : List String) (d : Document) :
    (resultOf c seen d).errors.filter Error.isSeveralSchemas = schemaErrors c.scope c.schemas d := by
  rw [filter_errors_resultOf (fun _ _ => rfl) rfl rfl]
  have hduplicates : ((repeated seen (definedNames d.definitions)).map
      Error.duplicateType).filter Error.isSeveralSchemas = [] := by
    simp [List.filter_eq_nil_iff, Error.isSeveralSchemas]
  rw [hduplicates, List.nil_append]
  unfold schemaErrors
  split <;> rfl

/-! The documents of a workspace. -/

/-- What is said of a document depends on the definitions in front of it. -/
theorem map_resultsOf {α : Type} (c : Context) (f : Result → α) (before : List Definition)
    (documents : List (String × Document)) :
    (resultsOf c (definedNames before) documents).map (fun (key, r) => (key, f r)) =
      documents.zipIdx.map fun ((key, d), i) =>
        (key, f (resultOf c (definedNames (before ++ definitionsOf (documents.take i))) d)) := by
  induction documents generalizing before with
  | nil => rfl
  | cons entry documents ih =>
    have hseen : definedNames before ++ definedNames entry.2.definitions =
        definedNames (before ++ entry.2.definitions) := (definedNames_append _ _).symm
    rw [resultsOf, List.map_cons, hseen, ih, List.zipIdx_cons', List.map_cons, List.map_map]
    congr 1
    · simp [definitionsOf]
    · refine List.map_congr_left fun entry _ => ?_
      obtain ⟨⟨key, d⟩, i⟩ := entry
      simp [List.append_assoc]

/-- The reports of repeated types in all documents are those of all names in their order. -/
theorem duplicates_resultsOf (c : Context) (seen : List String)
    (documents : List (String × Document)) :
    ((resultsOf c seen documents).flatMap (·.2.errors)).filter Error.isDuplicateType =
      (repeated seen (definedNames (definitionsOf documents))).map Error.duplicateType := by
  induction documents generalizing seen with
  | nil => rfl
  | cons entry documents ih =>
    rw [resultsOf, List.flatMap_cons, List.filter_append, ih, duplicates_resultOf, definitionsOf_cons,
      definedNames_append, repeated_append, List.map_append]

/-- Each document of a workspace reports, in their order, the types that it defines again, so that a
name that is defined several times is reported once less; and it reports once that there are several
schemas, and how many, if it has one of them. -/
theorem validateWorkspace_places (documents : List (String × Document)) :
    ∃ rs, validateWorkspace documents = .ok rs ∧
    rs.map (fun (key, r) =>
        (key, r.errors.filter Error.isDuplicateType, r.errors.filter Error.isSeveralSchemas)) =
      documents.zipIdx.map (fun ((key, d), i) =>
        (key, (repeatedTypes (definitionsOf (documents.take i)) d).map fun t =>
            .duplicateType t.name,
          if 1 < schemaCount (definitionsOf documents) ∧ 0 < schemaCount d.definitions then
            [.severalSchemas .workspace (schemaCount (definitionsOf documents))]
          else [])) ∧
    ∀ name, ((rs.flatMap (·.2.errors)).filter (Error.isDuplicateOf name)).length =
      (definedNames (definitionsOf documents)).count name - 1 := by
  refine ⟨verdicts documents, validateWorkspace_eq documents, ?_, ?_⟩
  · have hplaces := map_resultsOf (contextOf .workspace (definitionsOf documents))
      (fun r => (r.errors.filter Error.isDuplicateType, r.errors.filter Error.isSeveralSchemas)) []
      documents
    refine hplaces.trans (List.map_congr_left fun ⟨⟨key, d⟩, i⟩ _ => ?_)
    simp only [duplicates_resultOf, severalSchemas_resultOf, List.nil_append, repeated_types,
      List.map_map]
    rfl
  · intro name
    have hkind : Error.isDuplicateOf name = fun e =>
        Error.isDuplicateOf name e && Error.isDuplicateType e := by
      funext e
      cases e <;> simp [Error.isDuplicateOf, Error.isDuplicateType]
    rw [hkind, ← List.filter_filter]
    have hall := duplicates_resultsOf (contextOf .workspace (definitionsOf documents)) [] documents
    calc _ = (((repeated [] (definedNames (definitionsOf documents))).map
          Error.duplicateType).filter (Error.isDuplicateOf name)).length := by rw [← hall]; rfl
      _ = (repeated [] (definedNames (definitionsOf documents))).count name := by
        rw [List.filter_map, List.length_map, List.count_eq_length_filter]
        rfl
      _ = _ := count_repeated name _

end GraphQLDoc.Validation
