import GraphQLDoc.Validation
import Mathlib.Data.List.Perm.Basic

/-!
The verdict of validation depends on nothing but which definitions there are. How they are ordered and
divided into documents decides where a repeated type is reported and which of several `Node`s is looked
at, but with several of them there is an error anyway.
-/
namespace GraphQLDoc.Validation

/-! Each kind of definition is handled, so that the checks come to their end. -/

/-- The references of a definition, whatever its kind. -/
def referencesOf (d : Definition) : List (Reference × String) := (references? d).getD []

/-- Where no references are looked for, the kind is one of those that have none. -/
theorem kind_of_references?_eq_none {d : Definition} (h : references? d = none) :
    d.kind ∈ referenceFreeKinds := by
  cases d with
  | operation o => simp [Definition.kind, referenceFreeKinds]
  | fragment f => simp [Definition.kind, referenceFreeKinds]
  | schema s => cases h
  | directive d => cases h
  | type t =>
    obtain ⟨description, name, directives, body⟩ := t
    cases body with
    | scalar | enum values => simp [Definition.kind, TypeBody.kind, referenceFreeKinds]
    | fields owner interfaces fields | union members | inputObject fields => cases h
  | schemaExtension e =>
    cases e with
    | withRoots directives roots => cases h
    | withDirectives directives =>
      simp [Definition.kind, SchemaExtension.kind, referenceFreeKinds]
  | typeExtension e =>
    obtain ⟨name, body⟩ := e
    cases body with
    | scalar directives | unionDirectives directives | enumValues directives values
    | enumDirectives directives | inputDirectives directives =>
      simp [Definition.kind, ExtensionBody.kind, referenceFreeKinds]
    | _ => cases h

theorem references_eq (d : Definition) : references d = .ok (referencesOf d) := by
  unfold references referencesOf
  cases h : references? d with
  | none => exact if_pos (kind_of_references?_eq_none h)
  | some rs => rfl

def undefinedErrorsOf (defined : List String) (d : Document) : List Error :=
  (d.definitions.flatMap referencesOf).filterMap fun (r, name) =>
    if isKnown defined name then none else some (.undefinedType r name)

theorem undefinedErrors_eq_ok (defined : List String) (d : Document) :
    undefinedErrors defined d = .ok (undefinedErrorsOf defined d) := by
  have hall : d.definitions.mapM references = .ok (d.definitions.map referencesOf) := by
    rw [funext references_eq]
    exact List.mapM_pure
  rw [undefinedErrors, hall, undefinedErrorsOf, List.flatMap_def]
  rfl

/-- What the check of a document ends with. -/
def resultOf (c : Context) (seen : List String) (d : Document) : Result where
  warnings := danglingWarnings c.defined d ++ emptyWarnings d
  errors := (repeated seen (definedNames d.definitions)).map .duplicateType ++
    schemaErrors c.scope c.schemas d ++ undefinedErrorsOf c.defined d ++ nodeErrors d

theorem check_eq (c : Context) (seen : List String) (d : Document) :
    check c seen d = .ok (resultOf c seen d) := by
  rw [check, undefinedErrors_eq_ok]
  rfl

def resultsOf (c : Context) : List String → List (String × Document) → List (String × Result)
  | _, [] => []
  | seen, (key, d) :: rest =>
    (key, resultOf c seen d) :: resultsOf c (seen ++ definedNames d.definitions) rest

theorem checkAll_eq (c : Context) (seen : List String) (documents : List (String × Document)) :
    checkAll c seen documents = .ok (resultsOf c seen documents) := by
  induction documents generalizing seen with
  | nil => rfl
  | cons entry documents ih =>
    rw [checkAll, check_eq, ih]
    rfl

def verdict (d : Document) : Result := resultOf (contextOf .document d.definitions) [] d

theorem validate_eq (d : Document) : validate d = .ok (verdict d) := check_eq _ _ d

def verdicts (documents : List (String × Document)) : List (String × Result) :=
  resultsOf (contextOf .workspace (documents.flatMap fun (_, d) => d.definitions)) [] documents

/-- The checks of a workspace come to their end. -/
theorem validateWorkspace_eq (documents : List (String × Document)) :
    validateWorkspace documents = .ok (verdicts documents) :=
  checkAll_eq _ _ documents

/-- The definitions of all documents in their order. -/
def definitionsOf (documents : List (String × Document)) : List Definition :=
  documents.flatMap fun (_, d) => d.definitions

/-- What is wrong with a type as the interface `Node`. -/
def nodeErrorsOf (t : TypeDefinition) : List Error :=
  match t.body with
  | .fields .interface _ [f] => if f.name = "id" ∧ f.type = nodeFieldType then [] else [.nodeField]
  | .fields .interface _ _ => [.nodeFieldCount]
  | _ => []

/-- Definitions that give no error, however they are ordered and divided into documents. -/
structure IsFaultless (ds : List Definition) : Prop where
  once : (definedNames ds).Nodup
  schema : schemaCount ds ≤ 1
  known : ∀ r ∈ ds.flatMap referencesOf, isKnown (definedNames ds) r.2 = true
  node : ∀ t ∈ ds.filterMap Definition.type?, t.name = "Node" → nodeErrorsOf t = []

/-! Permutations. -/

theorem definedNames_perm {ds es : List Definition} (h : ds.Perm es) :
    (definedNames ds).Perm (definedNames es) :=
  (h.filterMap _).map _

theorem schemaCount_perm {ds es : List Definition} (h : ds.Perm es) :
    schemaCount ds = schemaCount es :=
  (h.filterMap _).length_eq

theorem isKnown_perm {as bs : List String} (h : as.Perm bs) (name : String) :
    isKnown as name = isKnown bs name := by
  simp only [isKnown, h.mem_iff]

theorem IsFaultless.perm {ds es : List Definition} (hds : IsFaultless ds) (h : ds.Perm es) :
    IsFaultless es where
  once := (definedNames_perm h).nodup_iff.mp hds.once
  schema := schemaCount_perm h ▸ hds.schema
  known r hr := by
    rw [← isKnown_perm (definedNames_perm h)]
    exact hds.known r ((h.flatMap_right referencesOf).mem_iff.mpr hr)
  node t ht := hds.node t ((h.filterMap Definition.type?).mem_iff.mpr ht)

/-! One document. -/

theorem repeated_eq_nil_iff {seen ns : List String} :
    repeated seen ns = [] ↔ ns.Nodup ∧ ∀ n ∈ ns, n ∉ seen := by
  induction ns generalizing seen with
  | nil => simp [repeated]
  | cons n ns ih =>
    by_cases hn : n ∈ seen
    · simp [repeated, hn]
    · simp only [repeated, hn, if_false, ih, List.nodup_cons, List.mem_cons, not_or]
      grind

theorem undefinedErrorsOf_eq_nil_iff {defined : List String} {d : Document} :
    undefinedErrorsOf defined d = [] ↔
      ∀ r ∈ d.definitions.flatMap referencesOf, isKnown defined r.2 = true := by
  simp [undefinedErrorsOf, List.filterMap_eq_nil_iff]

theorem schemaErrors_eq_nil_iff {scope : Scope} {count : Nat} {d : Document} :
    schemaErrors scope count d = [] ↔ (1 < count → schemaCount d.definitions = 0) := by
  simp [schemaErrors]

theorem nodeErrors_eq (d : Document) :
    nodeErrors d = ((d.type? "Node").map nodeErrorsOf).getD [] := by
  unfold nodeErrors nodeErrorsOf
  cases d.type? "Node" with
  | none => rfl
  | some t =>
    obtain ⟨description, name, directives, body⟩ := t
    cases body with
    | fields owner interfaces fields =>
      cases owner with
      | object => rfl
      | interface => rcases fields with _ | ⟨f, _ | ⟨f', fs⟩⟩ <;> rfl
    | _ => rfl

theorem find?_eq_some_iff {α : Type} {key : α → String} {as : List α}
    (h : (as.map key).Nodup) {k : String} {a : α} :
    as.find? (key · == k) = some a ↔ a ∈ as ∧ key a = k := by
  induction as with
  | nil => simp
  | cons b as ih =>
    rw [List.map_cons, List.nodup_cons] at h
    by_cases hb : key b = k
    · have hother : ∀ a ∈ as, key a ≠ k := fun a ha hk =>
        h.1 (List.mem_map.mpr ⟨a, ha, hk.trans hb.symm⟩)
      rw [List.find?_cons_of_pos (by simpa using hb)]
      grind
    · rw [List.find?_cons_of_neg (by simpa using hb), ih h.2]
      grind

theorem nodeErrors_eq_nil_iff {d : Document} (h : (definedNames d.definitions).Nodup) :
    nodeErrors d = [] ↔
      ∀ t ∈ d.definitions.filterMap Definition.type?, t.name = "Node" → nodeErrorsOf t = [] := by
  have hfind (t : TypeDefinition) : d.type? "Node" = some t ↔ t ∈ d.types ∧ t.name = "Node" :=
    find?_eq_some_iff h
  rw [nodeErrors_eq]
  constructor
  · intro hnil t ht hname
    rw [(hfind t).mpr ⟨ht, hname⟩] at hnil
    exact hnil
  · intro hall
    cases ht : d.type? "Node" with
    | none => rfl
    | some t =>
      obtain ⟨hmem, hname⟩ := (hfind t).mp ht
      exact hall t hmem hname

theorem hasErrors_resultOf {c : Context} {seen : List String} {d : Document} :
    (resultOf c seen d).hasErrors = false ↔
      repeated seen (definedNames d.definitions) = [] ∧ schemaErrors c.scope c.schemas d = [] ∧
        undefinedErrorsOf c.defined d = [] ∧ nodeErrors d = [] := by
  simp [Result.hasErrors, resultOf]

/-- A document alone has no errors if its definitions are faultless. -/
theorem hasErrors_verdict_iff {d : Document} :
    (verdict d).hasErrors = false ↔ IsFaultless d.definitions := by
  rw [verdict, hasErrors_resultOf, repeated_eq_nil_iff, schemaErrors_eq_nil_iff,
    undefinedErrorsOf_eq_nil_iff]
  constructor
  · rintro ⟨⟨honce, -⟩, hschema, hknown, hnode⟩
    refine ⟨honce, ?_, hknown, (nodeErrors_eq_nil_iff honce).mp hnode⟩
    by_contra hcount
    have hzero : schemaCount d.definitions = 0 := hschema (by simpa [contextOf] using hcount)
    omega
  · rintro ⟨honce, hschema, hknown, hnode⟩
    refine ⟨⟨honce, by simp⟩, fun hcount => ?_, hknown, (nodeErrors_eq_nil_iff honce).mpr hnode⟩
    have hmany : 1 < schemaCount d.definitions := hcount
    omega

/-! Several documents. -/

@[simp] theorem definitionsOf_cons (entry : String × Document)
    (documents : List (String × Document)) :
    definitionsOf (entry :: documents) = entry.2.definitions ++ definitionsOf documents := rfl

@[simp] theorem definedNames_append (ds es : List Definition) :
    definedNames (ds ++ es) = definedNames ds ++ definedNames es := by
  simp [definedNames, List.filterMap_append]

@[simp] theorem schemaCount_append (ds es : List Definition) :
    schemaCount (ds ++ es) = schemaCount ds + schemaCount es := by
  simp [schemaCount, List.filterMap_append]

theorem hasErrors_resultsOf {c : Context} {seen : List String}
    {documents : List (String × Document)} :
    (∀ r ∈ resultsOf c seen documents, r.2.hasErrors = false) ↔
      repeated seen (definedNames (definitionsOf documents)) = [] ∧
        ∀ entry ∈ documents, schemaErrors c.scope c.schemas entry.2 = [] ∧
          undefinedErrorsOf c.defined entry.2 = [] ∧ nodeErrors entry.2 = [] := by
  induction documents generalizing seen with
  | nil => simp [resultsOf, definitionsOf, definedNames, repeated]
  | cons entry documents ih =>
    simp only [resultsOf, List.forall_mem_cons, ih, hasErrors_resultOf, repeated_eq_nil_iff,
      definitionsOf_cons, definedNames_append, List.nodup_append, List.mem_append]
    grind

theorem schemaCount_definitionsOf_eq_zero {documents : List (String × Document)}
    (h : ∀ entry ∈ documents, schemaCount entry.2.definitions = 0) :
    schemaCount (definitionsOf documents) = 0 := by
  induction documents with
  | nil => rfl
  | cons entry documents ih =>
    obtain ⟨hentry, hrest⟩ := List.forall_mem_cons.mp h
    rw [definitionsOf_cons, schemaCount_append, hentry, ih hrest]

theorem sublist_definitionsOf {documents : List (String × Document)} {entry : String × Document}
    (h : entry ∈ documents) : entry.2.definitions.Sublist (definitionsOf documents) :=
  List.sublist_flatten_of_mem (List.mem_map_of_mem h)

/-- The documents of a workspace have no errors if their definitions are faultless. -/
theorem hasErrors_verdicts_iff {documents : List (String × Document)} :
    (verdicts documents).any (·.2.hasErrors) = false ↔
      IsFaultless (definitionsOf documents) := by
  have hall : (verdicts documents).any (·.2.hasErrors) = false ↔
      ∀ r ∈ verdicts documents, r.2.hasErrors = false := by simp
  rw [hall, verdicts, hasErrors_resultsOf, repeated_eq_nil_iff]
  have hcontext : contextOf .workspace (documents.flatMap fun (_, d) => d.definitions) =
      ⟨.workspace, definedNames (definitionsOf documents), schemaCount (definitionsOf documents)⟩ := rfl
  simp only [hcontext, schemaErrors_eq_nil_iff, undefinedErrorsOf_eq_nil_iff]
  have honce_of {entry : String × Document} (h : (definedNames (definitionsOf documents)).Nodup)
      (hentry : entry ∈ documents) : (definedNames entry.2.definitions).Nodup :=
    h.sublist (((sublist_definitionsOf hentry).filterMap _).map _)
  constructor
  · rintro ⟨⟨honce, -⟩, hentries⟩
    refine ⟨honce, ?_, ?_, ?_⟩
    · by_contra hcount
      have hzero := schemaCount_definitionsOf_eq_zero fun entry hentry =>
        (hentries entry hentry).1 (by omega)
      omega
    · intro r hr
      obtain ⟨d, hd, hr⟩ := List.mem_flatMap.mp hr
      obtain ⟨entry, hentry, hd⟩ := List.mem_flatMap.mp hd
      exact (hentries entry hentry).2.1 r (List.mem_flatMap.mpr ⟨d, hd, hr⟩)
    · intro t ht hname
      obtain ⟨d, hd, ht⟩ := List.mem_filterMap.mp ht
      obtain ⟨entry, hentry, hd⟩ := List.mem_flatMap.mp hd
      exact (nodeErrors_eq_nil_iff (honce_of honce hentry)).mp (hentries entry hentry).2.2 t
        (List.mem_filterMap.mpr ⟨d, hd, ht⟩) hname
  · rintro ⟨honce, hschema, hknown, hnode⟩
    refine ⟨⟨honce, by simp⟩, fun entry hentry => ⟨fun hcount => by omega, fun r hr => ?_, ?_⟩⟩
    · obtain ⟨d, hd, hr⟩ := List.mem_flatMap.mp hr
      exact hknown r (List.mem_flatMap.mpr ⟨d, (sublist_definitionsOf hentry).subset hd, hr⟩)
    · exact (nodeErrors_eq_nil_iff (honce_of honce hentry)).mpr fun t ht =>
        hnode t (((sublist_definitionsOf hentry).filterMap _).subset ht)

/-! Warnings, and references to undefined types. -/

/-- The warnings of all documents. -/
def warningsOf (results : List (String × Result)) : List Warning :=
  results.flatMap (·.2.warnings)

def Error.isUndefinedType : Error → Bool
  | .undefinedType _ _ => true
  | _ => false

/-- The errors of a document that are references to undefined types. -/
def Result.undefined (r : Result) : List Error := r.errors.filter Error.isUndefinedType

/-- The references to undefined types in all documents. -/
def undefinedOf (results : List (String × Result)) : List Error :=
  results.flatMap (·.2.undefined)

/-- Two lists of conditions that no permutation of definitions tells apart select the same. -/
theorem filterMap_perm {α β : Type} {as bs : List α} (h : as.Perm bs) {f g : α → Option β}
    (hfg : ∀ a, f a = g a) : (as.filterMap f).Perm (bs.filterMap g) :=
  funext hfg ▸ h.filterMap f

theorem danglingWarnings_perm {d e : Document} (h : d.definitions.Perm e.definitions)
    {as bs : List String} (hdefined : as.Perm bs) :
    (danglingWarnings as d).Perm (danglingWarnings bs e) :=
  filterMap_perm h fun a => by cases a <;> simp only [hdefined.mem_iff]

theorem emptyWarnings_perm {d e : Document} (h : d.definitions.Perm e.definitions) :
    (emptyWarnings d).Perm (emptyWarnings e) :=
  h.filterMap _

theorem undefinedErrorsOf_perm {d e : Document} (h : d.definitions.Perm e.definitions)
    {as bs : List String} (hdefined : as.Perm bs) :
    (undefinedErrorsOf as d).Perm (undefinedErrorsOf bs e) :=
  filterMap_perm (h.flatMap_right referencesOf) fun r => by simp only [isKnown_perm hdefined]

theorem undefined_resultOf (c : Context) (seen : List String) (d : Document) :
    (resultOf c seen d).undefined = undefinedErrorsOf c.defined d := by
  have hrepeated : ((repeated seen (definedNames d.definitions)).map Error.duplicateType).filter
      Error.isUndefinedType = [] := by
    simp [List.filter_eq_nil_iff, Error.isUndefinedType]
  have hschema : (schemaErrors c.scope c.schemas d).filter Error.isUndefinedType = [] := by
    unfold schemaErrors
    split <;> rfl
  have hnode : (nodeErrors d).filter Error.isUndefinedType = [] := by
    unfold nodeErrors
    repeat' split
    all_goals rfl
  have hundefined : (undefinedErrorsOf c.defined d).filter Error.isUndefinedType =
      undefinedErrorsOf c.defined d := by
    refine List.filter_eq_self.mpr fun e he => ?_
    obtain ⟨r, -, hr⟩ := List.mem_filterMap.mp he
    grind [Error.isUndefinedType]
  simp only [Result.undefined, resultOf, List.filter_append, hrepeated, hschema, hnode, hundefined,
    List.nil_append, List.append_nil]

theorem warningsOf_resultsOf (c : Context) (seen : List String)
    (documents : List (String × Document)) :
    (warningsOf (resultsOf c seen documents)).Perm
      (danglingWarnings c.defined ⟨definitionsOf documents⟩ ++
        emptyWarnings ⟨definitionsOf documents⟩) := by
  induction documents generalizing seen with
  | nil => exact .nil
  | cons entry documents ih =>
    have hdangling : danglingWarnings c.defined ⟨definitionsOf (entry :: documents)⟩ =
        danglingWarnings c.defined entry.2 ++
          danglingWarnings c.defined ⟨definitionsOf documents⟩ := List.filterMap_append
    have hempty : emptyWarnings ⟨definitionsOf (entry :: documents)⟩ =
        emptyWarnings entry.2 ++ emptyWarnings ⟨definitionsOf documents⟩ := List.filterMap_append
    rw [hdangling, hempty]
    -- the dangling extensions of the rest come before the empty types of the first
    calc (danglingWarnings c.defined entry.2 ++ emptyWarnings entry.2) ++
          warningsOf (resultsOf c (seen ++ definedNames entry.2.definitions) documents)
      List.Perm _ ((danglingWarnings c.defined entry.2 ++ emptyWarnings entry.2) ++
          (danglingWarnings c.defined ⟨definitionsOf documents⟩ ++
            emptyWarnings ⟨definitionsOf documents⟩)) := (ih _).append_left _
      List.Perm _ _ := by
        simp only [List.append_assoc]
        exact (List.perm_append_comm_assoc _ _ _).append_left _

theorem undefinedOf_resultsOf (c : Context) (seen : List String)
    (documents : List (String × Document)) :
    undefinedOf (resultsOf c seen documents) =
      undefinedErrorsOf c.defined ⟨definitionsOf documents⟩ := by
  induction documents generalizing seen with
  | nil => rfl
  | cons entry documents ih =>
    have happend : undefinedErrorsOf c.defined ⟨definitionsOf (entry :: documents)⟩ =
        undefinedErrorsOf c.defined entry.2 ++ undefinedErrorsOf c.defined ⟨definitionsOf documents⟩ := by
      simp [undefinedErrorsOf, List.filterMap_append]
    rw [happend, ← ih, ← undefined_resultOf c seen]
    rfl

/-- What a workspace has to say is what the document of all its definitions has to say. -/
theorem verdicts_eq_verdict (documents : List (String × Document)) :
    (verdicts documents).any (·.2.hasErrors) =
        (verdict ⟨definitionsOf documents⟩).hasErrors ∧
      (warningsOf (verdicts documents)).Perm
        (verdict ⟨definitionsOf documents⟩).warnings ∧
      undefinedOf (verdicts documents) =
        (verdict ⟨definitionsOf documents⟩).undefined := by
  refine ⟨?_, warningsOf_resultsOf _ _ _, ?_⟩
  · rw [Bool.eq_iff_iff, ← not_iff_not, Bool.not_eq_true, Bool.not_eq_true,
      hasErrors_verdicts_iff, hasErrors_verdict_iff]
  · rw [verdict, undefined_resultOf]
    exact undefinedOf_resultsOf _ _ _

theorem verdict_perm {d e : Document} (h : d.definitions.Perm e.definitions) :
    (verdict d).hasErrors = (verdict e).hasErrors ∧
      (verdict d).warnings.Perm (verdict e).warnings ∧
      (verdict d).undefined.Perm (verdict e).undefined := by
  have hdefined := definedNames_perm h
  refine ⟨?_, (danglingWarnings_perm h hdefined).append (emptyWarnings_perm h), ?_⟩
  · rw [Bool.eq_iff_iff, ← not_iff_not, Bool.not_eq_true, Bool.not_eq_true,
      hasErrors_verdict_iff, hasErrors_verdict_iff]
    exact ⟨fun hd => hd.perm h, fun he => he.perm h.symm⟩
  · simp only [verdict, undefined_resultOf]
    exact undefinedErrorsOf_perm h hdefined

/-- The checks come to their end, and the verdict on a workspace does not depend on how its definitions
are ordered and divided into documents, nor do its warnings and its references to undefined types, but
for their order. -/
theorem validateWorkspace_perm {ds es : List (String × Document)}
    (h : (definitionsOf ds).Perm (definitionsOf es)) :
    ∃ rs ss r, validateWorkspace ds = .ok rs ∧ validateWorkspace es = .ok ss ∧
      validate ⟨definitionsOf ds⟩ = .ok r ∧
      (rs.any (·.2.hasErrors) = ss.any (·.2.hasErrors) ∧ rs.any (·.2.hasErrors) = r.hasErrors) ∧
      ((warningsOf rs).Perm (warningsOf ss) ∧ (warningsOf rs).Perm r.warnings) ∧
      (undefinedOf rs).Perm (undefinedOf ss) ∧ (undefinedOf rs).Perm r.undefined := by
  obtain ⟨herrors, hwarnings, hundefined⟩ := verdicts_eq_verdict ds
  obtain ⟨herrors', hwarnings', hundefined'⟩ := verdicts_eq_verdict es
  obtain ⟨perrors, pwarnings, pundefined⟩ :=
    @verdict_perm ⟨definitionsOf ds⟩ ⟨definitionsOf es⟩ h
  refine ⟨_, _, _, validateWorkspace_eq ds, validateWorkspace_eq es, validate_eq _, ⟨?_, herrors⟩,
    ⟨?_, hwarnings⟩, ?_, hundefined ▸ .rfl⟩
  · rw [herrors, herrors', perrors]
  · exact hwarnings.trans (pwarnings.trans hwarnings'.symm)
  · rw [hundefined, hundefined']
    exact pundefined

/-- Two definitions of `Node`, one of them without fields, and an extension of an undefined type. -/
def nodes : List Definition :=
  [.type ⟨none, "Node", [], .fields .interface [] []⟩,
    .type ⟨none, "Node", [], .fields .interface [] [⟨none, "id", [], nodeFieldType, []⟩]⟩,
    .typeExtension ⟨"Missing", .unionMembers [] ["Node", "Absent"]⟩]

theorem validateWorkspace_nodes :
    (definitionsOf [("a", ⟨nodes.take 1⟩), ("b", ⟨nodes.drop 1⟩)]).Perm
        (definitionsOf [("c", ⟨nodes.reverse⟩)]) ∧
      ∃ rs ss, validateWorkspace [("a", ⟨nodes.take 1⟩), ("b", ⟨nodes.drop 1⟩)] = .ok rs ∧
        validateWorkspace [("c", ⟨nodes.reverse⟩)] = .ok ss ∧
        rs.any (·.2.hasErrors) = ss.any (·.2.hasErrors) := by
  have h : (definitionsOf [("a", ⟨nodes.take 1⟩), ("b", ⟨nodes.drop 1⟩)]).Perm
      (definitionsOf [("c", ⟨nodes.reverse⟩)]) := nodes.reverse_perm.symm
  obtain ⟨rs, ss, _, hrs, hss, _, hsame, _⟩ := validateWorkspace_perm h
  exact ⟨h, rs, ss, hrs, hss, hsame.1⟩

end GraphQLDoc.Validation
