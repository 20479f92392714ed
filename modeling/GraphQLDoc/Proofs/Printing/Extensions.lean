import GraphQLDoc.Proofs.Printing.TypeSystem

/-!
Extensions that are printed are read back. The variant of an extension is the one that the last of
its clauses stands for, and the walks also look for the clauses behind that one.
-/
namespace GraphQLDoc

/-- A schema extension with the words of its root types as they are given. -/
def Printing.extendSchema (ds : List Directive) (roots : List Word) : List Word :=
  Keyword.extend.spelled :: Keyword.schema.spelled :: (directives ds ++
    Punctuator.braceLeft.spelled :: (roots ++ [Punctuator.braceRight.spelled]))

namespace Conversion

variable [Machine]

/-- A schema extension, given how its root types stand. -/
theorem readsBack_extendSchema {ds : List Directive} {ws : List Word} {roots : RootTypes}
    (h : ds.all (·.isValid) = true) (h' : ds.all (·.isPrintable) = true)
    (hroots : (Clause.oneOrMore .rootOperationTypes).ReadsBack rootTypes ws (· = roots))
    (hne : roots.isEmpty = false) :
    Rule.schemaExtension.ReadsBack schemaExtension (Printing.extendSchema ds ws)
      (· = .withRoots ds roots) := by
  have hclauses : ReadsBack [.word .extend, .word .schema, .optionalUse .directives,
      .mark .braceLeft, .oneOrMore .rootOperationTypes, .mark .braceRight] (do
        let directives ← directives
        let roots ← rootTypes
        return (directives, roots)) (Printing.extendSchema ds ws) (· = (ds, roots)) := by
    refine .word (.word (.cons (by decide) (readsBack_directives h h') fun ds' hd => .mark
      (.cons (by decide) hroots fun r hr => .mark (.nil ?_))))
    rw [hd, hr]
  refine (hclauses.node (r := .schemaExtension) List.mem_cons_self rfl rfl fun _ _ => rfl).bind
    fun t p hp => ⟨.withRoots ds roots, rfl, ?_⟩
  rw [hp]
  dsimp only
  rw [hne]
  rfl

theorem readsBack_schemaExtension {e : SchemaExtension} (h : e.isValid = true)
    (h' : e.isPrintable = true) :
    Rule.schemaExtension.ReadsBack schemaExtension (Printing.schemaExtension e) (· = e) := by
  cases e with
  | withRoots ds roots =>
    simp only [SchemaExtension.isValid, Bool.and_eq_true, Bool.not_eq_true'] at h
    obtain ⟨⟨hds, hne⟩, hroots⟩ := h
    rw [Printing.schemaExtension, rootTypes_eq hne]
    exact readsBack_extendSchema hds h' (readsBack_rootTypes hroots hne) hne
  | withDirectives ds =>
    simp only [SchemaExtension.isValid, Bool.and_eq_true, Bool.not_eq_true'] at h
    have hne : ds ≠ [] := List.isEmpty_eq_false_iff.mp h.1
    have hnone : rootTypes.Runs (fun _ => False) (Clause.oneOrMore .rootOperationTypes).tags []
        (· = RootTypes.none) :=
      (Walk.runs_repeated (List.forall_mem_nil _)).andThen fun us c hus => .lift (hus ▸ rfl)
    have hclauses : ReadsBack [.word .extend, .word .schema, .use .directives] (do
          let directives ← directives
          let roots ← rootTypes
          return (directives, roots))
        (Printing.schemaExtension (.withDirectives ds)) (· = (ds, .none)) := by
      refine .word (.word (.final (readsBack_use_directives hne h.2 h') fun ds' hd =>
        .beyond (c := .oneOrMore .rootOperationTypes) hnone (List.forall_mem_nil _) (.nil ?_)))
      rw [hd]
    refine (hclauses.node (r := .schemaExtension) (List.mem_cons_of_mem _ List.mem_cons_self) rfl
      rfl fun _ _ => rfl).bind fun t p hp => ⟨.withDirectives ds, rfl, ?_⟩
    rw [hp]
    dsimp only
    rw [h.1]
    rfl

omit [Machine] in
/-- A type extension, given what stands behind its name. -/
theorem readsBack_typeExtension {α : Type} {r : Rule} {k : Keyword} {cs : List Clause}
    {ws : List Word} {clauses : Walk α} {f : α → Option ExtensionBody} {found : α}
    {e : TypeExtension} (hn : isValidName e.name = true) (h : ReadsBack cs clauses ws (· = found))
    (hchoose : f found = some e.body)
    (hr : [.word .extend, .word k, .use .name] ++ cs ∈ r.alternatives)
    (hinlined : r.inlined = false) (hwords : r.keepsWords = false)
    (hd : ∀ s ∈ cs.flatMap Clause.tags, s ∉ (Clause.use .name).tags)
    (hlong : ∀ body ∈ Clause.expand ([.word .extend, .word k, .use .name] ++ cs),
      Automaton.isShorthand ⟨.rule r, body⟩ = false) :
    r.ReadsBack (typeExtension r.tag clauses f)
      (Keyword.extend.spelled :: k.spelled :: Printing.name e.name :: ws) (· = e) := by
  have hclauses : ReadsBack ([.word .extend, .word k, .use .name] ++ cs) (do
      let name ← Walk.name
      let found ← clauses
      return (name, found))
      (Keyword.extend.spelled :: k.spelled :: Printing.name e.name :: ws)
      (· = (e.name, found)) := by
    refine .word (.word (.cons hd (readsBack_name hn) fun n hn => h.map fun y hy => ?_))
    rw [hn, hy]
  refine (hclauses.node hr hinlined hwords hlong).bind fun t p hp => ⟨e, rfl, ?_⟩
  subst hp
  dsimp only
  rw [hchoose]
  exact checked_eq_ok (by simpa using hn)

omit [Machine] in
theorem onlyDirectives_eq {withDirectives : List Directive → ExtensionBody} {ds : List Directive}
    (hne : ds ≠ []) : onlyDirectives withDirectives ds = some (withDirectives ds) := by
  cases ds with
  | nil => exact absurd rfl hne
  | cons d ds => rfl

omit [Machine] in
theorem itemsOrDirectives_eq {α : Type} {withItems : List Directive → List α → ExtensionBody}
    {withDirectives : List Directive → ExtensionBody} {ds : List Directive} {xs : List α}
    (hne : xs ≠ []) :
    itemsOrDirectives withItems withDirectives (ds, xs) = some (withItems ds xs) := by
  cases xs with
  | nil => exact absurd rfl hne
  | cons x xs => rfl

omit [Machine] in
theorem itemsOrDirectives_nil {α : Type} {withItems : List Directive → List α → ExtensionBody}
    {withDirectives : List Directive → ExtensionBody} {ds : List Directive} (hne : ds ≠ []) :
    itemsOrDirectives withItems withDirectives (ds, []) = some (withDirectives ds) :=
  onlyDirectives_eq hne

omit [Machine] in
/-- A walk for a list finds no node of its rule. -/
theorem runs_clause_absent {α : Type} {rule item : String} {convert : ParseTree → Converted α} :
    (Walk.clause rule item convert).Runs (fun _ => False) [rule] [] (· = []) :=
  Walk.runs_clause (o := none) (fun _ => rfl) nofun

section

variable {owner : FieldOwner} {ns : List String} {ds : List Directive} {fs : List FieldDefinition}

omit [Machine] in
theorem body_withFields (hne : fs ≠ []) :
    FieldsClauses.body owner ⟨ns, ds, fs⟩ = some (.fields owner ns ds fs) := by
  simp [FieldsClauses.body, hne]

omit [Machine] in
theorem body_withoutFields (hne : ds ≠ []) :
    FieldsClauses.body owner ⟨ns, ds, []⟩ = some (.fieldsDirectives owner ns ds) := by
  simp [FieldsClauses.body, hne]

omit [Machine] in
theorem body_onlyInterfaces (hne : ns ≠ []) :
    FieldsClauses.body owner ⟨ns, [], []⟩ = some (.fieldsInterfaces owner ns) := by
  simp [FieldsClauses.body, hne]

theorem readsBack_withFields (hns : ns.all isValidName = true) (hds : ds.all (·.isValid) = true)
    (hds' : ds.all (·.isPrintable) = true) (hne : fs ≠ []) (hfs : fs.all (·.isValid) = true)
    (hfs' : fs.all (·.isPrintable) = true) :
    ReadsBack [.optionalUse .implementsInterfaces, .optionalUse .directives, .use .fieldsDefinition]
      fieldsClauses (Printing.extensionBody (.fields owner ns ds fs)) (· = ⟨ns, ds, fs⟩) := by
  refine .cons (by decide) (readsBack_interfaces hns) fun ns' hn =>
    .cons (by decide) (readsBack_directives hds hds') fun ds' hd =>
    (ReadsBack.single (readsBack_use_fields hne hfs hfs')).map fun fs' hf => ?_
  rw [hn, hd, hf]

theorem readsBack_withoutFields (hns : ns.all isValidName = true) (hne : ds ≠ [])
    (hds : ds.all (·.isValid) = true) (hds' : ds.all (·.isPrintable) = true) :
    ReadsBack [.optionalUse .implementsInterfaces, .use .directives] fieldsClauses
      (Printing.extensionBody (.fieldsDirectives owner ns ds)) (· = ⟨ns, ds, []⟩) := by
  refine .cons (by decide) (readsBack_interfaces hns) fun ns' hn =>
    .final (readsBack_use_directives hne hds hds') fun ds' hd =>
    .beyond (c := .use .fieldsDefinition) runs_clause_absent nofun (.nil ?_)
  rw [hn, hd]

theorem readsBack_onlyInterfaces (hne : ns ≠ []) (hns : ns.all isValidName = true) :
    ReadsBack [.use .implementsInterfaces] fieldsClauses
      (Printing.extensionBody (.fieldsInterfaces owner ns)) (· = ⟨ns, [], []⟩) := by
  refine .final (readsBack_use_interfaces hne hns) fun ns' hn =>
    .beyond (c := .use .directives) runs_clause_absent nofun
    (.beyond (c := .use .fieldsDefinition) runs_clause_absent nofun (.nil ?_))
  rw [hn]

end

section

variable {α : Type} {i : Rule} {a : Walk (List α)} {ds : List Directive} {xs : List α}
  {ws : List Word} (hds : ds.all (·.isValid) = true) (hds' : ds.all (·.isPrintable) = true)

include hds hds'

theorem readsBack_directivesAnd (h : (Clause.use i).ReadsBack a ws (· = xs))
    (hd : ∀ s ∈ ([.use i] : List Clause).flatMap Clause.tags,
      s ∉ (Clause.optionalUse .directives).tags) :
    ReadsBack [.optionalUse .directives, .use i] (directivesAnd a)
      (Printing.directives ds ++ ws) (· = (ds, xs)) := by
  refine .cons hd (readsBack_directives hds hds') fun ds' hd =>
    (ReadsBack.single h).map fun xs' hx => ?_
  rw [hd, hx]

theorem readsBack_directivesAlone (hne : ds ≠ [])
    (h : a.Runs (fun _ => False) (Clause.use i).tags [] (· = [])) :
    ReadsBack [.use .directives] (directivesAnd a) (Printing.directives ds) (· = (ds, [])) := by
  refine .final (readsBack_use_directives hne hds hds') fun ds' hd =>
    .beyond h nofun (.nil ?_)
  rw [hd]

end

end Conversion

end GraphQLDoc
