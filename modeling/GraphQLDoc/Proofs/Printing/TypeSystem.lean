import GraphQLDoc.Proofs.Conversion.TypeSystem
import GraphQLDoc.Proofs.Printing.Executable

/-!
Type system definitions and extensions that are printed are read back.
-/
namespace GraphQLDoc.Conversion

variable [Machine]

/-! Descriptions. -/

/-- The text of the tree of a description. -/
def descriptionText (t : ParseTree) : Converted JsonString := do
  let token ← t.whole "description" (Walk.next stringTags)
  let (text, _) ← string token
  return .text text

omit [Machine] in
theorem description_eq : description = (do
    match ← Walk.optional "description" with
    | none => return none
    | some t =>
      let text ← Walk.lift (descriptionText t)
      return some text) := by
  unfold description
  congr! with o t
  funext c
  show (Walk.lift _ c).bind _ = (Walk.lift _ c).bind _
  unfold descriptionText
  cases t.whole "description" (Walk.next stringTags) with
  | error e => rfl
  | ok token =>
    show (Walk.lift (string token) c).bind _ = (Walk.lift ((string token).bind _) c).bind _
    cases string token <;> rfl

omit [Machine] in
theorem readsBack_description {o : Option JsonString} (h : o.all (·.isText) = true) :
    (Clause.optionalUse .description).ReadsBack description (Printing.description o) (· = o) := by
  rw [description_eq]
  refine .node? (r := .description) rfl fun text htext => ?_
  obtain ⟨s, rfl⟩ := JsonString.isText_iff.mp ((Option.all_eq_true _ _).mp h text htext)
  have hnode := (ReadsBack.single (readsBack_stringToken s)).node (r := .description)
    List.mem_cons_self rfl rfl fun _ _ => rfl
  have htext := hnode.bind (Q := (· = JsonString.text s)) (k := fun _ token => do
    let (text, _) ← string token
    return .text text) fun _ u hu => ⟨s, rfl, by rw [hu]; rfl⟩
  exact htext

/-! Lists of type names. -/

omit [Machine] in
theorem readsBack_use_interfaces {ns : List String} (hne : ns ≠ [])
    (h : ns.all isValidName = true) :
    (Clause.use .implementsInterfaces).ReadsBack interfaces (Printing.interfaces ns) (· = ns) := by
  have hitems : ∀ n ∈ ns, Rule.namedType.ReadsBack namedType [Printing.name n] (· = n) :=
    fun n hn => readsBack_namedType (List.all_eq_true.mp h n hn)
  have hlists := Lists.behind (l := .interfaces) (p := .ampersand)
    (IsSpelling.keyword .implements) rfl rfl hne hitems
  exact .list (r := .implementsInterfaces) (s := .namedType) hlists List.mem_cons_self rfl rfl rfl
    fun _ _ => rfl

omit [Machine] in
theorem readsBack_interfaces {ns : List String} (h : ns.all isValidName = true) :
    (Clause.optionalUse .implementsInterfaces).ReadsBack interfaces (Printing.interfaces ns)
      (· = ns) :=
  .list? (r := .implementsInterfaces) (s := .namedType) (f := Printing.interfaces) rfl
    (fun hne => readsBack_use_interfaces hne h) rfl

omit [Machine] in
theorem readsBack_use_unionMembers {ns : List String} (hne : ns ≠ [])
    (h : ns.all isValidName = true) :
    (Clause.use .unionMemberTypes).ReadsBack unionMembers (Printing.unionMembers ns) (· = ns) := by
  have hitems : ∀ n ∈ ns, Rule.namedType.ReadsBack namedType [Printing.name n] (· = n) :=
    fun n hn => readsBack_namedType (List.all_eq_true.mp h n hn)
  have hlists := Lists.behind (l := .unionMembers) (p := .pipe)
    (IsSpelling.punctuator .equals) rfl rfl hne hitems
  exact .list (r := .unionMemberTypes) (s := .namedType) hlists List.mem_cons_self rfl rfl rfl fun _ _ => rfl

omit [Machine] in
theorem readsBack_unionMembers {ns : List String} (h : ns.all isValidName = true) :
    (Clause.optionalUse .unionMemberTypes).ReadsBack unionMembers (Printing.unionMembers ns)
      (· = ns) :=
  .list? (r := .unionMemberTypes) (s := .namedType) (f := Printing.unionMembers) rfl
    (fun hne => readsBack_use_unionMembers hne h) rfl

/-! Fields, input values and enum values. -/

theorem readsBack_inputValueDefinition {v : InputValueDefinition} (h : v.isValid = true)
    (h' : v.isPrintable = true) :
    Rule.inputValueDefinition.ReadsBack inputValueDefinition (Printing.inputValueDefinition v)
      (· = v) := by
  simp only [InputValueDefinition.isValid, Bool.and_eq_true] at h
  simp only [InputValueDefinition.isPrintable, Bool.and_eq_true] at h'
  obtain ⟨⟨⟨hn, htype⟩, hvalue⟩, hds⟩ := h
  refine ReadsBack.checkedNode (r := .inputValueDefinition)
    (.cons (by decide) (readsBack_description h'.1.1) fun d hd =>
      .cons (by decide) (readsBack_name hn) fun n hn => .mark
      (.cons (by decide) (readsBack_type htype) fun r hr =>
      .cons (by decide) (readsBack_defaultValue hvalue h'.1.2) fun x hx =>
      .cons (by decide) (readsBack_directives hds h'.2) fun ds hds => .nil ?_))
    (by simp [Printing.inputValueDefinition]) List.mem_cons_self rfl rfl (by simpa using hn)
    fun _ _ => rfl
  rw [hd, hn, hr, hx, hds]

theorem readsBack_argumentsDefinition {vs : List InputValueDefinition}
    (h : vs.all (·.isValid) = true) (h' : vs.all (·.isPrintable) = true) :
    (Clause.optionalUse .argumentsDefinition).ReadsBack argumentsDefinition
      (Printing.argumentsDefinition vs) (· = vs) := by
  have hitems := readsBack_all readsBack_inputValueDefinition h h'
  exact .block? (r := .argumentsDefinition) (l := .inputValues) hitems List.mem_cons_self
    rfl rfl rfl rfl fun _ _ => rfl

theorem readsBack_fieldDefinition {f : FieldDefinition} (h : f.isValid = true)
    (h' : f.isPrintable = true) :
    Rule.fieldDefinition.ReadsBack fieldDefinition (Printing.fieldDefinition f) (· = f) := by
  simp only [FieldDefinition.isValid, Bool.and_eq_true] at h
  simp only [FieldDefinition.isPrintable, Bool.and_eq_true] at h'
  obtain ⟨⟨⟨hn, hvs⟩, htype⟩, hds⟩ := h
  refine ReadsBack.checkedNode (r := .fieldDefinition)
    (.cons (by decide) (readsBack_description h'.1.1) fun d hd =>
      .cons (by decide) (readsBack_name hn) fun n hn =>
      .cons (by decide) (readsBack_argumentsDefinition hvs h'.1.2) fun vs hvs => .mark
      (.cons (by decide) (readsBack_type htype) fun r hr =>
      .cons (by decide) (readsBack_directives hds h'.2) fun ds hds => .nil ?_))
    (by simp [Printing.fieldDefinition]) List.mem_cons_self rfl rfl (by simpa using hn)
    fun _ _ => rfl
  rw [hd, hn, hvs, hr, hds]

theorem readsBack_enumValueDefinition {v : EnumValueDefinition} (h : v.isValid = true)
    (h' : v.isPrintable = true) :
    Rule.enumValueDefinition.ReadsBack enumValueDefinition (Printing.enumValueDefinition v)
      (· = v) := by
  simp only [EnumValueDefinition.isValid, Bool.and_eq_true] at h
  simp only [EnumValueDefinition.isPrintable, Bool.and_eq_true, decide_eq_true_eq] at h'
  have hname := readsBack_nameNode (r := .name) rfl rfl rfl h.1 (List.forall_mem_nil _)
  refine (ReadsBack.node (r := .enumValueDefinition) (P := (·.1 = v)) (.cons (by decide)
    (readsBack_description h'.1.1) fun d hd => .next (by decide) hname fun p hp =>
      .final (readsBack_directives h.2 h'.2) fun ds hds => .nil ?_)
    List.mem_cons_self rfl rfl fun _ _ => rfl).bind (Q := (· = v)) ?_
  · dsimp only
    rw [hd, hp, hds]
  · rintro t ⟨v, span⟩ rfl
    refine ⟨v, rfl, ?_⟩
    dsimp only
    rw [if_neg h'.1.2]
    exact checked_eq_ok (by simpa using h.1)

theorem readsBack_use_fields {fs : List FieldDefinition} (hne : fs ≠ [])
    (h : fs.all (·.isValid) = true) (h' : fs.all (·.isPrintable) = true) :
    (Clause.use .fieldsDefinition).ReadsBack fields (Printing.fields fs) (· = fs) := by
  have hitems := readsBack_all readsBack_fieldDefinition h h'
  exact .block (r := .fieldsDefinition) (l := .fields) hne hitems List.mem_cons_self rfl rfl rfl rfl
    fun _ _ => rfl

theorem readsBack_fields {fs : List FieldDefinition} (h : fs.all (·.isValid) = true)
    (h' : fs.all (·.isPrintable) = true) :
    (Clause.optionalUse .fieldsDefinition).ReadsBack fields (Printing.fields fs) (· = fs) := by
  have hitems := readsBack_all readsBack_fieldDefinition h h'
  exact .block? (r := .fieldsDefinition) (l := .fields) hitems List.mem_cons_self rfl rfl rfl rfl
    fun _ _ => rfl

theorem readsBack_use_inputFields {fs : List InputValueDefinition} (hne : fs ≠ [])
    (h : fs.all (·.isValid) = true) (h' : fs.all (·.isPrintable) = true) :
    (Clause.use .inputFieldsDefinition).ReadsBack inputFields (Printing.inputFields fs)
      (· = fs) := by
  have hitems := readsBack_all readsBack_inputValueDefinition h h'
  exact .block (r := .inputFieldsDefinition) (l := .inputValues) hne hitems List.mem_cons_self
    rfl rfl rfl rfl fun _ _ => rfl

theorem readsBack_inputFields {fs : List InputValueDefinition} (h : fs.all (·.isValid) = true)
    (h' : fs.all (·.isPrintable) = true) :
    (Clause.optionalUse .inputFieldsDefinition).ReadsBack inputFields (Printing.inputFields fs)
      (· = fs) := by
  have hitems := readsBack_all readsBack_inputValueDefinition h h'
  exact .block? (r := .inputFieldsDefinition) (l := .inputValues) hitems List.mem_cons_self
    rfl rfl rfl rfl fun _ _ => rfl

theorem readsBack_use_enumValues {vs : List EnumValueDefinition} (hne : vs ≠ [])
    (h : vs.all (·.isValid) = true) (h' : vs.all (·.isPrintable) = true) :
    (Clause.use .enumValuesDefinition).ReadsBack enumValues (Printing.enumValues vs) (· = vs) := by
  have hitems := readsBack_all readsBack_enumValueDefinition h h'
  exact .block (r := .enumValuesDefinition) (l := .enumValues) hne hitems List.mem_cons_self
    rfl rfl rfl rfl fun _ _ => rfl

theorem readsBack_enumValues {vs : List EnumValueDefinition} (h : vs.all (·.isValid) = true)
    (h' : vs.all (·.isPrintable) = true) :
    (Clause.optionalUse .enumValuesDefinition).ReadsBack enumValues (Printing.enumValues vs)
      (· = vs) := by
  have hitems := readsBack_all readsBack_enumValueDefinition h h'
  exact .block? (r := .enumValuesDefinition) (l := .enumValues) hitems List.mem_cons_self
    rfl rfl rfl rfl fun _ _ => rfl

/-! Root types. -/

omit [Machine] in
theorem readsBack_rootEntry {o : OperationType} {n : String} (hn : isValidName n = true) :
    Rule.rootOperationTypeDefinition.ReadsBack rootEntry (Printing.rootEntry (o, n))
      (· = (o, n)) := by
  have hclauses : ReadsBack [.use .operationType, .mark .colon, .use .namedType] (do
      let typeTree ← Walk.next ["operation_type"]
      let o ← Walk.lift (operationType typeTree)
      let nameTree ← Walk.next ["named_type"]
      let name ← Walk.lift (namedType nameTree)
      return (o, name)) (Printing.rootEntry (o, n)) (· = (o, n)) := by
    refine (ReadsBack.next (by decide) (readsBack_operationType o) fun p hp => .mark
      (.next (by decide) (readsBack_namedType hn) fun m hm => .nil ?_)).of_eq rfl
    rw [hp, hm]
  exact hclauses.node (r := .rootOperationTypeDefinition) List.mem_cons_self rfl rfl fun _ _ => rfl

omit [Machine] in
theorem get_set (r : RootTypes) (n : String) (o o' : OperationType) :
    (r.set n o).get o' = if o = o' then some n else r.get o' := by
  cases o <;> cases o' <;> rfl

omit [Machine] in
/-- Entries for operations that have no root type yet are added one by one. -/
theorem addRoots_eq_ok {ts : List ParseTree} {es : List (OperationType × String)}
    (h : Converts .rootOperationTypeDefinition rootEntry ts es) {roots : RootTypes}
    (hfresh : ∀ e ∈ es, roots.get e.1 = none) (hnodup : (es.map (·.1)).Nodup) :
    ts.foldlM addRoot roots = .ok (es.foldl (fun r e => r.set e.2 e.1) roots) := by
  induction h generalizing roots with
  | nil => rfl
  | @cons t e ts es h _ ih =>
    obtain ⟨hnone, hrest⟩ := List.forall_mem_cons.mp hfresh
    rw [List.map_cons, List.nodup_cons] at hnodup
    have hadd : addRoot roots t = .ok (roots.set e.2 e.1) := by
      simp only [addRoot, h.2, bind, Except.bind, hnone]
      rfl
    rw [List.foldlM_cons, hadd]
    refine ih (fun e' he' => ?_) hnodup.2
    have hother : e.1 ≠ e'.1 := fun heq => hnodup.1 (heq ▸ List.mem_map_of_mem he')
    rw [get_set, if_neg hother]
    exact hrest e' he'

omit [Machine] in
theorem foldl_entries (r : RootTypes) :
    r.entries.foldl (fun r e => r.set e.2 e.1) RootTypes.none = r := by
  obtain ⟨query, mutation, subscription⟩ := r
  cases query <;> cases mutation <;> cases subscription <;> rfl

omit [Machine] in
theorem nodup_entries (r : RootTypes) : (r.entries.map (·.1)).Nodup := by
  obtain ⟨query, mutation, subscription⟩ := r
  cases query <;> cases mutation <;> cases subscription <;>
    simp [RootTypes.entries, OperationType.all, RootTypes.get]

omit [Machine] in
theorem get_of_mem_entries {r : RootTypes} {e : OperationType × String} (h : e ∈ r.entries) :
    r.get e.1 = some e.2 := by
  obtain ⟨o, -, ho⟩ := List.mem_filterMap.mp h
  obtain ⟨n, hn, rfl⟩ := Option.map_eq_some_iff.mp ho
  exact hn

omit [Machine] in
theorem isValidName_of_mem_entries {r : RootTypes} (h : r.isValid = true)
    {e : OperationType × String} (he : e ∈ r.entries) : isValidName e.2 = true := by
  have hget := get_of_mem_entries he
  simp only [RootTypes.isValid, Bool.and_eq_true] at h
  obtain ⟨⟨hquery, hmutation⟩, hsubscription⟩ := h
  cases ho : e.1 <;> rw [ho] at hget
  · exact (Option.all_eq_true _ _).mp hquery _ hget
  · exact (Option.all_eq_true _ _).mp hmutation _ hget
  · exact (Option.all_eq_true _ _).mp hsubscription _ hget

omit [Machine] in
theorem entries_ne_nil {r : RootTypes} (h : r.isEmpty = false) : r.entries ≠ [] := by
  intro hnil
  have hnone := foldl_entries r
  rw [hnil] at hnone
  subst hnone
  exact absurd h (by decide)

omit [Machine] in
/-- Root types are read back in whatever order their operations stand. -/
theorem readsBack_rootEntries {es : List (OperationType × String)}
    (hnames : ∀ e ∈ es, isValidName e.2 = true) (hne : es ≠ []) (hnodup : (es.map (·.1)).Nodup) :
    (Clause.oneOrMore .rootOperationTypes).ReadsBack rootTypes (es.flatMap Printing.rootEntry)
      (· = es.foldl (fun r e => r.set e.2 e.1) .none) := by
  have hitems : ∀ e ∈ es, Rule.rootOperationTypeDefinition.ReadsBack rootEntry
      (Printing.rootEntry e) (· = e) :=
    fun e he => readsBack_rootEntry (hnames e he)
  have hlists := Lists.oneOrMore (l := .rootOperationTypes) rfl hne hitems
  refine ⟨hlists.spelled, fun w hw => ?_⟩
  obtain ⟨ts, hsequence, hconverts⟩ := hlists.reads w hw
  refine ⟨ts, _, rfl, Sequence.one_iff.mp hsequence,
    (Walk.runs_repeated hconverts.tagged).andThen fun us c hus => .lift ?_⟩
  rw [hus, addRoots_eq_ok hconverts (fun e _ => by cases e.1 <;> rfl) hnodup]
  rfl

omit [Machine] in
theorem readsBack_rootTypes {r : RootTypes} (h : r.isValid = true) (hne : r.isEmpty = false) :
    (Clause.oneOrMore .rootOperationTypes).ReadsBack rootTypes (r.entries.flatMap Printing.rootEntry)
      (· = r) := by
  have hentries := readsBack_rootEntries (fun e he => isValidName_of_mem_entries h he)
    (entries_ne_nil hne) (nodup_entries r)
  rwa [foldl_entries] at hentries

omit [Machine] in
theorem rootTypes_eq {r : RootTypes} (h : r.isEmpty = false) :
    Printing.rootTypes r = Punctuator.braceLeft.spelled ::
      (r.entries.flatMap Printing.rootEntry ++ [Punctuator.braceRight.spelled]) := by
  unfold Printing.rootTypes
  cases hentries : r.entries with
  | nil => exact absurd hentries (entries_ne_nil h)
  | cons e es => rfl

theorem readsBack_schemaDefinition {s : SchemaDefinition} (h : s.isValid = true)
    (h' : s.isPrintable = true) :
    Rule.schemaDefinition.ReadsBack schemaDefinition (Printing.schemaDefinition s) (· = s) := by
  simp only [SchemaDefinition.isValid, Bool.and_eq_true] at h
  simp only [SchemaDefinition.isPrintable, Bool.and_eq_true, Bool.not_eq_true'] at h'
  have hclauses : ReadsBack [.optionalUse .description, .word .schema, .optionalUse .directives,
      .mark .braceLeft, .oneOrMore .rootOperationTypes, .mark .braceRight] (do
        let description ← description
        let directives ← directives
        let roots ← rootTypes
        return SchemaDefinition.mk description directives roots)
      (Printing.schemaDefinition s) (· = s) := by
    rw [Printing.schemaDefinition, rootTypes_eq h'.2]
    refine .cons (by decide) (readsBack_description h'.1.1) fun d hd => .word
      (.cons (by decide) (readsBack_directives h.1 h'.1.2) fun ds hds => .mark
      (.cons (by decide) (readsBack_rootTypes h.2 h'.2) fun r hr => .mark (.nil ?_)))
    rw [hd, hds, hr]
  exact hclauses.node (r := .schemaDefinition) List.mem_cons_self rfl rfl fun _ _ => rfl

/-! Type definitions. -/

omit [Machine] in
/-- A type definition, given what stands behind its name. -/
theorem readsBack_typeDefinition {r : Rule} {k : Keyword} {cs : List Clause} {ws : List Word}
    {body : Walk (List Directive × TypeBody)} {d : TypeDefinition} (hn : isValidName d.name = true)
    (htext : d.description.all (·.isText) = true) (hbody : ReadsBack cs body ws (· = (d.directives, d.body)))
    (hr : r.alternatives = [[.optionalUse .description, .word k, .use .name] ++ cs])
    (hinlined : r.inlined = false) (hwords : r.keepsWords = false)
    (hd : ∀ s ∈ cs.flatMap Clause.tags, s ∉ ["description", "name"])
    (hlong : ∀ body ∈ Clause.expand ([.optionalUse .description, .word k, .use .name] ++ cs),
      Automaton.isShorthand ⟨.rule r, body⟩ = false) :
    r.ReadsBack (typeDefinition r.tag body)
      (Printing.description d.description ++ k.spelled :: Printing.name d.name :: ws) (· = d) := by
  have hname : ∀ s ∈ cs.flatMap Clause.tags, s ∉ (Clause.use .name).tags := fun s hs h =>
    hd s hs (List.mem_cons_of_mem _ h)
  have hdescription : ∀ s ∈ (.word k :: .use .name :: cs).flatMap Clause.tags,
      s ∉ (Clause.optionalUse .description).tags := by
    intro s hs h
    obtain rfl := List.mem_singleton.mp h
    rcases List.mem_cons.mp (show "description" ∈ "name" :: cs.flatMap Clause.tags from hs) with hs | hs
    · exact absurd hs (by decide)
    · exact hd _ hs List.mem_cons_self
  refine ReadsBack.checkedNode (.cons hdescription (readsBack_description htext)
    fun description hdescription => .word (.cons hname (readsBack_name hn) fun n hn =>
      hbody.map fun b hb => ?_))
    rfl (hr ▸ List.mem_cons_self) hinlined hwords (by simpa using hn) hlong
  rw [hb, hdescription, hn]

section

variable {ds : List Directive} (hds : ds.all (·.isValid) = true) (hds' : ds.all (·.isPrintable) = true)

include hds hds'

theorem readsBack_scalarBody : ReadsBack [.optionalUse .directives] scalarBody
    (Printing.typeBody ds .scalar) (· = (ds, .scalar)) := by
  refine (ReadsBack.single (readsBack_directives hds hds')).map fun es hes => ?_
  rw [hes]

theorem readsBack_fieldsBody (owner : FieldOwner) {ns : List String} {fs : List FieldDefinition}
    (hns : ns.all isValidName = true) (hfs : fs.all (·.isValid) = true)
    (hfs' : fs.all (·.isPrintable) = true) :
    ReadsBack [.optionalUse .implementsInterfaces, .optionalUse .directives,
      .optionalUse .fieldsDefinition] (fieldsBody owner)
      (Printing.typeBody ds (.fields owner ns fs)) (· = (ds, .fields owner ns fs)) := by
  refine .cons (by decide) (readsBack_interfaces hns) fun ns' hn =>
    .cons (by decide) (readsBack_directives hds hds') fun ds' hd =>
    (ReadsBack.single (readsBack_fields hfs hfs')).map fun fs' hf => ?_
  rw [hn, hd, hf]

theorem readsBack_unionBody {ns : List String} (hns : ns.all isValidName = true) :
    ReadsBack [.optionalUse .directives, .optionalUse .unionMemberTypes] unionBody
      (Printing.typeBody ds (.union ns)) (· = (ds, .union ns)) := by
  refine .cons (by decide) (readsBack_directives hds hds') fun ds' hd =>
    (ReadsBack.single (readsBack_unionMembers hns)).map fun ns' hn => ?_
  rw [hd, hn]

theorem readsBack_enumBody {vs : List EnumValueDefinition} (hvs : vs.all (·.isValid) = true)
    (hvs' : vs.all (·.isPrintable) = true) :
    ReadsBack [.optionalUse .directives, .optionalUse .enumValuesDefinition] enumBody
      (Printing.typeBody ds (.enum vs)) (· = (ds, .enum vs)) := by
  refine .cons (by decide) (readsBack_directives hds hds') fun ds' hd =>
    (ReadsBack.single (readsBack_enumValues hvs hvs')).map fun vs' hv => ?_
  rw [hd, hv]

theorem readsBack_inputBody {fs : List InputValueDefinition} (hfs : fs.all (·.isValid) = true)
    (hfs' : fs.all (·.isPrintable) = true) :
    ReadsBack [.optionalUse .directives, .optionalUse .inputFieldsDefinition] inputBody
      (Printing.typeBody ds (.inputObject fs)) (· = (ds, .inputObject fs)) := by
  refine .cons (by decide) (readsBack_directives hds hds') fun ds' hd =>
    (ReadsBack.single (readsBack_inputFields hfs hfs')).map fun fs' hf => ?_
  rw [hd, hf]

end

/-! Directive definitions. -/

omit [Machine] in
theorem ofWord?_word (l : DirectiveLocation) : DirectiveLocation.ofWord? l.word = some l := by
  cases l <;> decide

omit [Machine] in
theorem name_word (l : DirectiveLocation) : Printing.name l.word = (.name, l.word.toList) := by
  cases l <;> decide

omit [Machine] in
theorem isValidName_word (l : DirectiveLocation) : isValidName l.word = true := by
  cases l <;> decide

omit [Machine] in
theorem readsBack_directiveLocation (l : DirectiveLocation) :
    Rule.directiveLocation.ReadsBack directiveLocation [Printing.name l.word] (· = l) := by
  have hspelling := Printing.isSpelling_name (isValidName_word l)
  rw [name_word] at hspelling ⊢
  have htoken := readsBack_literal (t := .name) ["NAME"] hspelling (by decide) (by decide)
  have hnode := (ReadsBack.single htoken).node (r := .directiveLocation) List.mem_cons_self rfl rfl
    fun _ _ => rfl
  refine hnode.bind fun _ u hu => ⟨l, rfl, ?_⟩
  obtain ⟨token, htoken, rfl⟩ := hu
  have htext : token.text = l.word.toList := congrArg Prod.snd htoken
  simp only [Token.leaf, htext, String.ofList_toList, ofWord?_word]
  rfl

omit [Machine] in
/-- The locations of a directive behind its last word. -/
theorem readsBack_locations {l : DirectiveLocation} {ls : List DirectiveLocation} :
    (Clause.use .directiveLocations).ReadsBack
      (Walk.clause "directive_locations" "directive_location" directiveLocation)
      ([Printing.name l.word] ++
        ls.flatMap fun l => Punctuator.pipe.spelled :: [Printing.name l.word]) (· = l :: ls) := by
  have hitems : ∀ l' ∈ l :: ls, Rule.directiveLocation.ReadsBack directiveLocation
      [Printing.name l'.word] (· = l') := fun l' _ => readsBack_directiveLocation l'
  have hlists := (Lists.separated (l := .locations) rfl hitems).without (c := .optionalMark .pipe)
    (.inl ⟨rfl, rfl⟩)
  exact .list (r := .directiveLocations) (s := .directiveLocation) hlists List.mem_cons_self rfl rfl
    rfl fun _ _ => rfl

omit [Machine] in
theorem readsBack_repeatable (b : Bool) :
    (Clause.optionalUse .repeatable).ReadsBack (Walk.optional "repeatable") (Printing.repeatable b)
      (·.isSome = b) := by
  cases b with
  | false => exact .absent (x := none) rfl (.inl ⟨rfl, rfl⟩) (Walk.runs_optional (o := none) nofun)
  | true =>
    refine ⟨.cons (.keyword .repeatable) .nil, fun w hw => ?_⟩
    obtain ⟨span, textSpan, htree⟩ := exists_keywordNode (r := .repeatable) (k := .repeatable)
      List.mem_cons_self rfl rfl hw
    refine ⟨_, some _, rfl, .inr htree, Walk.runs_optional (o := some _) fun u hu => ?_⟩
    obtain rfl := Option.some.inj hu
    rfl

theorem readsBack_directiveDefinition {d : DirectiveDefinition} (h : d.isValid = true)
    (h' : d.isPrintable = true) :
    Rule.directiveDefinition.ReadsBack directiveDefinition (Printing.directiveDefinition d)
      (· = d) := by
  obtain ⟨description, name, arguments, repeatable, locations⟩ := d
  simp only [DirectiveDefinition.isValid, Bool.and_eq_true, Bool.not_eq_true'] at h
  rw [DirectiveDefinition.isPrintable, Bool.and_eq_true] at h'
  cases locations with
  | nil => exact absurd h.2 (by decide)
  | cons l ls =>
  have hclauses : ReadsBack [.optionalUse .description, .word .directive, .mark .atSign, .use .name,
      .optionalUse .argumentsDefinition, .optionalUse .repeatable, .word .on,
      .use .directiveLocations] (do
        let description ← Conversion.description
        let name ← Walk.name
        let arguments ← argumentsDefinition
        let repeatable ← Walk.optional "repeatable"
        let locations ← Walk.clause "directive_locations" "directive_location" directiveLocation
        return DirectiveDefinition.mk description name arguments repeatable.isSome locations)
      (Printing.directiveDefinition ⟨description, name, arguments, repeatable, l :: ls⟩)
      (· = ⟨description, name, arguments, repeatable, l :: ls⟩) := by
    refine .cons (by decide) (readsBack_description h'.1) fun d hd => .word (.mark
      (.one (by decide) (readsBack_name h.1.1) fun n hn =>
      .cons (by decide) (readsBack_argumentsDefinition h.1.2 h'.2) fun vs hvs =>
      .cons (by decide) (readsBack_repeatable repeatable) fun o ho => .word
      ((ReadsBack.single readsBack_locations).map fun ls hls => ?_)))
    rw [hd, hn, hvs, ho, hls]
  have hchecked := (hclauses.node (r := .directiveDefinition) List.mem_cons_self rfl rfl fun _ _ => rfl).bind
    (Q := (· = ⟨description, name, arguments, repeatable, l :: ls⟩)) (k := fun t d => do
      if d.locations.isEmpty then .error (.shape (.noLocations d.name) t.span?)
      checkNames [("name", d.name)]
      return d) ?_
  · exact hchecked
  · rintro t d rfl
    exact ⟨_, rfl, checked_eq_ok (by simpa using h.1.1)⟩

end GraphQLDoc.Conversion
