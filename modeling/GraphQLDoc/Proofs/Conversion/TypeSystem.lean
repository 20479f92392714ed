import GraphQLDoc.Conversion.TypeSystem
import GraphQLDoc.Proofs.Conversion.Executable

/-!
What the conversions of type system definitions and extensions, and of whole documents, give on the
trees of the grammar.
-/
namespace GraphQLDoc.Conversion

section

variable {g : Grammar} [g.IsUsual] {E : ConversionError → Prop} {w : List Token} {t : ParseTree}
  {ts : List ParseTree}

/-! Lists of type names. -/

theorem feeds_use_interfaces : (Clause.use .implementsInterfaces).Feeds g E interfaces
    fun _ ns => ns ≠ [] ∧ ns.all isValidName = true :=
  (Clause.feeds_list (r := .implementsInterfaces) (i := .namedType) (by decide)
    fun _ _ h => gives_namedType h).mono fun _ _ h => ⟨h.1, List.all_eq_true.mpr h.2⟩

theorem feeds_interfaces : (Clause.optionalUse .implementsInterfaces).Feeds g E interfaces
    fun _ ns => ns.all isValidName = true :=
  (Clause.feeds_list? (r := .implementsInterfaces) (i := .namedType) (by decide)
    fun _ _ h => gives_namedType h).mono fun _ _ h => List.all_eq_true.mpr h

theorem feeds_use_unionMembers : (Clause.use .unionMemberTypes).Feeds g E unionMembers
    fun _ ns => ns ≠ [] ∧ ns.all isValidName = true :=
  (Clause.feeds_list (r := .unionMemberTypes) (i := .namedType) (by decide)
    fun _ _ h => gives_namedType h).mono fun _ _ h => ⟨h.1, List.all_eq_true.mpr h.2⟩

theorem feeds_unionMembers : (Clause.optionalUse .unionMemberTypes).Feeds g E unionMembers
    fun _ ns => ns.all isValidName = true :=
  (Clause.feeds_list? (r := .unionMemberTypes) (i := .namedType) (by decide)
    fun _ _ h => gives_namedType h).mono fun _ _ h => List.all_eq_true.mpr h

/-! Root types. -/

theorem gives_rootEntry (h : IsTreeOf g .rootOperationTypeDefinition w t) :
    Gives E (fun e => isValidName e.2 = true) (rootEntry t) := by
  refine gives_node h rfl rfl (List.forall_mem_singleton.mpr (.cons (by decide) Clause.feeds_next
    fun _ u ⟨_, _, hu⟩ => ?_))
  obtain ⟨o, ho⟩ := operationType_eq hu
  have htype : Gives E (fun _ => True) (operationType u) := by rw [ho]; trivial
  exact .lift htype fun o _ => .skip rfl (.cons (by decide) Clause.feeds_next fun _ u ⟨_, _, hu⟩ =>
    .lift (gives_namedType hu) fun n hn => .nil hn)

variable [Machine] (hE : Allows g E)

include hE

omit [Machine] in
theorem gives_addRoot {roots : RootTypes} (hroots : roots.isValid = true)
    (h : IsTreeOf g .rootOperationTypeDefinition w t) :
    Gives E (fun r => r.isValid = true ∧ r.isEmpty = false) (addRoot roots t) := by
  refine (gives_rootEntry h).bind fun e he => ?_
  obtain ⟨o, name⟩ := e
  dsimp only at he ⊢
  split
  · exact hE.literal _ _
  · simp only [RootTypes.isValid, Bool.and_eq_true] at hroots
    cases o <;>
      simp [RootTypes.isValid, RootTypes.set, RootTypes.isEmpty, RootTypes.operations,
        OperationType.all, RootTypes.get, he, hroots]

omit [Machine] in
theorem gives_addRoots {roots : RootTypes} (hroots : roots.isValid = true)
    (h : ∀ t ∈ ts, ∃ w, IsTreeOf g .rootOperationTypeDefinition w t) :
    Gives E (fun r => r.isValid = true ∧ (ts ≠ [] ∨ roots.isEmpty = false → r.isEmpty = false))
      (ts.foldlM addRoot roots) := by
  induction ts generalizing roots with
  | nil => exact ⟨hroots, fun h => h.resolve_left (absurd rfl)⟩
  | cons t ts ih =>
    obtain ⟨⟨w, ht⟩, hts⟩ := List.forall_mem_cons.mp h
    rw [List.foldlM_cons]
    exact (gives_addRoot hE hroots ht).bind fun r hr => (ih hr.1 hts).mono fun s hs =>
      ⟨hs.1, fun _ => hs.2 (.inr hr.2)⟩

omit [Machine] in
theorem feeds_rootTypes : (Clause.oneOrMore .rootOperationTypes).Feeds g E rootTypes
    fun _ r => r.isValid = true ∧ r.isEmpty = false := fun w ts hts =>
  (Clause.feeds_repeated w ts hts).andThen fun us c ⟨hus, hne, htrees⟩ => by
    subst hus
    exact .lift ((gives_addRoots hE rfl htrees).mono fun r hr => ⟨hr.1, hr.2 (.inl hne)⟩)

omit [Machine] in
theorem feeds_rootTypes? : (Clause.zeroOrMore .rootOperationTypes).Feeds g E rootTypes
    fun _ r => r.isValid = true := fun w ts hts =>
  (Clause.feeds_repeated? w ts hts).andThen fun us c ⟨hus, htrees⟩ => by
    subst hus
    exact .lift ((gives_addRoots hE rfl htrees).mono fun r hr => hr.1)

theorem gives_schemaDefinition (h : IsTreeOf g .schemaDefinition w t) :
    Gives E (fun s => s.isValid = true) (schemaDefinition t) := by
  refine gives_node h rfl rfl (List.forall_mem_singleton.mpr (.cons (by decide) (feeds_description hE) fun _ d _ =>
    .skip rfl (.cons (by decide) (feeds_directives hE) fun _ ds hds => .skip rfl (.cons (by decide) (feeds_rootTypes hE)
      fun _ r hr => .skip rfl (.nil ?_)))))
  simp only [SchemaDefinition.isValid, hds, hr.1, Bool.and_self]

/-! Fields, input values and enum values. -/

theorem gives_inputValueDefinition (h : IsTreeOf g .inputValueDefinition w t) :
    Gives E (fun v => v.isValid = true) (inputValueDefinition t) := by
  refine (gives_node (P := fun v => v.isValid = true) h rfl rfl (List.forall_mem_singleton.mpr
    (.cons (by decide) (feeds_description hE) fun _ d _ => .cons (by decide) feeds_name fun _ n hn => .skip rfl
      (.cons (by decide) feeds_type fun _ r hr => .cons (by decide) (feeds_defaultValue hE) fun _ v hv =>
        .cons (by decide) (feeds_directives hE) fun _ ds hds => .nil ?_)))).bind
    fun v hv => gives_checked hv ?_
  · simp only [InputValueDefinition.isValid, hn, hr, hv, hds, Bool.and_self]
  · simp only [InputValueDefinition.isValid, Bool.and_eq_true] at hv
    simpa using hv.1.1.1

theorem feeds_argumentsDefinition :
    (Clause.optionalUse .argumentsDefinition).Feeds g E argumentsDefinition
      fun _ vs => vs.all (·.isValid) = true :=
  (Clause.feeds_list? (r := .argumentsDefinition) (i := .inputValueDefinition) (by decide)
    fun _ _ h => gives_inputValueDefinition hE h).mono fun _ _ h => List.all_eq_true.mpr h

theorem gives_fieldDefinition (h : IsTreeOf g .fieldDefinition w t) :
    Gives E (fun f => f.isValid = true) (fieldDefinition t) := by
  refine (gives_node (P := fun f => f.isValid = true) h rfl rfl (List.forall_mem_singleton.mpr
    (.cons (by decide) (feeds_description hE) fun _ d _ => .cons (by decide) feeds_name fun _ n hn =>
      .cons (by decide) (feeds_argumentsDefinition hE) fun _ vs hvs => .skip rfl
        (.cons (by decide) feeds_type fun _ r hr => .cons (by decide) (feeds_directives hE)
          fun _ ds hds => .nil ?_)))).bind
    fun f hf => gives_checked hf ?_
  · simp only [FieldDefinition.isValid, hn, hvs, hr, hds, Bool.and_self]
  · simp only [FieldDefinition.isValid, Bool.and_eq_true] at hf
    simpa using hf.1.1.1

theorem gives_enumValueDefinition (h : IsTreeOf g .enumValueDefinition w t) :
    Gives E (fun v => v.isValid = true) (enumValueDefinition t) := by
  refine (gives_node (P := fun v => v.1.isValid = true) h rfl rfl (List.forall_mem_singleton.mpr
    (.cons (by decide) (feeds_description hE) fun _ d _ => .cons (by decide) Clause.feeds_next fun _ u ⟨_, _, hu⟩ =>
      .lift (gives_nameToken (isNameNode (by decide) hu)) fun p hp =>
        .cons (by decide) (feeds_directives hE) fun _ ds hds => .nil ?_))).bind fun v hv => ?_
  · simp only [EnumValueDefinition.isValid, hp, hds, Bool.and_self]
  · obtain ⟨v, span⟩ := v
    have hname : ∀ f ∈ [("name", v.name)], isValidName f.2 = true := by
      simp only [EnumValueDefinition.isValid, Bool.and_eq_true] at hv
      simpa using hv.1
    dsimp only
    split
    · exact hE.literal _ _
    · exact gives_checked hv hname

theorem feeds_use_fields : (Clause.use .fieldsDefinition).Feeds g E fields
    fun _ fs => fs ≠ [] ∧ fs.all (·.isValid) = true :=
  (Clause.feeds_list (r := .fieldsDefinition) (i := .fieldDefinition) (by decide)
    fun _ _ h => gives_fieldDefinition hE h).mono fun _ _ h => ⟨h.1, List.all_eq_true.mpr h.2⟩

theorem feeds_fields : (Clause.optionalUse .fieldsDefinition).Feeds g E fields
    fun _ fs => fs.all (·.isValid) = true :=
  (Clause.feeds_list? (r := .fieldsDefinition) (i := .fieldDefinition) (by decide)
    fun _ _ h => gives_fieldDefinition hE h).mono fun _ _ h => List.all_eq_true.mpr h

theorem feeds_use_inputFields : (Clause.use .inputFieldsDefinition).Feeds g E inputFields
    fun _ fs => fs ≠ [] ∧ fs.all (·.isValid) = true :=
  (Clause.feeds_list (r := .inputFieldsDefinition) (i := .inputValueDefinition) (by decide)
    fun _ _ h => gives_inputValueDefinition hE h).mono fun _ _ h => ⟨h.1, List.all_eq_true.mpr h.2⟩

theorem feeds_inputFields : (Clause.optionalUse .inputFieldsDefinition).Feeds g E inputFields
    fun _ fs => fs.all (·.isValid) = true :=
  (Clause.feeds_list? (r := .inputFieldsDefinition) (i := .inputValueDefinition) (by decide)
    fun _ _ h => gives_inputValueDefinition hE h).mono fun _ _ h => List.all_eq_true.mpr h

theorem feeds_use_enumValues : (Clause.use .enumValuesDefinition).Feeds g E enumValues
    fun _ vs => vs ≠ [] ∧ vs.all (·.isValid) = true :=
  (Clause.feeds_list (r := .enumValuesDefinition) (i := .enumValueDefinition) (by decide)
    fun _ _ h => gives_enumValueDefinition hE h).mono fun _ _ h => ⟨h.1, List.all_eq_true.mpr h.2⟩

theorem feeds_enumValues : (Clause.optionalUse .enumValuesDefinition).Feeds g E enumValues
    fun _ vs => vs.all (·.isValid) = true :=
  (Clause.feeds_list? (r := .enumValuesDefinition) (i := .enumValueDefinition) (by decide)
    fun _ _ h => gives_enumValueDefinition hE h).mono fun _ _ h => List.all_eq_true.mpr h

/-! Type definitions. -/

omit [Machine] in
/-- A type definition, given what its body reads. -/
theorem gives_typeDefinition {r : Rule} {k : Keyword} {cs : List Clause}
    {body : Walk (List Directive × TypeBody)} (h : IsTreeOf g r w t)
    (hbody : Feeds g E cs body fun _ b => b.1.all (·.isValid) = true ∧ b.2.isValid = true)
    (hr : r.alternatives = [[.optionalUse .description, .word k, .use .name] ++ cs])
    (hinlined : r.inlined = false) (hwords : r.keepsWords = false)
    (hd : ∀ s ∈ cs.flatMap Clause.tags, s ∉ ["description", "name"]) :
    Gives E (fun d => d.isValid = true) (typeDefinition r.tag body t) := by
  have hname : ∀ s ∈ cs.flatMap Clause.tags, s ∉ (Clause.use .name).tags := fun s hs h =>
    hd s hs (List.mem_cons_of_mem _ h)
  have hdescription : ∀ s ∈ (.word k :: .use .name :: cs).flatMap Clause.tags,
      s ∉ (Clause.optionalUse .description).tags := by
    intro s hs h
    obtain rfl := List.mem_singleton.mp h
    rcases List.mem_cons.mp (show "description" ∈ "name" :: cs.flatMap Clause.tags from hs) with hs | hs
    · exact absurd hs (by decide)
    · exact hd _ hs List.mem_cons_self
  refine (gives_node (P := fun d => d.isValid = true) h hinlined hwords ?_).bind
    fun d hd => gives_checked hd ?_
  · rw [hr]
    refine List.forall_mem_singleton.mpr (.cons hdescription (feeds_description hE) fun _ d _ =>
      .skip rfl (.cons hname feeds_name fun _ n hn => hbody.andThen fun _ b c hb => ⟨?_, rfl⟩))
    simp only [TypeDefinition.isValid, hn, hb, Bool.and_self]
  · simp only [TypeDefinition.isValid, Bool.and_eq_true] at hd
    simpa using hd.1.1

theorem feeds_scalarBody : Feeds g E [.optionalUse .directives] scalarBody
    fun _ b => b.1.all (·.isValid) = true ∧ b.2.isValid = true :=
  .cons (by decide) (feeds_directives hE) fun _ ds hds => .nil ⟨hds, rfl⟩

theorem feeds_fieldsBody (owner : FieldOwner) : Feeds g E [.optionalUse .implementsInterfaces,
    .optionalUse .directives, .optionalUse .fieldsDefinition] (fieldsBody owner)
    fun _ b => b.1.all (·.isValid) = true ∧ b.2.isValid = true :=
  .cons (by decide) feeds_interfaces fun _ ns hns => .cons (by decide) (feeds_directives hE) fun _ ds hds =>
    .cons (by decide) (feeds_fields hE) fun _ fs hfs =>
      .nil ⟨hds, by simp only [TypeBody.isValid, hns, hfs, Bool.and_self]⟩

theorem feeds_unionBody : Feeds g E [.optionalUse .directives, .optionalUse .unionMemberTypes]
    unionBody fun _ b => b.1.all (·.isValid) = true ∧ b.2.isValid = true :=
  .cons (by decide) (feeds_directives hE) fun _ ds hds => .cons (by decide) feeds_unionMembers fun _ ns hns =>
    .nil ⟨hds, hns⟩

theorem feeds_enumBody : Feeds g E [.optionalUse .directives, .optionalUse .enumValuesDefinition]
    enumBody fun _ b => b.1.all (·.isValid) = true ∧ b.2.isValid = true :=
  .cons (by decide) (feeds_directives hE) fun _ ds hds =>
    .cons (by decide) (feeds_enumValues hE) fun _ vs hvs =>
    .nil ⟨hds, hvs⟩

theorem feeds_inputBody : Feeds g E [.optionalUse .directives, .optionalUse .inputFieldsDefinition]
    inputBody fun _ b => b.1.all (·.isValid) = true ∧ b.2.isValid = true :=
  .cons (by decide) (feeds_directives hE) fun _ ds hds =>
    .cons (by decide) (feeds_inputFields hE) fun _ fs hfs =>
    .nil ⟨hds, hfs⟩

/-! Directive definitions. -/

omit [Machine] in
theorem gives_directiveLocation (h : IsTreeOf g .directiveLocation w t) :
    Gives E (fun _ => True) (directiveLocation t) := by
  have hnext : (Clause.literal .name).Feeds g E (Walk.next ["NAME"]) fun _ u =>
      ∃ token : Token, u = token.leaf :=
    (Clause.feeds_literal (by decide) fun token htoken => by
      simp [Derivation.Token.isKept, htoken]).mono fun _ _ ⟨_, token, _, _, hu⟩ => ⟨token, hu⟩
  refine (gives_node h rfl rfl (List.forall_mem_singleton.mpr (.last rfl hnext))).bind fun u hu => ?_
  obtain ⟨token, rfl⟩ := hu
  simp only [Token.leaf]
  split
  · exact trivial
  · exact hE.literal _ _

omit [Machine] in
theorem feeds_locations : (Clause.use .directiveLocations).Feeds g E
    (Walk.clause "directive_locations" "directive_location" directiveLocation)
    fun _ ls => ls.isEmpty = false :=
  (Clause.feeds_list (r := .directiveLocations) (i := .directiveLocation) (by decide)
    fun _ _ h => gives_directiveLocation hE h).mono fun _ _ h => List.isEmpty_eq_false_iff.mpr h.1

theorem gives_directiveDefinition (h : IsTreeOf g .directiveDefinition w t) :
    Gives E (fun d => d.isValid = true) (directiveDefinition t) := by
  refine (gives_node (P := fun d => d.isValid = true) h rfl rfl (List.forall_mem_singleton.mpr
    (.cons (by decide) (feeds_description hE) fun _ d _ => .skip rfl (.skip rfl (.cons (by decide) feeds_name fun _ n hn =>
      .cons (by decide) (feeds_argumentsDefinition hE) fun _ vs hvs =>
        .cons (by decide) (Clause.feeds_optional (r := .repeatable) rfl) fun _ o _ => .skip rfl
          (.cons (by decide) (feeds_locations hE) fun _ ls hls => .nil ?_)))))).bind fun d hd => ?_
  · simp [DirectiveDefinition.isValid, hn, hvs, hls]
  · have hparts := hd
    simp only [DirectiveDefinition.isValid, Bool.and_eq_true, Bool.not_eq_true'] at hparts
    rw [if_neg (by simp [hparts.2])]
    exact gives_checked hd (by simpa using hparts.1.1)

/-! Extensions. -/

theorem gives_schemaExtension (h : IsTreeOf g .schemaExtension w t) :
    Gives E (fun e => e.isValid = true) (schemaExtension t) := by
  refine (gives_node (P := fun p => p.1.all (·.isValid) = true ∧ p.2.isValid = true ∧
    (p.2.isEmpty = false ∨ p.1.isEmpty = false)) h rfl rfl (List.forall_mem_cons.mpr
      ⟨.skip rfl (.skip rfl (.cons (by decide) (feeds_directives hE) fun _ ds hds => .skip rfl
        (.cons (by decide) (feeds_rootTypes hE) fun _ r hr => .skip rfl (.nil ⟨hds, hr.1, .inl hr.2⟩)))),
      List.forall_mem_singleton.mpr (.skip rfl (.skip rfl (.cons (by decide) (feeds_use_directives hE)
        fun _ ds hds => .absent (c := .zeroOrMore .rootOperationTypes) (.inl ⟨rfl, rfl⟩) (.cons (by decide) (feeds_rootTypes? hE)
          fun _ r hr => .nil ⟨hds.2, hr, .inr (List.isEmpty_eq_false_iff.mpr hds.1)⟩))))⟩)).bind
    fun p hp => ?_
  obtain ⟨ds, roots⟩ := p
  obtain ⟨hds, hroots, hne⟩ := hp
  dsimp only at *
  cases hempty : roots.isEmpty with
  | false => simp [SchemaExtension.isValid, hds, hroots, hempty]
  | true =>
    have hne : ds.isEmpty = false := hne.resolve_left (by simp [hempty])
    simp [SchemaExtension.isValid, hds, hne]

omit [Machine] hE in
/-- A type extension, given what its clauses read. -/
theorem gives_typeExtension {α : Type} {r : Rule} {k : Keyword} {C : List (List Clause)}
    {clauses : Walk α} {choose : α → Option ExtensionBody} (h : IsTreeOf g r w t)
    (hclauses : ∀ cs ∈ C, Feeds g E cs clauses
      fun _ c => ∃ body, choose c = some body ∧ body.isValid = true)
    (hr : r.alternatives = C.map ([.word .extend, .word k, .use .name] ++ ·))
    (hinlined : r.inlined = false) (hwords : r.keepsWords = false)
    (hd : ∀ cs ∈ C, ∀ s ∈ cs.flatMap Clause.tags, s ∉ (Clause.use .name).tags) :
    Gives E (fun e => e.isValid = true) (typeExtension r.tag clauses choose t) := by
  refine (gives_node (P := fun p => isValidName p.1 = true ∧ ∃ body, choose p.2 = some body ∧
    body.isValid = true) h hinlined hwords fun cs hcs => ?_).bind fun p hp => ?_
  · rw [hr] at hcs
    obtain ⟨rest, hrest, rfl⟩ := List.mem_map.mp hcs
    exact .skip rfl (.skip rfl (.cons (hd rest hrest) feeds_name fun _ n hn =>
      (hclauses rest hrest).andThen fun _ c d hc => ⟨⟨hn, hc⟩, rfl⟩))
  · obtain ⟨name, found⟩ := p
    obtain ⟨hname, body, hbody, hvalid⟩ := hp
    dsimp only at *
    rw [hbody]
    exact gives_checked (by simp only [TypeExtension.isValid, hname, hvalid, Bool.and_self])
      (by simpa using hname)

omit [Machine] [g.IsUsual] hE in
theorem onlyDirectives_spec {withDirectives : List Directive → ExtensionBody} {ds : List Directive}
    (hvalid : ∀ ds : List Directive, ds.isEmpty = false → ds.all (·.isValid) = true →
      (withDirectives ds).isValid = true) (hne : ds ≠ []) (hds : ds.all (·.isValid) = true) :
    ∃ body, onlyDirectives withDirectives ds = some body ∧ body.isValid = true := by
  cases ds with
  | nil => exact absurd rfl hne
  | cons d ds => exact ⟨_, rfl, hvalid _ rfl hds⟩

omit [Machine] [g.IsUsual] hE in
theorem FieldsClauses.body_spec {owner : FieldOwner} {c : FieldsClauses}
    (hinterfaces : c.interfaces.all isValidName = true)
    (hdirectives : c.directives.all (·.isValid) = true) (hfields : c.fields.all (·.isValid) = true)
    (hne : c.fields ≠ [] ∨ c.directives ≠ [] ∨ c.interfaces ≠ []) :
    ∃ body, c.body owner = some body ∧ body.isValid = true := by
  obtain ⟨interfaces, directives, fields⟩ := c
  dsimp only at *
  unfold FieldsClauses.body
  cases fields with
  | cons f fs =>
    exact ⟨_, rfl, by simp only [ExtensionBody.isValid, hinterfaces, hdirectives, hfields]; rfl⟩
  | nil =>
    cases directives with
    | cons d ds => exact ⟨_, rfl, by simp only [ExtensionBody.isValid, hinterfaces, hdirectives]; rfl⟩
    | nil =>
      cases interfaces with
      | cons n ns => exact ⟨_, rfl, by simp only [ExtensionBody.isValid, hinterfaces]; rfl⟩
      | nil => simp at hne

theorem gives_fieldsExtension {r : Rule} {owner : FieldOwner} {k : Keyword}
    (h : IsTreeOf g r w t)
    (hr : r.alternatives = [[.optionalUse .implementsInterfaces, .optionalUse .directives,
        .use .fieldsDefinition], [.optionalUse .implementsInterfaces, .use .directives],
      [.use .implementsInterfaces]].map ([.word .extend, .word k, .use .name] ++ ·))
    (hinlined : r.inlined = false) (hwords : r.keepsWords = false) :
    Gives E (fun e => e.isValid = true) (fieldsExtension r.tag owner t) := by
  refine gives_typeExtension h ?_ hr hinlined hwords (by decide)
  refine List.forall_mem_cons.mpr ⟨?_, List.forall_mem_cons.mpr ⟨?_, List.forall_mem_singleton.mpr ?_⟩⟩
  · exact .cons (by decide) feeds_interfaces fun _ ns hns =>
      .cons (by decide) (feeds_directives hE) fun _ ds hds =>
      .cons (by decide) (feeds_use_fields hE) fun _ fs hfs =>
        .nil (FieldsClauses.body_spec hns hds hfs.2 (.inl hfs.1))
  · exact .cons (by decide) feeds_interfaces fun _ ns hns =>
      .cons (by decide) (feeds_use_directives hE) fun _ ds hds =>
      .absent (c := .optionalUse .fieldsDefinition) (.inl ⟨rfl, rfl⟩)
        (.cons (by decide) (feeds_fields hE) fun _ fs hfs =>
        .nil (FieldsClauses.body_spec hns hds.2 hfs (.inr (.inl hds.1))))
  · exact .cons (by decide) feeds_use_interfaces fun _ ns hns =>
      .absent (c := .optionalUse .directives) (.inl ⟨rfl, rfl⟩)
        (.cons (by decide) (feeds_directives hE) fun _ ds hds =>
        .absent (c := .optionalUse .fieldsDefinition) (.inl ⟨rfl, rfl⟩)
        (.cons (by decide) (feeds_fields hE) fun _ fs hfs =>
          .nil (FieldsClauses.body_spec hns.2 hds hfs (.inr (.inr hns.1)))))

omit [Machine] [g.IsUsual] hE in
theorem itemsOrDirectives_spec {α : Type} {valid : α → Bool}
    {withItems : List Directive → List α → ExtensionBody}
    {withDirectives : List Directive → ExtensionBody} {ds : List Directive} {items : List α}
    (hwithItems : ∀ ds items, (withItems ds items).isValid =
      (ds.all (·.isValid) && (!items.isEmpty && items.all valid)))
    (hwithDirectives : ∀ ds, (withDirectives ds).isValid = (!ds.isEmpty && ds.all (·.isValid)))
    (hds : ds.all (·.isValid) = true) (hitems : items.all valid = true)
    (hne : items ≠ [] ∨ ds ≠ []) :
    ∃ body, itemsOrDirectives withItems withDirectives (ds, items) = some body ∧
      body.isValid = true := by
  cases items with
  | cons i is => exact ⟨_, rfl, by rw [hwithItems, hds, hitems]; rfl⟩
  | nil =>
    cases ds with
    | cons d ds => exact ⟨_, rfl, by rw [hwithDirectives, hds]; rfl⟩
    | nil => simp at hne

/-- An extension with directives, and a clause with items of one sort. -/
theorem gives_itemsExtension {α : Type} {valid : α → Bool} {r items : Rule} {k : Keyword}
    {walk : Walk (List α)} {withItems : List Directive → List α → ExtensionBody}
    {withDirectives : List Directive → ExtensionBody} (h : IsTreeOf g r w t)
    (huse : (Clause.use items).Feeds g E walk fun _ xs => xs ≠ [] ∧ xs.all valid = true)
    (hoptional : (Clause.optionalUse items).Feeds g E walk fun _ xs => xs.all valid = true)
    (hwithItems : ∀ ds items, (withItems ds items).isValid =
      (ds.all (·.isValid) && (!items.isEmpty && items.all valid)))
    (hwithDirectives : ∀ ds, (withDirectives ds).isValid = (!ds.isEmpty && ds.all (·.isValid)))
    (hr : r.alternatives = [[.optionalUse .directives, .use items], [.use .directives]].map
      ([.word .extend, .word k, .use .name] ++ ·))
    (hinlined : r.inlined = false) (hwords : r.keepsWords = false)
    (hd : ∀ s ∈ ([.use items] : List Clause).flatMap Clause.tags,
      s ∉ (Clause.use .directives).tags)
    (hnames : ∀ cs ∈ [[.optionalUse .directives, .use items], [.use .directives]],
      ∀ s ∈ cs.flatMap Clause.tags, s ∉ (Clause.use .name).tags) :
    Gives E (fun e => e.isValid = true) (typeExtension r.tag (directivesAnd walk)
      (itemsOrDirectives withItems withDirectives) t) := by
  refine gives_typeExtension h ?_ hr hinlined hwords hnames
  refine List.forall_mem_cons.mpr ⟨?_, List.forall_mem_singleton.mpr ?_⟩
  · exact .cons hd (feeds_directives hE) fun _ ds hds => .cons nofun huse fun _ xs hxs =>
      .nil (itemsOrDirectives_spec hwithItems hwithDirectives hds hxs.2 (.inl hxs.1))
  · exact .cons nofun (feeds_use_directives hE) fun _ ds hds =>
      .absent (c := .optionalUse items) (.inl ⟨rfl, rfl⟩) (.cons nofun hoptional fun _ xs hxs =>
        .nil (itemsOrDirectives_spec hwithItems hwithDirectives hds.2 hxs (.inr hds.1)))

/-! Whole documents. -/

omit [g.IsUsual] hE in
theorem definition_eq {tag : String} {convert : ParseTree → Converted Definition}
    (ht : t.tag = tag) (h : definitionRules.lookup tag = some convert) :
    definition t = convert t := by
  rw [definition, ht, h]
  rfl

theorem gives_executableDefinition (h : IsTreeOf g .executableDefinition w t) :
    Gives E (fun d => d.isValid = true) (definition t) := by
  obtain ⟨s, hs, htree⟩ := (IsTreeOf.of_inlined rfl rfl).mp h
  simp only [List.mem_cons, List.not_mem_nil, or_false] at hs
  rcases hs with rfl | rfl
  · rw [definition_eq (htree.tag_eq rfl) rfl]
    exact (gives_operation hE htree).map fun _ => id
  · rw [definition_eq (htree.tag_eq rfl) rfl]
    exact (gives_fragment hE htree).map fun _ => id

theorem gives_typeDefinitions (h : IsTreeOf g .typeDefinition w t) :
    Gives E (fun d => d.isValid = true) (definition t) := by
  obtain ⟨s, hs, htree⟩ := (IsTreeOf.of_inlined rfl rfl).mp h
  simp only [List.mem_cons, List.not_mem_nil, or_false] at hs
  rcases hs with rfl | rfl | rfl | rfl | rfl | rfl <;> rw [definition_eq (htree.tag_eq rfl) rfl]
  · exact (gives_typeDefinition hE htree (feeds_scalarBody hE)
      rfl rfl rfl (by decide)).map fun _ => id
  · exact (gives_typeDefinition hE htree (feeds_fieldsBody hE .object)
      rfl rfl rfl (by decide)).map fun _ => id
  · exact (gives_typeDefinition hE htree (feeds_fieldsBody hE .interface)
      rfl rfl rfl (by decide)).map fun _ => id
  · exact (gives_typeDefinition hE htree (feeds_unionBody hE)
      rfl rfl rfl (by decide)).map fun _ => id
  · exact (gives_typeDefinition hE htree (feeds_enumBody hE)
      rfl rfl rfl (by decide)).map fun _ => id
  · exact (gives_typeDefinition hE htree (feeds_inputBody hE)
      rfl rfl rfl (by decide)).map fun _ => id

theorem gives_typeSystemDefinition (h : IsTreeOf g .typeSystemDefinition w t) :
    Gives E (fun d => d.isValid = true) (definition t) := by
  obtain ⟨s, hs, htree⟩ := (IsTreeOf.of_inlined rfl rfl).mp h
  simp only [List.mem_cons, List.not_mem_nil, or_false] at hs
  rcases hs with rfl | rfl | rfl
  · rw [definition_eq (htree.tag_eq rfl) rfl]
    exact (gives_schemaDefinition hE htree).map fun _ => id
  · exact gives_typeDefinitions hE htree
  · rw [definition_eq (htree.tag_eq rfl) rfl]
    exact (gives_directiveDefinition hE htree).map fun _ => id

theorem gives_typeExtensions (h : IsTreeOf g .typeExtension w t) :
    Gives E (fun d => d.isValid = true) (definition t) := by
  obtain ⟨s, hs, htree⟩ := (IsTreeOf.of_inlined rfl rfl).mp h
  simp only [List.mem_cons, List.not_mem_nil, or_false] at hs
  rcases hs with rfl | rfl | rfl | rfl | rfl | rfl <;> rw [definition_eq (htree.tag_eq rfl) rfl]
  · refine (gives_typeExtension htree (C := [[.use .directives]]) ?_ rfl rfl rfl
      (by decide)).map fun _ => id
    exact List.forall_mem_singleton.mpr ((Feeds.last rfl (feeds_use_directives hE)).mono fun _ ds hds =>
      onlyDirectives_spec (fun ds hne hds => by simp [ExtensionBody.isValid, hne, hds]) hds.1 hds.2)
  · exact (gives_fieldsExtension hE htree rfl rfl rfl).map fun _ => id
  · exact (gives_fieldsExtension hE htree rfl rfl rfl).map fun _ => id
  · exact (gives_itemsExtension hE htree feeds_use_unionMembers feeds_unionMembers
      (fun _ _ => rfl) (fun _ => rfl) rfl rfl rfl (by decide) (by decide)).map fun _ => id
  · exact (gives_itemsExtension hE htree (feeds_use_enumValues hE) (feeds_enumValues hE)
      (fun _ _ => rfl) (fun _ => rfl) rfl rfl rfl (by decide) (by decide)).map fun _ => id
  · exact (gives_itemsExtension hE htree (feeds_use_inputFields hE) (feeds_inputFields hE)
      (fun _ _ => rfl) (fun _ => rfl) rfl rfl rfl (by decide) (by decide)).map fun _ => id

theorem gives_typeSystemExtension (h : IsTreeOf g .typeSystemExtension w t) :
    Gives E (fun d => d.isValid = true) (definition t) := by
  obtain ⟨s, hs, htree⟩ := (IsTreeOf.of_inlined rfl rfl).mp h
  simp only [List.mem_cons, List.not_mem_nil, or_false] at hs
  rcases hs with rfl | rfl
  · rw [definition_eq (htree.tag_eq rfl) rfl]
    exact (gives_schemaExtension hE htree).map fun _ => id
  · exact gives_typeExtensions hE htree

theorem gives_definition (h : IsTreeOf g .definition w t) :
    Gives E (fun d => d.isValid = true) (definition t) := by
  obtain ⟨s, hs, htree⟩ := (IsTreeOf.of_inlined rfl rfl).mp h
  simp only [List.mem_cons, List.not_mem_nil, or_false] at hs
  rcases hs with rfl | rfl | rfl
  · exact gives_executableDefinition hE htree
  · exact gives_typeSystemDefinition hE htree
  · exact gives_typeSystemExtension hE htree

omit [g.IsUsual] hE in
theorem gives_definitions {P : Definition → Prop} {rule : String} {span : Option Span} {n : Nat}
    (h : ∀ t ∈ ts, t.tag ∈ definitionTags ∧ Gives E P (definition t)) :
    Gives E (fun ds => ds.length = ts.length ∧ ∀ d ∈ ds, P d)
      (definitions ts.length ⟨rule, span, n, ts⟩) := by
  induction ts generalizing n with
  | nil => exact ⟨rfl, nofun⟩
  | cons t ts ih =>
    obtain ⟨⟨htag, ht⟩, hts⟩ := List.forall_mem_cons.mp h
    rw [List.length_cons, definitions, if_neg (by simp)]
    have hnext : (⟨rule, span, n, t :: ts⟩ : Cursor).next definitionTags =
        .ok (t, ⟨rule, span, n + 1, ts⟩) := if_pos htag
    rw [hnext]
    exact ht.bind fun d hd => (ih hts).bind fun ds hds =>
      ⟨congrArg (· + 1) hds.1, List.forall_mem_cons.mpr ⟨hd, hds.2⟩⟩

theorem gives_document (h : IsTreeOf g .document w t) :
    Gives E (fun d => d.isValid = true) (document t) := by
  obtain ⟨span, inner, rfl, hinner⟩ := h.inside rfl
  have hheld := hinner.held (i := .definition) (by decide)
  have henter : Cursor.enter "document" (.rule Rule.document.tag span inner) =
      .ok ⟨"document", span, 0, inner⟩ := by
    simp [Cursor.enter, Rule.tag]
  rw [document, henter]
  refine (gives_definitions fun t ht => ?_).bind fun ds hds => List.all_eq_true.mpr hds.2
  obtain ⟨w, htree⟩ := hheld t ht
  exact ⟨htree.tag_mem, gives_definition hE htree⟩

end

end GraphQLDoc.Conversion
