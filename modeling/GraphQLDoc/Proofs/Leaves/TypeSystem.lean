import GraphQLDoc.Proofs.Leaves.Executable

/-!
The conversions of type system definitions and extensions keep the leaves of their trees. A schema
block is the exception: its root types are listed by operation.
-/
namespace GraphQLDoc.Conversion

open ParseTree (leavesOf wordTags rootsLast)

variable [Machine] {t : ParseTree} {ts : List ParseTree}

omit [Machine] in
theorem keeps_names {rule : String} (hrule : rule ∉ wordTags) :
    (Walk.clause rule "named_type" namedType).Keeps [] wordLeaves := by
  refine (Walk.keeps_clause hrule fun _ _ => keeps_namedType).mono fun ts ns hns => ?_
  rw [hns, wordLeaves, List.map_eq_flatMap]

/-! Fields, input values and enum values. -/

theorem keeps_inputValueDefinition :
    Keeps InputValueDefinition.leaves t (inputValueDefinition t) := by
  refine GivesOnly.checked (Walk.Keeps.whole ?_ (by decide))
  exact keeps_description.bind fun _ => keeps_name.bind fun _ => keeps_type.bind fun _ =>
    keeps_defaultValue.bind fun _ => keeps_directives.bind fun _ => .pure rfl

theorem keeps_argumentsDefinition :
    argumentsDefinition.Keeps [] fun vs => vs.flatMap InputValueDefinition.leaves :=
  Walk.keeps_clause (by decide) fun _ _ => keeps_inputValueDefinition

theorem keeps_fieldDefinition : Keeps FieldDefinition.leaves t (fieldDefinition t) := by
  refine GivesOnly.checked (Walk.Keeps.whole ?_ (by decide))
  exact keeps_description.bind fun _ => keeps_name.bind fun _ => keeps_argumentsDefinition.bind
    fun _ => keeps_type.bind fun _ => keeps_directives.bind fun _ => .pure rfl

theorem keeps_enumValueDefinition : Keeps EnumValueDefinition.leaves t (enumValueDefinition t) := by
  have hwhole {w : Walk (EnumValueDefinition × Span)} (h : w.Keeps [] fun p => p.1.leaves) :
      Keeps (fun p => p.1.leaves) t (t.whole "enum_value_definition" w) :=
    Walk.Keeps.whole h (by decide)
  refine (hwhole ?_).bind fun p hp => ?_
  · refine keeps_description.bind fun _ => .next fun u hu => .lift (keeps_nameToken ?_) fun p =>
      keeps_directives.bind fun _ => .pure rfl
    rw [List.mem_singleton.mp hu]
    decide
  · obtain ⟨v, span⟩ := p
    dsimp only
    split
    · trivial
    · cases checkNames [("name", v.name)] with
      | error e => trivial
      | ok _ => exact hp

theorem keeps_fields : fields.Keeps [] fun fs => fs.flatMap FieldDefinition.leaves :=
  Walk.keeps_clause (by decide) fun _ _ => keeps_fieldDefinition

theorem keeps_inputFields : inputFields.Keeps [] fun fs => fs.flatMap InputValueDefinition.leaves :=
  Walk.keeps_clause (by decide) fun _ _ => keeps_inputValueDefinition

theorem keeps_enumValues : enumValues.Keeps [] fun vs => vs.flatMap EnumValueDefinition.leaves :=
  Walk.keeps_clause (by decide) fun _ _ => keeps_enumValueDefinition

omit [Machine] in
theorem keeps_interfaces : interfaces.Keeps [] wordLeaves := keeps_names (by decide)

omit [Machine] in
theorem keeps_unionMembers : unionMembers.Keeps [] wordLeaves := keeps_names (by decide)

/-! Type definitions. -/

omit [Machine] in
theorem keeps_typeDefinition {rule : String} {body : Walk (List Directive × TypeBody)}
    (hrule : rule ∉ wordTags) (h : body.Keeps [] fun b => b.2.leaves b.1) :
    Keeps TypeDefinition.leaves t (typeDefinition rule body t) := by
  refine GivesOnly.checked (Walk.Keeps.whole ?_ hrule)
  exact keeps_description.bind fun _ => keeps_name.bind fun _ => h.bind fun _ => .pure rfl

theorem keeps_scalarBody : scalarBody.Keeps [] fun b => b.2.leaves b.1 :=
  keeps_directives.bind fun _ => .pure rfl

theorem keeps_fieldsBody (owner : FieldOwner) :
    (fieldsBody owner).Keeps [] fun b => b.2.leaves b.1 :=
  keeps_interfaces.bind fun _ => keeps_directives.bind fun _ => keeps_fields.bind fun _ =>
    .pure rfl

theorem keeps_unionBody : unionBody.Keeps [] fun b => b.2.leaves b.1 :=
  keeps_directives.bind fun _ => keeps_unionMembers.bind fun _ => .pure rfl

theorem keeps_enumBody : enumBody.Keeps [] fun b => b.2.leaves b.1 :=
  keeps_directives.bind fun _ => keeps_enumValues.bind fun _ => .pure rfl

theorem keeps_inputBody : inputBody.Keeps [] fun b => b.2.leaves b.1 :=
  keeps_directives.bind fun _ => keeps_inputFields.bind fun _ => .pure rfl

/-! Type extensions. -/

omit [Machine] in
theorem keeps_typeExtension {α : Type} {rule : String} {clauses : Walk α}
    {choose : α → Option ExtensionBody} {leaves : α → List Leaf} (hrule : rule ∉ wordTags)
    (h : clauses.Keeps [] leaves)
    (hchoose : ∀ c body, choose c = some body → leaves c = body.leaves) :
    Keeps TypeExtension.leaves t (typeExtension rule clauses choose t) := by
  have hparts : Keeps (fun p => [.word p.1] ++ leaves p.2) t (t.whole rule do
      let name ← Walk.name
      let found ← clauses
      return (name, found)) :=
    Walk.Keeps.whole (keeps_name.bind fun _ => h.bind fun _ => .pure rfl) hrule
  refine hparts.bind fun p hp => ?_
  obtain ⟨name, found⟩ := p
  dsimp only
  cases hbody : choose found with
  | none => trivial
  | some body =>
    cases checkNames [("name", name)] with
    | error e => trivial
    | ok _ =>
      rw [show t.leaves = [.word name] ++ leaves found from hp, hchoose found body hbody]
      rfl

omit [Machine] in
theorem leaves_onlyDirectives {withDirectives : List Directive → ExtensionBody}
    (h : ∀ ds, (withDirectives ds).leaves = directiveLeaves ds) {ds : List Directive}
    {body : ExtensionBody} (hbody : onlyDirectives withDirectives ds = some body) :
    directiveLeaves ds = body.leaves := by
  cases ds with
  | nil => cases hbody
  | cons d ds =>
    obtain rfl := Option.some.inj hbody
    exact (h _).symm

/-- The leaves of the clauses of an extension of a type with fields. -/
def FieldsClauses.leaves (c : FieldsClauses) : List Leaf :=
  wordLeaves c.interfaces ++ directiveLeaves c.directives ++ c.fields.flatMap FieldDefinition.leaves

omit [Machine] in
theorem leaves_fieldsClauses {owner : FieldOwner} {c : FieldsClauses} {body : ExtensionBody}
    (h : c.body owner = some body) : c.leaves = body.leaves := by
  obtain ⟨interfaces, ds, fields⟩ := c
  unfold FieldsClauses.body at h
  cases fields with
  | cons f fs =>
    obtain rfl := Option.some.inj h
    rfl
  | nil =>
    cases ds with
    | cons d ds =>
      obtain rfl := Option.some.inj h
      simp [FieldsClauses.leaves, ExtensionBody.leaves]
    | nil =>
      cases interfaces with
      | nil => cases h
      | cons n ns =>
        obtain rfl := Option.some.inj h
        simp [FieldsClauses.leaves, ExtensionBody.leaves, directiveLeaves]

theorem keeps_fieldsExtension {rule : String} {owner : FieldOwner} (hrule : rule ∉ wordTags) :
    Keeps TypeExtension.leaves t (fieldsExtension rule owner t) :=
  have hclauses : fieldsClauses.Keeps [] FieldsClauses.leaves :=
    keeps_interfaces.bind fun _ => keeps_directives.bind fun _ => keeps_fields.bind fun _ =>
      .pure rfl
  keeps_typeExtension hrule hclauses fun _ _ h => leaves_fieldsClauses h

/-- An extension with directives, and a clause with items of one sort. -/
theorem keeps_itemsExtension {α : Type} {rule : String} {items : Walk (List α)}
    {leaves : List α → List Leaf} {withItems : List Directive → List α → ExtensionBody}
    {withDirectives : List Directive → ExtensionBody} (hrule : rule ∉ wordTags)
    (h : items.Keeps [] leaves) (hnil : leaves [] = [])
    (hitems : ∀ ds xs, (withItems ds xs).leaves = directiveLeaves ds ++ leaves xs)
    (hdirectives : ∀ ds, (withDirectives ds).leaves = directiveLeaves ds) :
    Keeps TypeExtension.leaves t (typeExtension rule (directivesAnd items)
      (itemsOrDirectives withItems withDirectives) t) := by
  have hclauses : (directivesAnd items).Keeps [] fun p => directiveLeaves p.1 ++ leaves p.2 :=
    keeps_directives.bind fun _ => h.bind fun _ => .pure rfl
  refine keeps_typeExtension hrule hclauses fun c body hbody => ?_
  obtain ⟨ds, xs⟩ := c
  cases xs with
  | nil =>
    show directiveLeaves ds ++ leaves [] = _
    rw [hnil, List.append_nil]
    exact leaves_onlyDirectives hdirectives hbody
  | cons x xs =>
    obtain rfl := Option.some.inj hbody
    exact (hitems _ _).symm

/-! Schema blocks. -/

theorem gives_rootEntry_leaves :
    GivesOnly (fun e => t.leaves = [.word e.2] ∧ t.rootOperation? = some e.1) (rootEntry t) := by
  have hreads : Walk.Reads (do
      let typeTree ← Walk.next ["operation_type"]
      let o ← Walk.lift (operationType typeTree)
      let nameTree ← Walk.next ["named_type"]
      let name ← Walk.lift (namedType nameTree)
      return (o, name)) fun ts e => ∃ typeTree nameTree, ts = [typeTree, nameTree] ∧
        nameTree.leaves = [.word e.2] ∧ typeTree.leaves = [] ∧ ∃ span tag text tokenSpan,
          typeTree = .rule "operation_type" span [.token tag text tokenSpan] ∧
            OperationType.ofWord? text = some e.1 := by
    refine Walk.Reads.next.bind fun ts₁ u h₁ => ?_
    refine Walk.Reads.bind (.lift (P := fun ts o => ts = [] ∧ u.leaves = [] ∧
      ∃ span tag text tokenSpan, u = .rule "operation_type" span [.token tag text tokenSpan] ∧
        OperationType.ofWord? text = some o)
      (gives_operationType.mono fun o ho => ⟨rfl, ho⟩)) fun ts₂ o h₂ => ?_
    refine Walk.Reads.next.bind fun ts₃ v h₃ => ?_
    refine Walk.Reads.bind (.lift (P := fun ts n => ts = [] ∧ v.leaves = [.word n])
      (keeps_namedType.mono fun n hn => ⟨rfl, hn⟩)) fun ts₄ n h₄ => .pure ?_
    exact ⟨u, v, by rw [h₁.1, h₂.1, h₃.1, h₄.1]; rfl, h₄.2, h₂.2⟩
  refine (Walk.Reads.whole hreads).mono ?_
  rintro e ⟨span, _, rfl, u, v, rfl, hv, hu, _, _, _, _, rfl, ho⟩
  exact ⟨by rw [ParseTree.leaves_rule (by decide)]; simp [hu, hv], ho⟩

/-- The entries of an operation. -/
def entries (o : OperationType) (ts : List ParseTree) : List ParseTree :=
  ts.filter (·.rootOperation? = some o)

theorem addRoot_spec {roots : RootTypes} : GivesOnly (fun r => t.rootOperation?.isSome = true ∧
    ∀ o, wordLeaves (r.get o).toList = wordLeaves (roots.get o).toList ++ leavesOf (entries o [t]))
    (addRoot roots t) := by
  refine gives_rootEntry_leaves.bind fun e he => ?_
  obtain ⟨p, name⟩ := e
  obtain ⟨hleaves, hoperation⟩ := he
  dsimp only at *
  cases hroot : roots.get p with
  | some _ => trivial
  | none =>
    refine ⟨by rw [hoperation]; rfl, fun o => ?_⟩
    by_cases ho : p = o
    · subst ho
      have hget : (roots.set name p).get p = some name := by cases p <;> rfl
      simp [entries, hoperation, hget, hroot, hleaves, wordLeaves]
    · have hget : (roots.set name p).get o = roots.get o := by
        cases p <;> cases o <;> first | rfl | exact absurd rfl ho
      simp [entries, hoperation, hget, ho]

theorem addRoots_spec {roots : RootTypes} : GivesOnly (fun r =>
    (∀ t ∈ ts, t.rootOperation?.isSome = true) ∧
      ∀ o, wordLeaves (r.get o).toList = wordLeaves (roots.get o).toList ++ leavesOf (entries o ts))
    (ts.foldlM addRoot roots) := by
  induction ts generalizing roots with
  | nil => exact ⟨fun t ht => (List.not_mem_nil ht).elim, fun o => by simp [entries]⟩
  | cons t ts ih =>
    rw [List.foldlM_cons]
    refine addRoot_spec.bind fun r hr => ih.mono fun s hs =>
      ⟨List.forall_mem_cons.mpr ⟨hr.1, hs.1⟩, fun o => ?_⟩
    have hentries : entries o (t :: ts) = entries o [t] ++ entries o ts :=
      List.filter_append [t] ts
    rw [hs.2 o, hr.2 o, hentries, ParseTree.leavesOf_append, List.append_assoc]

omit [Machine] in
/-- In front of the entries of a schema block there is nothing that looks like one. -/
theorem leavesOf_rootsLast {front : List ParseTree} {roots : RootTypes}
    (hfront : ∀ t ∈ front, t.rootOperation? = none)
    (hts : ∀ t ∈ ts, t.rootOperation?.isSome = true)
    (hroots : ∀ o, wordLeaves (roots.get o).toList = leavesOf (entries o ts)) :
    leavesOf (rootsLast (front ++ ts)) = leavesOf front ++ roots.leaves := by
  have hothers : (front ++ ts).filter (·.rootOperation?.isNone) = front := by
    rw [List.filter_append, List.filter_eq_self.mpr fun t ht => by simp [hfront t ht],
      List.filter_eq_nil_iff.mpr fun t ht => by simpa [Option.isSome_iff_ne_none] using hts t ht,
      List.append_nil]
  have hentries (o : OperationType) : (front ++ ts).filter (·.rootOperation? = some o) =
      entries o ts := by
    rw [List.filter_append, List.filter_eq_nil_iff.mpr fun t ht => by simp [hfront t ht]]
    rfl
  have hleaves (os : List OperationType) : leavesOf (os.flatMap fun o => entries o ts) =
      os.flatMap fun o => wordLeaves (roots.get o).toList := by
    induction os with
    | nil => simp
    | cons o os ih =>
      rw [List.flatMap_cons, List.flatMap_cons, ParseTree.leavesOf_append, ih, hroots]
  unfold rootsLast
  simp only [hothers, hentries]
  rw [ParseTree.leavesOf_append, hleaves]
  rfl

omit [Machine] in
theorem rootOperation?_eq_none (h : t.tag ≠ "root_operation_type_definition") :
    t.rootOperation? = none := by
  unfold ParseTree.rootOperation?
  split
  · exact absurd rfl h
  · rfl

omit [Machine] in
theorem tagged_description :
    description.Reads fun ts _ => ∀ t ∈ ts, t.tag = "description" := by
  refine Walk.Reads.optional.bind fun ts o ho => ?_
  obtain ⟨rfl, htag⟩ := ho
  have hall : ∀ t ∈ o.toList, t.tag = "description" := by simpa using htag
  cases o with
  | none => exact .pure (by simp)
  | some t =>
    refine (Walk.Reads.lift_nothing _).bind fun ts₁ u h₁ =>
      (Walk.Reads.lift_nothing _).bind fun ts₂ p h₂ => .pure ?_
    simpa [h₁, h₂] using hall

theorem reads_rootTypes : rootTypes.Reads fun ts roots => ∀ front : List ParseTree,
    (∀ t ∈ front, t.rootOperation? = none) →
      leavesOf (rootsLast (front ++ ts)) = leavesOf front ++ roots.leaves := by
  refine Walk.Reads.repeated.bind fun ts us hus => ?_
  obtain ⟨rfl, -⟩ := hus
  refine .lift (addRoots_spec.mono fun roots hroots front hfront => ?_)
  rw [List.append_nil]
  exact leavesOf_rootsLast hfront hroots.1 fun o => by
    rw [hroots.2 o]
    cases o <;> rfl

omit [Machine] in
theorem withSortedRoots_leaves {tag : String} {span : Option Span}
    (h : tag ∈ ParseTree.schemaTags) :
    (ParseTree.rule tag span ts).withSortedRoots.leaves = leavesOf (rootsLast ts) := by
  rw [ParseTree.withSortedRoots, if_pos h]
  refine ParseTree.leaves_rule ?_
  rcases (by simpa [ParseTree.schemaTags] using h :
    tag = "schema_definition" ∨ tag = "schema_extension") with rfl | rfl <;> decide

omit [Machine] in
theorem withSortedRoots_eq (h : t.tag ∉ ParseTree.schemaTags) : t.withSortedRoots = t := by
  cases t with
  | token tag text span => rfl
  | rule tag span ts =>
    rw [ParseTree.withSortedRoots, if_neg (show tag ∉ ParseTree.schemaTags from h)]

theorem sorted_schemaDefinition :
    GivesOnly (fun s => t.withSortedRoots.leaves = s.leaves) (schemaDefinition t) := by
  have hreads : Walk.Reads (do
      let description ← description
      let directives ← directives
      let roots ← rootTypes
      return SchemaDefinition.mk description directives roots)
      fun ts s => leavesOf (rootsLast ts) = s.leaves := by
    refine (keeps_description.and tagged_description).bind fun ts₁ d h₁ =>
      (keeps_directives.and Walk.tagged_clause).bind fun ts₂ ds h₂ =>
      reads_rootTypes.bind fun ts₃ roots h₃ => .pure ?_
    have hfront : ∀ t ∈ ts₁ ++ ts₂, t.rootOperation? = none := by
      intro t ht
      refine rootOperation?_eq_none ?_
      rcases List.mem_append.mp ht with ht | ht
      · rw [h₁.2 t ht]
        decide
      · rw [h₂.2 t ht]
        decide
    rw [List.append_nil, ← List.append_assoc, h₃ _ hfront, ParseTree.leavesOf_append]
    exact congrArg (· ++ roots.leaves) (congrArg₂ (· ++ ·) h₁.1 h₂.1)
  refine (Walk.Reads.whole hreads).mono ?_
  rintro s ⟨span, ts, rfl, hs⟩
  exact (withSortedRoots_leaves (by decide)).trans hs

theorem sorted_schemaExtension :
    GivesOnly (fun e => t.withSortedRoots.leaves = e.leaves) (schemaExtension t) := by
  have hreads : Walk.Reads (do
      let directives ← directives
      let roots ← rootTypes
      return (directives, roots))
      fun ts p => leavesOf (rootsLast ts) = directiveLeaves p.1 ++ p.2.leaves := by
    refine (keeps_directives.and Walk.tagged_clause).bind fun ts₁ ds h₁ =>
      reads_rootTypes.bind fun ts₂ roots h₂ => .pure ?_
    have hfront : ∀ t ∈ ts₁, t.rootOperation? = none := fun t ht =>
      rootOperation?_eq_none (by rw [h₁.2 t ht]; decide)
    rw [List.append_nil, h₂ _ hfront]
    exact congrArg (· ++ roots.leaves) h₁.1
  refine (Walk.Reads.whole hreads).bind ?_
  rintro ⟨ds, roots⟩ ⟨span, ts, rfl, hs⟩
  have hleaves : (ParseTree.rule "schema_extension" span ts).withSortedRoots.leaves =
      directiveLeaves ds ++ roots.leaves := (withSortedRoots_leaves (by decide)).trans hs
  dsimp only at *
  cases hempty : roots.isEmpty with
  | false => exact hleaves
  | true =>
    have hroots : roots.leaves = [] := by
      obtain ⟨query, mutation, subscription⟩ := roots
      cases query <;> cases mutation <;> cases subscription <;>
        first
          | rfl
          | exact absurd hempty (by
              simp [RootTypes.isEmpty, RootTypes.operations, OperationType.all, RootTypes.get])
    rw [hroots, List.append_nil] at hleaves
    cases ds with
    | cons d ds => exact hleaves
    | nil => trivial

/-! Directive definitions. -/

omit [Machine] in
theorem keeps_directiveLocation : Keeps (fun l => [.word l.word]) t (directiveLocation t) := by
  refine (Walk.Reads.whole Walk.Reads.next).bind ?_
  rintro u ⟨span, _, rfl, rfl, -⟩
  cases u with
  | rule tag span ts => trivial
  | token tag text span =>
    dsimp only
    split
    · rename_i l hl
      have hword : l.word = text := by simpa using List.find?_some hl
      rw [Gives.pure_iff, ParseTree.leaves, if_pos (by decide), hword]
      rfl
    · trivial

omit [Machine] in
theorem keeps_locations : (Walk.clause "directive_locations" "directive_location"
    directiveLocation).Keeps [] fun ls => wordLeaves (ls.map (·.word)) := by
  refine (Walk.keeps_clause (by decide) fun _ _ => keeps_directiveLocation).mono fun ts ls hls => ?_
  refine hls.trans ?_
  show _ = (ls.map (·.word)).map Leaf.word
  rw [List.map_map]
  exact List.map_eq_flatMap.symm

theorem keeps_directiveDefinition (hbare : ∀ u ∈ t.children, u.tag = "repeatable" → u.leaves = []) :
    Keeps DirectiveDefinition.leaves t (directiveDefinition t) := by
  have hreads : Walk.Reads (do
      let description ← description
      let name ← Walk.name
      let arguments ← argumentsDefinition
      let repeatable ← Walk.optional "repeatable"
      let locations ← Walk.clause "directive_locations" "directive_location" directiveLocation
      return DirectiveDefinition.mk description name arguments repeatable.isSome locations)
      fun ts d => (∀ u ∈ ts, u.tag = "repeatable" → u.leaves = []) → leavesOf ts = d.leaves := by
    refine Walk.Reads.bind keeps_description fun ts₁ d h₁ => Walk.Reads.bind keeps_name
      fun ts₂ n h₂ => Walk.Reads.bind keeps_argumentsDefinition fun ts₃ vs h₃ =>
      Walk.Reads.optional.bind fun ts₄ o h₄ => Walk.Reads.bind keeps_locations
      fun ts₅ ls h₅ => .pure fun hnone => ?_
    have hrepeatable : leavesOf ts₄ = [] := by
      cases o with
      | none => simp [h₄.1]
      | some u =>
        have hu : u ∈ ts₄ := by simp [h₄.1]
        have hleaves := hnone u (by simp [hu]) (h₄.2 u rfl)
        simp [h₄.1, hleaves]
    simp only [ParseTree.leavesOf_append, hrepeatable, DirectiveDefinition.leaves, ← h₁, ← h₂, ← h₃,
      ← h₅, List.nil_append, List.append_nil, List.append_assoc]
  refine (Walk.Reads.whole hreads).bind ?_
  rintro d ⟨span, ts, rfl, hd⟩
  dsimp only
  split
  · trivial
  · cases checkNames [("name", d.name)] with
    | error e => trivial
    | ok _ => exact (ParseTree.leaves_rule (by decide)).trans (hd hbare)

end GraphQLDoc.Conversion
