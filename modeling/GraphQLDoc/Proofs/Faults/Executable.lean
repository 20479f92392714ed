import GraphQLDoc.Proofs.Faults.Values
import GraphQLDoc.Proofs.Leaves.Executable

/-!
The conversions of operations, fragments and selections find the faults of their trees.
-/
namespace GraphQLDoc.Conversion

open ParseTree (faultsIn)

variable {t : ParseTree}

section

variable [Machine]

omit [Machine] in
theorem finds_operationType : Finds t.faults (operationType t) := by
  refine Walk.finds_child (by decide) fun u hu => (finds_tokenText ?_).thenNone fun text => ?_
  · have hwords : ∀ tag ∈ ["QUERY", "MUTATION", "SUBSCRIPTION"], tag ∉ ["INT", "FLOAT", "STRING"] := by
      decide
    exact hwords _ hu
  · split
    · exact .pure _
    · exact fun p span he => nomatch he

theorem finds_variableDefinition : Finds t.faults (variableDefinition t) := by
  refine Walk.Finds.whole (.next fun u _ => .lift finds_variableName fun n _ => ?_) (by decide)
  exact finds_type.bind fun r => finds_defaultValue.bind fun v => finds_directives.bind fun ds =>
    .pure _

omit [Machine] in
theorem finds_namedTypeChild {rule : String}
    (hrule : rule ∉ ParseTree.spelledTags ++ ParseTree.faultyTags) :
    Finds t.faults (t.whole rule do
      let child ← Walk.next ["named_type"]
      Walk.lift (namedType child)) :=
  Walk.Finds.whole (.next fun _ _ => .lifted finds_namedType) hrule

omit [Machine] in
theorem finds_typeCondition : typeCondition.Finds [] :=
  .optional (.pure none) fun _ _ => .lift (finds_namedTypeChild (by decide)) fun _ _ => .pure _

omit [Machine] in
theorem finds_fieldAlias : fieldAlias.Finds [] :=
  .optional (.pure none) fun _ _ => .lift (Walk.Finds.whole finds_name (by decide)) fun _ _ =>
    .pure _

theorem finds_fragmentSpread : Finds t.faults (fragmentSpread t) := by
  refine Finds.thenNone (Walk.Finds.whole ((finds_nameOf (by decide)).bind fun n =>
    finds_directives.bind fun ds => .pure _) (by decide)) fun p => ?_
  exact (Finds.checkNames _).thenNone fun _ => .pure _

/-- A header has no faults, but the selection set behind it is only looked for. -/
theorem blames_fieldHeader : fieldHeader.Blames (Walk.behind []) fun ts h => ∃ front, ∃ o : Option ParseTree,
    ts = front ++ o.toList ∧ h.selects = o.isSome ∧ faultsIn front = [] := by
  refine finds_fieldAlias.andThen fun ts₁ a h₁ => finds_name.andThen fun ts₂ n h₂ =>
    finds_arguments.andThen fun ts₃ as h₃ => finds_directives.andThen fun ts₄ ds h₄ =>
    Walk.Blames.optional.bind fun ts₅ o h₅ => .pure ⟨ts₁ ++ ts₂ ++ ts₃ ++ ts₄, o, ?_, rfl, ?_⟩
  · simp [h₅.1]
  · simp only [ParseTree.faultsIn_append, h₁, h₂, h₃, h₄, List.append_nil]

theorem blames_inlineHeader : inlineHeader.Blames (Walk.behind []) fun ts _ =>
    ∃ front u, ts = front ++ [u] ∧ faultsIn front = [] := by
  refine finds_typeCondition.andThen fun ts₁ n h₁ => finds_directives.andThen fun ts₂ ds h₂ =>
    Walk.Blames.next.bind fun ts₃ u h₃ => .pure ⟨ts₁ ++ ts₂, u, ?_, ?_⟩
  · simp [h₃.1]
  · simp only [ParseTree.faultsIn_append, h₁, h₂, List.append_nil]

/-- A field, given that the conversion of its selection set finds the faults. -/
theorem finds_field {span : Option Span} {ts : List ParseTree}
    (ih : ∀ u ∈ ts, Finds u.faults (selectionSet u)) :
    Finds (ParseTree.rule "field" span ts).faults (selection (.rule "field" span ts)) := by
  rw [selection, if_pos rfl, ParseTree.faults_plain (by decide)]
  refine .after (blames_fieldHeader ⟨"field", span, 0, ts⟩) ?_
  rintro ⟨header, c⟩ ⟨_, rest, hts, hc, front, o, rfl, hselects, hfront⟩
  obtain rfl : c = Cursor.past ⟨"field", span, 0, ts⟩ (front ++ o.toList) rest := hc
  cases rest with
  | cons _ _ => exact ConversionError.isAmong_shape
  | nil =>
    obtain rfl : ts = front ++ o.toList := hts.trans (List.append_nil _)
    replace hselects : header.selects = o.isSome := hselects
    rw [ParseTree.faultsIn_append, hfront, List.nil_append]
    have hfield (inner : Option (List Selection)) : Finds [] (do
        checkNames ((header.alternative.toList.map fun a => ("alias", a)) ++
          [("name", header.name)])
        return Selection.field header.alternative header.name header.arguments header.directives
          inner) :=
      (Finds.checkNames _).thenNone fun _ => .pure _
    cases o with
    | none =>
      have hselects : header.selects = false := hselects
      simp only [hselects, Option.toList, ParseTree.faultsIn_nil]
      exact hfield none
    | some u =>
      have hselects : header.selects = true := hselects
      simp only [hselects, Option.toList, ParseTree.faultsIn_singleton]
      show Finds _ ((selectionSetAt ((0 + (front ++ [u]).length) - 1) (front ++ [u])).map some >>= _)
      rw [Nat.zero_add, selectionSetAt_last]
      exact ((ih u (by simp)).map some).thenNone fun inner => hfield inner

theorem finds_inlineFragment {span : Option Span} {ts : List ParseTree}
    (ih : ∀ u ∈ ts, Finds u.faults (selectionSet u)) :
    Finds (ParseTree.rule "inline_fragment" span ts).faults
      (selection (.rule "inline_fragment" span ts)) := by
  rw [selection_inline, ParseTree.faults_plain (by decide)]
  refine .after (blames_inlineHeader ⟨"inline_fragment", span, 0, ts⟩) ?_
  rintro ⟨header, c⟩ ⟨_, rest, hts, hc, front, u, rfl, hfront⟩
  obtain rfl : ts = front ++ u :: rest := by simpa using hts
  obtain rfl : c = Cursor.past _ (front ++ [u]) rest := hc
  have hset : selectionSetAt ((0 + (front ++ [u]).length) - 1) (front ++ u :: rest) =
      selectionSet u := by
    rw [Nat.zero_add, List.length_append, List.length_singleton, Nat.add_sub_cancel,
      selectionSetAt_append]
  show Finds _ (selectionSetAt ((0 + (front ++ [u]).length) - 1) (front ++ u :: rest) >>= _)
  rw [hset, ParseTree.faultsIn_append, hfront, List.nil_append, ParseTree.faultsIn_cons]
  have hinner := ih u (by simp)
  cases rest with
  | cons _ _ =>
    refine .after (GraphQLDoc.Blames.mono hinner (List.subset_append_left _ _)) ?_
    exact fun inner _ p span he => nomatch he
  | nil =>
    rw [ParseTree.faultsIn_nil, List.append_nil]
    exact hinner.thenNone fun inner => .pure _

end

mutual

theorem finds_selectionSet [Machine] (t : ParseTree) : Finds t.faults (selectionSet t) := by
  cases t with
  | token tag text span =>
    rw [selectionSet]
    exact fun p span he => nomatch he
  | rule tag span ts =>
    rw [selectionSet]
    split
    · rename_i htag
      subst htag
      rw [ParseTree.faults_plain (by decide)]
      exact .nestedIn fun _ => finds_items (f := id) (finds_selections ts)
    · exact ConversionError.isAmong_shape
termination_by sizeOf t

theorem finds_selections [Machine] (ts : List ParseTree) :
    Finds (faultsIn (ts.takeWhile (·.tag ∈ selectionTags))) (selections ts) := by
  cases ts with
  | nil => rw [selections]; exact ParseTree.faultsIn_nil
  | cons t ts =>
    rw [selections]
    split
    · rename_i htag
      rw [List.takeWhile_cons_of_pos (by simpa using htag), ParseTree.faultsIn_cons]
      exact (finds_selection t htag).bind fun s => (finds_selections ts).thenNone fun ss => .pure _
    · rename_i htag
      rw [List.takeWhile_cons_of_neg (by simpa using htag)]
      exact ParseTree.faultsIn_nil
termination_by sizeOf ts

theorem finds_selection [Machine] (t : ParseTree) (ht : t.tag ∈ selectionTags) :
    Finds t.faults (selection t) := by
  cases t with
  | token tag text span =>
    rw [selection]
    exact fun p span he => nomatch he
  | rule tag span ts =>
    have ih : ∀ u ∈ ts, Finds u.faults (selectionSet u) := fun u hu =>
      have hless := List.sizeOf_lt_of_mem hu
      finds_selectionSet u
    rcases (by simpa [selectionTags, ParseTree.tag] using ht :
      tag = "field" ∨ tag = "fragment_spread" ∨ tag = "inline_fragment") with rfl | rfl | rfl
    · exact finds_field ih
    · rw [selection, if_neg (by decide), if_pos rfl]
      exact finds_fragmentSpread
    · exact finds_inlineFragment ih
termination_by sizeOf t

end

variable [Machine]

/-! Definitions. -/

theorem finds_nextSelectionSet : nextSelectionSet.Finds [] :=
  .next fun t _ => .lifted (finds_selectionSet t)

omit [Machine] in
theorem finds_operationName : operationName.Finds [] := by
  refine .optional (.pure none) fun t ht => ?_
  rw [ParseTree.faults_word (by rw [ht]; decide)]
  exact .lift (finds_nameToken t "name") fun p _ => .pure (some p.1)

theorem finds_operation : Finds t.faults (operation t) := by
  refine Finds.checked (Walk.Finds.whole (.get fun c => ?_) (by decide))
  split
  · exact finds_nextSelectionSet.bind fun ss => .pure _
  · refine .next fun u _ => .lift finds_operationType fun o _ => ?_
    exact finds_operationName.bind fun n =>
      (Walk.finds_clause (by decide) fun _ _ => finds_variableDefinition).bind fun vs =>
      finds_directives.bind fun ds => finds_nextSelectionSet.bind fun ss => .pure _

/-- The clauses of a fragment behind its name. -/
theorem finds_fragmentClauses (t : ParseTree) (name : String) : Walk.Finds [] (do
    match ← typeCondition with
    | none => Walk.lift (.error (.shape (.noTypeCondition name) t.span?))
    | some condition =>
      let directives ← directives
      let inner ← nextSelectionSet
      return Fragment.mk name condition directives inner) := by
  refine finds_typeCondition.bind fun n => ?_
  cases n with
  | none => exact .lifted ConversionError.isAmong_shape
  | some condition =>
    exact finds_directives.bind fun ds => finds_nextSelectionSet.bind fun ss => .pure _

omit [Machine] in
theorem eq_rule_of_nameToken {rule : String} {p : String × Span} (h : t.nameToken rule = .ok p) :
    ∃ span tag, t = .rule t.tag span [.token tag p.1 p.2] := by
  unfold ParseTree.nameToken at h
  split at h
  · obtain rfl := Except.ok.inj h
    exact ⟨_, _, rfl⟩
  · cases h

omit [Machine] in
theorem fragmentFaults_eq {u : ParseTree} {p : String × Span} {rest : List ParseTree}
    (htag : u.tag = "fragment_name") (h : u.nameToken "fragment_name" = .ok p) :
    ParseTree.fragmentFaults (u :: rest) = if p.1 = "on" then [(.fragmentName, some p.2)] else [] := by
  obtain ⟨span, tag, hu⟩ := eq_rule_of_nameToken h
  rw [htag] at hu
  rw [hu, ParseTree.fragmentFaults]

omit [Machine] in
theorem blames_nameToken {faults : List ParseTree → List TreeFault} (t : ParseTree) (rule : String) :
    (Walk.lift (t.nameToken rule)).Blames faults fun ts p => ts = [] ∧ t.nameToken rule = .ok p := by
  refine .lift (?_ : Blames [] _ _) fun ts => List.nil_subset _
  have hname := finds_nameToken t rule
  cases hp : t.nameToken rule with
  | ok p => exact ⟨rfl, rfl⟩
  | error e =>
    rw [hp] at hname
    exact hname

/-- The name of a fragment is looked at before its clauses are read. -/
theorem finds_fragment : Finds t.faults (fragment t) := by
  refine Finds.checked (Gives.mono (Walk.Blames.whole
    (?_ : Walk.Blames (fun ts => ParseTree.fragmentFaults ts ++ faultsIn ts) _
      fun ts _ => ParseTree.fragmentFaults ts ++ faultsIn ts = []) fun span ts ht => ?_) ?_)
  · refine Walk.Blames.next.bind fun ts u hu => ?_
    obtain ⟨rfl, htag⟩ := hu
    have htag := List.mem_singleton.mp htag
    have hword : u.faults = [] := ParseTree.faults_word (by rw [htag]; decide)
    refine (blames_nameToken u "fragment_name").bind fun ts p hp => ?_
    obtain ⟨rfl, hp⟩ := hp
    simp only [List.nil_append, List.singleton_append, ParseTree.faultsIn_cons, hword,
      fragmentFaults_eq htag hp]
    split
    · have hon : (.fragmentName, some p.2) ∈ [((.fragmentName, some p.2) : TreeFault)] :=
        List.mem_singleton_self _
      have herror : Blames [(.fragmentName, some p.2)] (fun _ => False)
          (.error (.literal .fragmentName (some p.2)) : Converted PUnit) := by
        intro q span he
        cases he
        exact hon
      exact Walk.Blames.bind (P := fun _ _ => False)
        (.lift herror fun ts => List.subset_append_left _ _) fun ts x hx => hx.elim
    · exact finds_fragmentClauses t p.1
  · rw [ht, ParseTree.faults_rule (by decide)]
    exact List.Subset.refl _
  · rintro f ⟨span, ts, rfl, hf⟩
    rw [ParseTree.faults_rule (by decide)]
    exact hf

end GraphQLDoc.Conversion
