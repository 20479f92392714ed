import GraphQLDoc.Proofs.Conversion.Executable
import GraphQLDoc.Proofs.Leaves.Values

/-!
The conversions of operations, fragments and selections keep the leaves of their trees.
-/
namespace GraphQLDoc.Conversion

open ParseTree (leavesOf wordTags)

variable {t : ParseTree}

section

variable [Machine]

omit [Machine] in
theorem gives_operationType : GivesOnly (fun o => t.leaves = [] ∧ ∃ span tag text tokenSpan,
    t = .rule "operation_type" span [.token tag text tokenSpan] ∧
      OperationType.ofWord? text = some o) (operationType t) := by
  unfold operationType
  refine (Walk.Reads.whole Walk.Reads.next).bind ?_
  rintro u ⟨span, ts, rfl, rfl, htag⟩
  cases u with
  | rule tag span ts => trivial
  | token tag text tokenSpan =>
    have hnone : Leaf.ofToken tag text = [] := by
      rcases (by simpa [ParseTree.tag] using htag :
        tag = "QUERY" ∨ tag = "MUTATION" ∨ tag = "SUBSCRIPTION") with rfl | rfl | rfl <;> rfl
    refine Gives.bind (P := (· = text)) rfl ?_
    rintro _ rfl
    split
    · rename_i o ho
      refine ⟨?_, span, tag, _, tokenSpan, rfl, ho⟩
      rw [ParseTree.leaves_rule (by decide), ParseTree.leavesOf_singleton, ParseTree.leaves, hnone]
    · trivial

theorem keeps_variableDefinition : Keeps VariableDefinition.leaves t (variableDefinition t) := by
  refine Walk.Keeps.whole (.next fun u _ => .lift keeps_variableName fun n => ?_) (by decide)
  exact keeps_type.bind fun r => keeps_defaultValue.bind fun v => keeps_directives.bind fun ds =>
    .pure rfl

omit [Machine] in
theorem keeps_namedTypeChild {rule : String} (hrule : rule ∉ wordTags) :
    Keeps (fun n => [.word n]) t (t.whole rule do
      let child ← Walk.next ["named_type"]
      Walk.lift (namedType child)) :=
  Walk.Keeps.whole (.next fun _ _ => .lifted keeps_namedType) hrule

omit [Machine] in
theorem keeps_typeCondition : typeCondition.Keeps [] fun n => wordLeaves n.toList :=
  .optional (.pure rfl) fun _ _ => .lift (keeps_namedTypeChild (by decide)) fun _ => .pure rfl

omit [Machine] in
theorem keeps_fieldAlias : fieldAlias.Keeps [] fun n => wordLeaves n.toList :=
  .optional (.pure rfl) fun _ _ => .lift (Walk.Keeps.whole keeps_name (by decide)) fun _ =>
    .pure rfl

theorem keeps_fragmentSpread : Keeps Selection.leaves t (fragmentSpread t) := by
  have h : Keeps (fun p => [.word p.1] ++ directiveLeaves p.2) t (t.whole "fragment_spread" do
      let name ← Walk.nameOf "fragment_name"
      let directives ← directives
      return (name, directives)) :=
    Walk.Keeps.whole ((keeps_nameOf (by decide)).bind fun n => keeps_directives.bind fun ds =>
      .pure rfl) (by decide)
  refine h.bind fun p hp => ?_
  obtain ⟨name, ds⟩ := p
  dsimp only
  cases checkNames [("name", name)] with
  | error e => trivial
  | ok _ => exact hp

/-- The leaves of a field but for its selection set. -/
def FieldHeader.leaves (h : FieldHeader) : List Leaf :=
  wordLeaves h.alternative.toList ++ [.word h.name] ++ h.arguments.flatMap Argument.leaves ++
    directiveLeaves h.directives

theorem reads_fieldHeader : fieldHeader.Reads fun ts h => ∃ front, ∃ o : Option ParseTree,
    ts = front ++ o.toList ∧ h.selects = o.isSome ∧ leavesOf front = h.leaves := by
  refine Walk.Reads.bind keeps_fieldAlias fun ts₁ a h₁ => Walk.Reads.bind keeps_name
    fun ts₂ n h₂ => Walk.Reads.bind keeps_arguments fun ts₃ as h₃ =>
    Walk.Reads.bind keeps_directives fun ts₄ ds h₄ => Walk.Reads.optional.bind fun ts₅ o h₅ =>
    .pure ⟨ts₁ ++ ts₂ ++ ts₃ ++ ts₄, o, ?_, rfl, ?_⟩
  · simp [h₅.1]
  · simp only [ParseTree.leavesOf_append, FieldHeader.leaves, ← h₁, ← h₂, ← h₃, ← h₄,
      List.nil_append]

theorem reads_inlineHeader : inlineHeader.Reads fun ts h => ∃ front u, ts = front ++ [u] ∧
    leavesOf front = wordLeaves h.1.toList ++ directiveLeaves h.2 := by
  refine Walk.Reads.bind keeps_typeCondition fun ts₁ n h₁ => Walk.Reads.bind keeps_directives
    fun ts₂ ds h₂ => Walk.Reads.next.bind fun ts₃ u h₃ => .pure ⟨ts₁ ++ ts₂, u, ?_, ?_⟩
  · simp [h₃.1]
  · simp only [ParseTree.leavesOf_append, ← h₁, ← h₂, List.nil_append]

/-- A field, given what the conversion of its selection set keeps. -/
theorem keeps_field {span : Option Span} {ts : List ParseTree}
    (ih : ∀ u ∈ ts, Keeps Selection.leavesOf u (selectionSet u)) :
    Keeps Selection.leaves (.rule "field" span ts) (selection (.rule "field" span ts)) := by
  rw [selection, if_pos rfl]
  refine (reads_fieldHeader ⟨"field", span, 0, ts⟩).bind ?_
  rintro ⟨header, c⟩ ⟨_, rest, hts, hc, front, o, rfl, hselects, hfront⟩
  obtain rfl : c = Cursor.past ⟨"field", span, 0, ts⟩ (front ++ o.toList) rest := hc
  cases rest with
  | cons _ _ => trivial
  | nil =>
    replace hts : ts = front ++ o.toList := hts.trans (List.append_nil _)
    replace hselects : header.selects = o.isSome := hselects
    have hleaves : (ParseTree.rule "field" span ts).leaves =
        header.leaves ++ leavesOf o.toList := by
      rw [ParseTree.leaves_rule (by decide), hts, ParseTree.leavesOf_append]
      exact congrArg (· ++ _) hfront
    have hfield (inner : Option (List Selection))
        (hinner : leavesOf o.toList = inner.elim [] Selection.leavesOf) :
        GivesOnly (fun s => (ParseTree.rule "field" span ts).leaves = s.leaves) (do
          checkNames ((header.alternative.toList.map fun a => ("alias", a)) ++
            [("name", header.name)])
          return Selection.field header.alternative header.name header.arguments header.directives
            inner) := by
      generalize checkNames _ = r
      cases r with
      | error e => trivial
      | ok _ =>
        refine hleaves.trans ?_
        rw [hinner]
        cases inner <;> rfl
    cases o with
    | none =>
      have hselects : header.selects = false := hselects
      simp only [hselects]
      exact hfield none ParseTree.leavesOf_nil
    | some u =>
      have hselects : header.selects = true := hselects
      simp only [hselects]
      show GivesOnly _ ((selectionSetAt ((0 + (front ++ [u]).length) - 1) ts).map some >>= _)
      have hset : Keeps (fun inner => inner.elim [] Selection.leavesOf) u
          ((selectionSet u).map some) := (ih u (by simp [hts])).map fun _ => rfl
      rw [show ts = front ++ [u] from hts] at hfield ⊢
      rw [Nat.zero_add, selectionSetAt_last]
      exact hset.bind fun inner hinner => hfield inner (ParseTree.leavesOf_singleton.trans hinner)

theorem keeps_inlineFragment {span : Option Span} {ts : List ParseTree}
    (ih : ∀ u ∈ ts, Keeps Selection.leavesOf u (selectionSet u)) :
    Keeps Selection.leaves (.rule "inline_fragment" span ts)
      (selection (.rule "inline_fragment" span ts)) := by
  rw [selection_inline]
  refine (reads_inlineHeader ⟨"inline_fragment", span, 0, ts⟩).bind ?_
  rintro ⟨header, c⟩ ⟨_, rest, hts, hc, front, u, rfl, hfront⟩
  obtain rfl : ts = front ++ u :: rest := by simpa using hts
  obtain rfl : c = Cursor.past _ (front ++ [u]) rest := hc
  have hset : selectionSetAt ((0 + (front ++ [u]).length) - 1) (front ++ u :: rest) =
      selectionSet u := by
    rw [Nat.zero_add, List.length_append, List.length_singleton, Nat.add_sub_cancel,
      selectionSetAt_append]
  show GivesOnly _ (selectionSetAt ((0 + (front ++ [u]).length) - 1) (front ++ u :: rest) >>= _)
  rw [hset]
  refine (ih u (by simp)).bind fun inner hinner => ?_
  cases rest with
  | cons _ _ => trivial
  | nil =>
    refine (ParseTree.leaves_rule (by decide)).trans ?_
    rw [ParseTree.leavesOf_append, ParseTree.leavesOf_singleton, hfront, hinner]
    rfl

end

mutual

theorem keeps_selectionSet [Machine] (t : ParseTree) : Keeps Selection.leavesOf t (selectionSet t) := by
  cases t with
  | token tag text span =>
    rw [selectionSet]
    trivial
  | rule tag span ts =>
    rw [selectionSet]
    split
    · rename_i htag
      subst htag
      refine GivesOnly.nestedIn fun _ => (keeps_selections ts).bind fun ss hss => ?_
      cases hfinish :
          ((⟨"selection_set", span, 0, ts⟩ : Cursor).repeated selectionTags).2.finish with
      | error e => trivial
      | ok _ =>
        rw [takeWhile_of_finish hfinish] at hss
        exact (ParseTree.leaves_rule (by decide)).trans hss
    · trivial
termination_by sizeOf t

theorem keeps_selections [Machine] (ts : List ParseTree) :
    GivesOnly (fun ss => leavesOf (ts.takeWhile (·.tag ∈ selectionTags)) = Selection.leavesOf ss)
      (selections ts) := by
  cases ts with
  | nil => rw [selections]; exact ParseTree.leavesOf_nil
  | cons t ts =>
    rw [selections]
    split
    · rename_i htag
      refine (keeps_selection t htag).bind fun s hs => (keeps_selections ts).bind fun ss hss => ?_
      show leavesOf _ = Selection.leavesOf (s :: ss)
      rw [List.takeWhile_cons_of_pos (by simpa using htag), ParseTree.leavesOf_cons,
        Selection.leavesOf, hs, hss]
    · rename_i htag
      rw [List.takeWhile_cons_of_neg (by simpa using htag)]
      exact ParseTree.leavesOf_nil
termination_by sizeOf ts

theorem keeps_selection [Machine] (t : ParseTree) (ht : t.tag ∈ selectionTags) :
    Keeps Selection.leaves t (selection t) := by
  cases t with
  | token tag text span =>
    rw [selection]
    trivial
  | rule tag span ts =>
    have ih : ∀ u ∈ ts, Keeps Selection.leavesOf u (selectionSet u) := fun u hu =>
      have hless := List.sizeOf_lt_of_mem hu
      keeps_selectionSet u
    rcases (by simpa [selectionTags, ParseTree.tag] using ht :
      tag = "field" ∨ tag = "fragment_spread" ∨ tag = "inline_fragment") with rfl | rfl | rfl
    · exact keeps_field ih
    · rw [selection, if_neg (by decide), if_pos rfl]
      exact keeps_fragmentSpread
    · exact keeps_inlineFragment ih
termination_by sizeOf t

end

variable [Machine]

/-! Definitions. -/

theorem keeps_nextSelectionSet : nextSelectionSet.Keeps [] Selection.leavesOf :=
  .next fun t _ => .lifted (keeps_selectionSet t)

omit [Machine] in
theorem keeps_operationName : operationName.Keeps [] fun n => wordLeaves n.toList :=
  .optional (.pure rfl) fun _ ht => .lift (keeps_nameToken (by rw [ht]; decide)) fun _ => .pure rfl

theorem keeps_operation : Keeps Operation.leaves t (operation t) := by
  refine GivesOnly.checked (Walk.Keeps.whole ?_ (by decide))
  refine .get fun c => ?_
  split
  · exact keeps_nextSelectionSet.bind fun ss => .pure rfl
  · refine .next fun u _ => .given gives_operationType fun o ho => ?_
    rw [ho.1]
    exact keeps_operationName.bind fun n =>
      (Walk.keeps_clause (by decide) fun _ _ => keeps_variableDefinition).bind fun vs =>
      keeps_directives.bind fun ds => keeps_nextSelectionSet.bind fun ss => .pure rfl

theorem keeps_fragment : Keeps Fragment.leaves t (fragment t) := by
  refine GivesOnly.checked (Walk.Keeps.whole ?_ (by decide))
  refine .next fun u hu => .lift (keeps_nameToken ?_) fun p => ?_
  · rw [List.mem_singleton.mp hu]
    decide
  · obtain ⟨name, span⟩ := p
    dsimp only
    split
    · exact .given (P := fun _ => False) trivial fun _ h => h.elim
    · refine keeps_typeCondition.bind fun n => ?_
      cases n with
      | none => exact .lifted trivial
      | some condition =>
        exact keeps_directives.bind fun ds => keeps_nextSelectionSet.bind fun ss => .pure rfl

end GraphQLDoc.Conversion
