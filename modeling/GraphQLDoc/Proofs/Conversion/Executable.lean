import GraphQLDoc.Conversion.Executable
import GraphQLDoc.Proofs.Conversion.Values

/-!
What the conversions of operations, fragments and selections give on the trees of the grammar.
-/
namespace GraphQLDoc

/-- The keyword of an operation. -/
def OperationType.keyword : OperationType → Keyword
  | query => .query | mutation => .mutation | subscription => .subscription

namespace Conversion

section

variable {g : Grammar} [g.IsUsual] {E : ConversionError → Prop} {w : List Token} {t : ParseTree}
  {ts : List ParseTree}

theorem operationType_eq (h : IsTreeOf g .operationType w t) :
    ∃ o, operationType t = .ok o := by
  obtain ⟨span, inner, rfl, hinner⟩ := h.inside rfl
  obtain ⟨token, htoken, hterminal, -, rfl⟩ := hinner.token
    (OperationType.all.map fun o => .keyword o.keyword) rfl
  obtain ⟨o, -, ho⟩ := List.mem_map.mp hterminal
  obtain ⟨text, n, hn, htext⟩ := Grammar.IsUsual.isLexeme htoken
  rw [← ho] at hn
  rw [word_spec hn] at htext
  have hkept : Derivation.Token.isKept Rule.operationType.keepsWords token = true := by
    simp [Derivation.Token.isKept, ← ho, Rule.keepsWords]
  rw [hkept, if_pos rfl]
  refine ⟨o, ?_⟩
  simp only [Token.leaf, ← ho, htext]
  cases o <;> rfl

theorem gives_nameToken {rule : String} {P : String → Prop} (h : IsNameNode rule P t) :
    Gives E (fun p => P p.1) (t.nameToken rule) := by
  obtain ⟨span, tag, text, textSpan, rfl, hP⟩ := h
  exact hP

theorem gives_typeCondition (h : IsTreeOf g .typeCondition w t) :
    Gives E (fun n => isValidName n = true) (t.whole "type_condition" do
      let child ← Walk.next ["named_type"]
      Walk.lift (namedType child)) :=
  gives_node h rfl rfl (List.forall_mem_singleton.mpr (.skip rfl (.cons (by decide) Clause.feeds_next
    fun _ u ⟨_, _, hu⟩ => .lifted (gives_namedType hu))))

theorem feeds_typeCondition : (Clause.optionalUse .typeCondition).Feeds g E typeCondition
    fun _ n => n.all isValidName = true :=
  (Clause.feeds_node? (r := .typeCondition) rfl fun _ _ h => gives_typeCondition h).mono
    fun _ _ hn => (Option.all_eq_true _ _).mpr hn

theorem feeds_use_typeCondition : (Clause.use .typeCondition).Feeds g E typeCondition
    fun _ n => ∃ name, n = some name ∧ isValidName name = true :=
  Clause.feeds_node (r := .typeCondition) rfl fun _ _ h => gives_typeCondition h

theorem feeds_fieldAlias : (Clause.optionalUse .fieldAlias).Feeds g E fieldAlias
    fun _ n => n.all isValidName = true := by
  have hnode : ∀ w t, IsTreeOf g .fieldAlias w t →
      Gives E (fun n => isValidName n = true) (t.whole "alias" Walk.name) := fun w t h =>
    gives_node h rfl rfl (List.forall_mem_singleton.mpr (.last rfl feeds_name))
  exact (Clause.feeds_node? (r := .fieldAlias) rfl hnode).mono fun _ _ hn =>
    (Option.all_eq_true _ _).mpr hn

variable [m : Machine] (hE : Allows g E)

include hE

theorem gives_variableDefinition (h : IsTreeOf g .variableDefinition w t) :
    Gives E (fun v => v.isValid = true) (variableDefinition t) := by
  refine gives_node h rfl rfl (List.forall_mem_singleton.mpr (.cons (by decide) Clause.feeds_next
    fun _ u ⟨_, _, hu⟩ => .lift (gives_variableName hu) fun n hn =>
    .skip rfl (.cons (by decide) feeds_type fun _ r hr => .cons (by decide) (feeds_defaultValue hE) fun _ v hv =>
    .cons (by decide) (feeds_directives hE) fun _ ds hds => .nil ?_)))
  simp only [VariableDefinition.isValid, hn, hr, hv, hds, Bool.and_self]

theorem gives_fragmentSpread (h : IsTreeOf g .fragmentSpread w t) :
    Gives E (fun s => s.isValid = true) (fragmentSpread t) := by
  have hparts : Gives E (fun p => isValidName p.1 = true ∧ p.2.all (·.isValid) = true)
      (t.whole "fragment_spread" do
        let name ← Walk.nameOf "fragment_name"
        let directives ← directives
        return (name, directives)) :=
    gives_node h rfl rfl (List.forall_mem_singleton.mpr (.skip rfl
      (.cons (by decide) (feeds_nameOf (r := .fragmentName) (by decide)) fun _ n hn =>
      .cons (by decide) (feeds_directives hE) fun _ ds hds => .nil ⟨hn, hds⟩)))
  refine hparts.bind fun p hp => gives_checked ?_ (by simpa using hp.1)
  simp only [Selection.isValid, hp, Bool.and_self]

/-- What the header of a field says of the trees that it was read from. -/
structure IsHeader (g : Grammar) (ts : List ParseTree) (header : FieldHeader) : Prop where
  alternative : header.alternative.all isValidName = true
  name : isValidName header.name = true
  arguments : header.arguments.all (·.isValid) = true
  directives : header.directives.all (·.isValid) = true
  selects : ∃ front, ∃ o : Option ParseTree, ts = front ++ o.toList ∧ header.selects = o.isSome ∧
    ∀ t ∈ o, ∃ w, IsTreeOf g .selectionSet w t

theorem feeds_fieldHeader {cs : List Clause} (hcs : cs ∈ Rule.field.alternatives) :
    Feeds g E cs fieldHeader (IsHeader g) := by
  obtain rfl := List.mem_singleton.mp hcs
  refine .cons (by decide) feeds_fieldAlias fun ts₁ alternative halternative =>
    .cons (by decide) feeds_name fun ts₂ n hn =>
    .cons (by decide) (feeds_arguments hE) fun ts₃ as has =>
    .cons (by decide) (feeds_directives hE) fun ts₄ ds hds =>
    .cons (by decide) (Clause.feeds_optional (r := .selectionSet) rfl) fun ts₅ o ho => .nil ?_
  refine ⟨halternative, hn, has, hds, ts₁ ++ ts₂ ++ ts₃ ++ ts₄, o, ?_, rfl, ho.2⟩
  simp [ho.1]

omit [g.IsUsual] hE in
theorem selectionSetAt_append (front : List ParseTree) (t : ParseTree) (rest : List ParseTree) :
    selectionSetAt front.length (front ++ t :: rest) = selectionSet t := by
  induction front with
  | nil => rfl
  | cons u front ih => exact ih

omit [g.IsUsual] hE in
theorem selectionSetAt_last (front : List ParseTree) (t : ParseTree) :
    selectionSetAt ((front ++ [t]).length - 1) (front ++ [t]) = selectionSet t := by
  rw [List.length_append, List.length_singleton, Nat.add_sub_cancel]
  exact selectionSetAt_append front t []

omit [g.IsUsual] m hE in
theorem sizeOf_last {front : List ParseTree} {tag : String} {span : Option Span} :
    sizeOf t ≤ sizeOf (ParseTree.rule tag span (front ++ [t])) := by
  have hless := List.sizeOf_lt_of_mem (List.mem_append_right front (List.mem_singleton_self t))
  simp only [ParseTree.rule.sizeOf_spec]
  omega

omit [g.IsUsual] hE in
theorem gives_selections
    (h : ∀ t ∈ ts, t.tag ∈ selectionTags ∧ Gives E (fun s => s.isValid = true) (selection t)) :
    Gives E (fun ss => Selection.areValid ss = true) (selections ts) := by
  induction ts with
  | nil => exact rfl
  | cons t ts ih =>
    obtain ⟨⟨htag, ht⟩, hts⟩ := List.forall_mem_cons.mp h
    rw [selections, if_pos htag]
    exact ht.bind fun s hs => (ih hts).bind fun ss hss => by
      simp [Selection.areValid, hs, hss]

/-- The parts of an inline fragment but for its selection set. -/
def inlineHeader : Walk (Option String × List Directive) := do
  let condition ← typeCondition
  let directives ← directives
  let _ ← Walk.next ["selection_set"]
  return (condition, directives)

omit [g.IsUsual] hE in
theorem selection_inline {span : Option Span} :
    selection (.rule "inline_fragment" span ts) = (do
      let (header, c) ← inlineHeader ⟨"inline_fragment", span, 0, ts⟩
      let inner ← selectionSetAt (c.read - 1) ts
      c.finish
      return .inlineFragment header.1 header.2 inner) := by
  rw [selection, if_neg (by decide), if_neg (by decide)]
  unfold inlineHeader
  simp only [bind, StateT.bind, Except.bind]
  cases typeCondition ⟨"inline_fragment", span, 0, ts⟩ with
  | error e => rfl
  | ok x =>
    dsimp only
    cases directives x.2 with
    | error e => rfl
    | ok y =>
      dsimp only [Walk.next]
      cases y.2.next ["selection_set"] <;> rfl

theorem feeds_inlineHeader {cs : List Clause} (hcs : cs ∈ Rule.inlineFragment.alternatives) :
    Feeds g E cs inlineHeader fun ts header =>
      (header.1.all isValidName = true ∧ header.2.all (·.isValid) = true) ∧
        ∃ front u w, ts = front ++ [u] ∧ IsTreeOf g .selectionSet w u := by
  obtain rfl := List.mem_singleton.mp hcs
  refine .skip rfl (.cons (by decide) feeds_typeCondition fun ts₁ n hn => .cons (by decide) (feeds_directives hE)
    fun ts₂ ds hds => .cons (by decide) (Clause.feeds_next (r := .selectionSet)) fun ts₃ u hu => .nil ?_)
  obtain ⟨rfl, w, hu⟩ := hu
  exact ⟨⟨hn, hds⟩, ts₁ ++ ts₂, u, w, by simp, hu⟩

/-- The conversions below a node, for the induction on its size. -/
theorem gives_selectionSet_of {size : Nat}
    (ih : ∀ k < size, ∀ {w : List Token} {t : ParseTree} [Machine], IsTreeOf g .selection w t →
      sizeOf t = k → Gives E (fun s => s.isValid = true) (selection t))
    (h : IsTreeOf g .selectionSet w t) (hsize : sizeOf t ≤ size) :
    Gives E (fun ss => Selection.areValid ss = true) (selectionSet t) := by
  obtain ⟨span, inner, rfl, hinner⟩ := h.inside rfl
  have hheld := hinner.held (i := .selection) (by decide)
  have htagged : Tagged selectionTags inner := fun u hu =>
    let ⟨_, h⟩ := hheld u hu
    h.tag_mem
  have hselections : Gives E (fun ss => Selection.areValid ss = true)
      (@selections (Machine.inside selectionCalls) inner) := by
    let _ := Machine.inside selectionCalls
    refine gives_selections fun u hu => ?_
    obtain ⟨w, hselection⟩ := hheld u hu
    have hless := List.sizeOf_lt_of_mem hu
    simp only [ParseTree.rule.sizeOf_spec] at hsize
    exact ⟨hselection.tag_mem, ih _ (by omega) hselection rfl⟩
  rw [selectionSet, if_pos (show Rule.selectionSet.tag = "selection_set" from rfl)]
  refine .nestedIn (fun _ => hE.tooDeep) fun _ => hselections.bind fun ss hss => ?_
  rw [finish_repeated (c := ⟨Rule.selectionSet.tag, span, 0, inner⟩) htagged]
  exact hss

theorem gives_selection (h : IsTreeOf g .selection w t) :
    Gives E (fun s => s.isValid = true) (selection t) := by
  induction hn : sizeOf t using Nat.strongRecOn generalizing t w m with
  | ind n ih =>
    subst hn
    obtain ⟨s, hs, htree⟩ := (IsTreeOf.of_inlined rfl rfl).mp h
    simp only [List.mem_cons, List.not_mem_nil, or_false] at hs
    rcases hs with rfl | rfl | rfl
    · obtain ⟨span, inner, rfl, hinner⟩ := htree.inside rfl
      obtain ⟨cs, hcs, hsequence⟩ := hinner.sequence
      rw [show Rule.field.tag = "field" from rfl, selection, if_pos rfl]
      refine ((feeds_fieldHeader hE hcs).reaches _ _ hsequence).bind fun header hheader => ?_
      have hnames : ∀ f ∈ (header.alternative.toList.map fun a => ("alias", a)) ++
          [("name", header.name)], isValidName f.2 = true := by
        have halternative := hheader.alternative
        have hname := hheader.name
        cases ha : header.alternative <;> simp_all
      obtain ⟨front, o, rfl, hselects, ho⟩ := hheader.selects
      cases o with
      | none =>
        simp only [hselects]
        refine gives_checked ?_ hnames
        simp [Selection.isValid, Selection.isValidInner, hheader.alternative, hheader.name,
          hheader.arguments, hheader.directives]
      | some u =>
        obtain ⟨v, hu⟩ := ho u rfl
        have hset := gives_selectionSet_of hE ih hu sizeOf_last
        simp only [hselects]
        show Gives E _ (do
          let inner ← (selectionSetAt ((front ++ [u]).length - 1) (front ++ [u])).map some
          checkNames _
          return _)
        rw [selectionSetAt_last]
        refine (hset.map (Q := fun inner => Selection.isValidInner inner = true) fun _ => id).bind
          fun inner hinner => gives_checked ?_ hnames
        simp only [Selection.isValid, hheader.alternative, hheader.name, hheader.arguments,
          hheader.directives, hinner, Bool.and_self]
    · obtain ⟨span, inner, rfl, -⟩ := htree.inside rfl
      rw [show Rule.fragmentSpread.tag = "fragment_spread" from rfl, selection,
        if_neg (by decide), if_pos rfl]
      exact gives_fragmentSpread hE htree
    · obtain ⟨span, inner, rfl, hinner⟩ := htree.inside rfl
      obtain ⟨cs, hcs, hsequence⟩ := hinner.sequence
      rw [show Rule.inlineFragment.tag = "inline_fragment" from rfl, selection_inline]
      refine ((feeds_inlineHeader hE hcs).reaches _ _ hsequence).bind fun header hheader => ?_
      obtain ⟨⟨hn, hds⟩, front, u, w, rfl, hu⟩ := hheader
      have hset := gives_selectionSet_of hE ih hu sizeOf_last
      dsimp only
      rw [selectionSetAt_last]
      refine hset.bind fun inner hinner => ?_
      show (Selection.inlineFragment header.1 header.2 inner).isValid = true
      simp only [Selection.isValid, hn, hds, hinner, Bool.and_self]

theorem gives_selectionSet (h : IsTreeOf g .selectionSet w t) :
    Gives E (fun ss => Selection.areValid ss = true) (selectionSet t) :=
  gives_selectionSet_of hE (fun _ _ {_ _ _} h _ => gives_selection hE h) h (le_refl (sizeOf t))

/-! Definitions. -/

theorem feeds_nextSelectionSet : (Clause.use .selectionSet).Feeds g E nextSelectionSet
    fun _ ss => Selection.areValid ss = true := fun w ts hts =>
  (Clause.feeds_next w ts hts).andThen fun _ _ ⟨_, _, hu⟩ => .lift (gives_selectionSet hE hu)

omit m hE in
theorem feeds_operationName : (Clause.optionalUse .name).Feeds g E operationName
    fun _ n => n.all isValidName = true := fun w ts hts =>
  (Clause.feeds_optional (r := .name) rfl w ts hts).andThen fun o c ho => by
    cases o with
    | none => exact ⟨rfl, rfl⟩
    | some t =>
      obtain ⟨w, ht⟩ := ho.2 t rfl
      exact (Reaches.lift (gives_nameToken (isNameNode (by decide) ht))).step
        fun p hp => ⟨hp, rfl⟩

theorem feeds_variableDefinitions : (Clause.optionalUse .variableDefinitions).Feeds g E
    (Walk.clause "variable_definitions" "variable_definition" variableDefinition)
    fun _ vs => vs.all (·.isValid) = true :=
  (Clause.feeds_list? (r := .variableDefinitions) (i := .variableDefinition) (by decide)
    fun _ _ h => gives_variableDefinition hE h).mono fun _ _ h => List.all_eq_true.mpr h

theorem feeds_shorthand : Feeds g E [.use .selectionSet] (do
      let inner ← nextSelectionSet
      return (⟨.query, none, [], [], inner⟩ : Operation)) fun _ o => o.isValid = true :=
  .cons (by decide) (feeds_nextSelectionSet hE) fun _ ss hss => .nil (by simp [Operation.isValid, hss])

theorem feeds_keywordOperation : Feeds g E
    [.use .operationType, .optionalUse .name, .optionalUse .variableDefinitions,
      .optionalUse .directives, .use .selectionSet] (do
      let typeTree ← Walk.next ["operation_type"]
      let operationType ← Walk.lift (operationType typeTree)
      let name ← operationName
      let declared ← Walk.clause "variable_definitions" "variable_definition" variableDefinition
      let directives ← directives
      let inner ← nextSelectionSet
      return (⟨operationType, name, declared, directives, inner⟩ : Operation))
    fun _ o => o.isValid = true := by
  refine .cons (by decide) Clause.feeds_next fun _ u ⟨_, _, hu⟩ => ?_
  obtain ⟨o, ho⟩ := operationType_eq hu
  have htype : Gives E (fun _ => True) (operationType u) := by rw [ho]; trivial
  refine .lift htype fun o _ => .cons (by decide) feeds_operationName fun _ n hn =>
    .cons (by decide) (feeds_variableDefinitions hE) fun _ vs hvs =>
    .cons (by decide) (feeds_directives hE) fun _ ds hds =>
    .cons (by decide) (feeds_nextSelectionSet hE) fun _ ss hss => .nil ?_
  simp only [Operation.isValid, hn, hvs, hds, hss, Bool.and_self]

theorem gives_operation (h : IsTreeOf g .operationDefinition w t) :
    Gives E (fun o => o.isValid = true) (operation t) := by
  refine (gives_node (P := fun o => o.isValid = true) h rfl rfl fun cs hcs w ts hts =>
    .get fun c hc => ?_).bind fun o ho => gives_checked ho ?_
  · simp only [Rule.alternatives, List.mem_cons, List.not_mem_nil, or_false] at hcs
    rcases hcs with rfl | rfl
    · obtain ⟨w₁, w₂, u, ts, rfl, hu, -⟩ := hts.use
      have hpeek : c.peek ≠ some "selection_set" := by
        simpa [Cursor.peek, hc] using hu.tag_ne (s := "selection_set") (by decide)
      rw [if_neg hpeek]
      exact feeds_keywordOperation hE _ _ hts
    · obtain ⟨w₁, w₂, u, ts, rfl, hu, -⟩ := hts.use
      have hpeek : c.peek = some "selection_set" := by
        rw [Cursor.peek, hc]
        exact congrArg some (hu.tag_eq rfl)
      rw [if_pos hpeek]
      exact feeds_shorthand hE _ _ hts
  · simp only [Operation.isValid, Bool.and_eq_true] at ho
    have hname := ho.1.1.1
    cases hn : o.name <;> simp_all

theorem gives_fragment (h : IsTreeOf g .fragmentDefinition w t) :
    Gives E (fun f => f.isValid = true) (fragment t) := by
  refine (gives_node (P := fun f => f.isValid = true) h rfl rfl (List.forall_mem_singleton.mpr
    (.skip rfl (.cons (by decide) Clause.feeds_next fun _ u ⟨_, _, hu⟩ =>
      .lift (gives_nameToken (isNameNode (by decide) hu)) fun p hp => ?_)))).bind
    fun f hf => gives_checked hf ?_
  · dsimp only
    split
    · exact .lift (P := fun _ => False) (hE.literal _ _) nofun
    · refine .cons (by decide) feeds_use_typeCondition fun _ n hn => ?_
      obtain ⟨condition, rfl, hcondition⟩ := hn
      refine .cons (by decide) (feeds_directives hE) fun _ ds hds =>
        .cons (by decide) (feeds_nextSelectionSet hE) fun _ ss hss => .nil ?_
      simp only [Fragment.isValid, hp, hcondition, hds, hss, Bool.and_self]
  · simp only [Fragment.isValid, Bool.and_eq_true] at hf
    simpa using hf.1.1.1

end

end Conversion

end GraphQLDoc
