import GraphQLDoc.Proofs.Printing.Values

/-!
Operations, fragments and selections that are printed are read back. The selection set of a selection
is converted apart from the walk that comes across it; on the trees of the grammar this is the same as
to convert it on the way, so that a selection is a walk like any other.
-/
namespace GraphQLDoc.Conversion

/-! Selections as walks. -/

section

variable [Machine] {g : Grammar} [g.IsUsual] {w : List Token} {ts : List ParseTree} {t : ParseTree}

/-- A field but for its selection set, and the tree of the set. -/
def fieldParts : Walk (FieldHeader × Option ParseTree) := do
  let alternative ← fieldAlias
  let name ← Walk.name
  let arguments ← arguments
  let directives ← directives
  let selectionSet ← Walk.optional "selection_set"
  return (⟨alternative, name, arguments, directives, selectionSet.isSome⟩, selectionSet)

theorem fieldHeader_eq : fieldHeader = (·.1) <$> fieldParts := by
  simp [fieldHeader, fieldParts]

/-- The selection set of a tree, if there is one. -/
def selectionSetOf : Option ParseTree → Walk (Option SelectionSet)
  | none => return none
  | some t => do
    let ss ← Walk.lift (selectionSet t)
    return some ss

theorem selectionSetOf_some (c : Cursor) :
    selectionSetOf (some t) c = (selectionSet t).map fun ss => (some ss, c) := by
  cases h : selectionSet t <;> rw [selectionSetOf, h] <;> rfl

def fieldWalk : Walk Selection := do
  let (header, selectionSetTree) ← fieldParts
  let inner ← selectionSetOf selectionSetTree
  Walk.lift (checkNames
    ((header.alternative.toList.map fun a => ("alias", a)) ++ [("name", header.name)]))
  return .field header.alternative header.name header.arguments header.directives inner

theorem feeds_fieldParts {cs : List Clause} (hcs : cs ∈ Rule.field.alternatives) :
    Feeds g (fun _ => True) cs fieldParts fun ts parts =>
      parts.1.selects = parts.2.isSome ∧ ∃ front, ts = front ++ parts.2.toList := by
  obtain rfl := List.mem_singleton.mp hcs
  have hE : Allows g fun _ => True := ⟨fun _ _ => trivial, fun _ _ _ _ => trivial, trivial⟩
  refine .cons (by decide) feeds_fieldAlias fun ts₁ _ _ => .cons (by decide) feeds_name fun ts₂ _ _ =>
    .cons (by decide) (feeds_arguments hE) fun ts₃ _ _ => .cons (by decide) (feeds_directives hE)
      fun ts₄ _ _ => .cons (by decide) (Clause.feeds_optional (r := .selectionSet) rfl)
        fun ts₅ o ho => .nil ⟨rfl, ts₁ ++ ts₂ ++ ts₃ ++ ts₄, ?_⟩
  simp [ho.1]

theorem selection_field (h : IsTreeOf g .field w t) : selection t = t.whole "field" fieldWalk := by
  obtain ⟨span, ts, rfl, hinner⟩ := h.inside rfl
  obtain ⟨cs, hcs, hsequence⟩ := hinner.sequence
  have hparts := (feeds_fieldParts hcs).reaches "field" span hsequence
  have henter : Cursor.enter "field" (.rule Rule.field.tag span ts) = .ok ⟨"field", span, 0, ts⟩ := rfl
  rw [ParseTree.whole, ParseTree.within, henter, show Rule.field.tag = "field" from rfl, selection,
    if_pos rfl, fieldHeader_eq, fieldWalk]
  simp only [bind, StateT.bind, Except.bind, StateT.map, Functor.map]
  revert hparts
  cases fieldParts ⟨"field", span, 0, ts⟩ with
  | error e => exact fun _ => rfl
  | ok x =>
    obtain ⟨⟨⟨alternative, name, arguments, directives, selects⟩, o⟩, c⟩ := x
    rintro ⟨⟨hselects, front, rfl⟩, rfl⟩
    obtain rfl : selects = o.isSome := hselects
    -- Behind the header both convert the set, if there is one, and check the names.
    cases o with
    | none =>
      dsimp only
      show (checkNames _ >>= fun _ => .ok (Selection.field alternative name arguments directives none)) = _
      cases checkNames _ <;> rfl
    | some u =>
      dsimp only
      show ((selectionSetAt ((front ++ [u]).length - 1) (front ++ [u])).map some >>= fun inner =>
        checkNames _ >>= fun _ => .ok (Selection.field alternative name arguments directives inner)) = _
      rw [selectionSetAt_last, selectionSetOf_some]
      cases selectionSet u with
      | error e => rfl
      | ok ss => cases checkNames _ <;> rfl

/-- An inline fragment but for its selection set, and the tree of the set. -/
def inlineParts : Walk ((Option String × List Directive) × ParseTree) := do
  let condition ← typeCondition
  let directives ← directives
  let selectionSetTree ← Walk.next ["selection_set"]
  return ((condition, directives), selectionSetTree)

theorem inlineHeader_eq : inlineHeader = (·.1) <$> inlineParts := by
  simp [inlineHeader, inlineParts]

def inlineWalk : Walk Selection := do
  let (header, t) ← inlineParts
  let inner ← Walk.lift (selectionSet t)
  return .inlineFragment header.1 header.2 inner

theorem feeds_inlineParts {cs : List Clause} (hcs : cs ∈ Rule.inlineFragment.alternatives) :
    Feeds g (fun _ => True) cs inlineParts fun ts parts => ∃ front, ts = front ++ [parts.2] := by
  obtain rfl := List.mem_singleton.mp hcs
  have hE : Allows g fun _ => True := ⟨fun _ _ => trivial, fun _ _ _ _ => trivial, trivial⟩
  refine .skip rfl (.cons (by decide) feeds_typeCondition fun ts₁ _ _ =>
    .cons (by decide) (feeds_directives hE) fun ts₂ _ _ =>
      .cons (by decide) (Clause.feeds_next (r := .selectionSet)) fun ts₃ u hu => .nil ⟨ts₁ ++ ts₂, ?_⟩)
  simp [hu.1]

theorem selection_inlineFragment (h : IsTreeOf g .inlineFragment w t) :
    selection t = t.whole "inline_fragment" inlineWalk := by
  obtain ⟨span, ts, rfl, hinner⟩ := h.inside rfl
  obtain ⟨cs, hcs, hsequence⟩ := hinner.sequence
  have hparts := (feeds_inlineParts hcs).reaches "inline_fragment" span hsequence
  have henter : Cursor.enter "inline_fragment" (.rule Rule.inlineFragment.tag span ts) =
      .ok ⟨"inline_fragment", span, 0, ts⟩ := rfl
  rw [ParseTree.whole, ParseTree.within, henter,
    show Rule.inlineFragment.tag = "inline_fragment" from rfl, selection_inline, inlineHeader_eq,
    inlineWalk]
  simp only [bind, StateT.bind, Except.bind, StateT.map, Functor.map]
  revert hparts
  cases inlineParts ⟨"inline_fragment", span, 0, ts⟩ with
  | error e => exact fun _ => rfl
  | ok x =>
    obtain ⟨⟨⟨condition, directives⟩, u⟩, c⟩ := x
    rintro ⟨⟨front, rfl⟩, rfl⟩
    dsimp only
    show (selectionSetAt ((front ++ [u]).length - 1) (front ++ [u]) >>= fun inner =>
      .ok (Selection.inlineFragment condition directives inner)) = _
    rw [selectionSetAt_last]
    cases selectionSet u <;> rfl

end

/-! Selections that are printed. -/

section

variable [Machine]

omit [Machine] in
theorem readsBack_typeConditionNode {n : String} (hn : isValidName n = true) :
    Rule.typeCondition.ReadsBack (·.whole "type_condition" do
      let child ← Walk.next ["named_type"]
      Walk.lift (namedType child)) (Printing.typeCondition n) (· = n) :=
  (ReadsBack.last (readsBack_namedType hn)).word.node (r := .typeCondition) List.mem_cons_self
    rfl rfl fun _ _ => rfl

omit [Machine] in
theorem readsBack_typeCondition {o : Option String} (h : o.all isValidName = true) :
    (Clause.optionalUse .typeCondition).ReadsBack typeCondition
      (Printing.optional Printing.typeCondition o) (· = o) :=
  .node? (r := .typeCondition) rfl fun n hn =>
    readsBack_typeConditionNode ((Option.all_eq_true _ _).mp h n hn)

omit [Machine] in
theorem readsBack_fieldAlias {o : Option String} (h : o.all isValidName = true) :
    (Clause.optionalUse .fieldAlias).ReadsBack fieldAlias
      (Printing.optional Printing.fieldAlias o) (· = o) := by
  refine .node? (r := .fieldAlias) rfl fun n hn => ?_
  have hname := readsBack_name ((Option.all_eq_true _ _).mp h n hn)
  exact (ReadsBack.closed hname).node (r := .fieldAlias) List.mem_cons_self rfl rfl fun _ _ => rfl

omit [Machine] in
theorem word_on_ne {n : String} (h : isPrintableFragment n = true) : ∀ k ∈ [Keyword.on], k.word ≠ n := by
  intro k hk
  rw [List.mem_singleton.mp hk]
  have hon : n ≠ "on" := by simpa [isPrintableFragment] using h
  exact hon.symm

theorem readsBack_fragmentSpread {n : String} {ds : List Directive}
    (h : (Selection.fragmentSpread n ds).isValid = true)
    (h' : (Selection.fragmentSpread n ds).isPrintable = true) :
    Rule.fragmentSpread.ReadsBack selection (Printing.selection (.fragmentSpread n ds))
      (· = .fragmentSpread n ds) := by
  rw [Selection.isValid, Bool.and_eq_true] at h
  rw [Selection.isPrintable, Bool.and_eq_true] at h'
  have hname : (Clause.use .fragmentName).ReadsBack (Walk.nameOf "fragment_name") [Printing.name n]
      (· = n) := readsBack_nameOf (r := .fragmentName) rfl rfl rfl h.1 (word_on_ne h'.1)
  have hparts : ReadsBack [.mark .spread, .use .fragmentName, .optionalUse .directives] (do
      let name ← Walk.nameOf "fragment_name"
      let directives ← directives
      return (name, directives)) (Printing.selection (.fragmentSpread n ds)) (· = (n, ds)) := by
    refine (ReadsBack.mark (.cons (by decide) hname fun m hm => .cons (by decide)
      (readsBack_directives h.2 h'.2) fun es hes => .nil ?_)).of_eq (by simp [Printing.selection])
    rw [hm, hes]
  have hnode : Rule.fragmentSpread.ReadsBack fragmentSpread _ (· = .fragmentSpread n ds) :=
    (hparts.node (r := .fragmentSpread) List.mem_cons_self rfl rfl fun _ _ => rfl).bind fun _ p hp =>
      ⟨.fragmentSpread n ds, rfl, hp ▸ checked_eq_ok (by simpa using h.1)⟩
  refine hnode.congr fun w t ht => ?_
  obtain ⟨span, ts, rfl, -⟩ := ht.inside rfl
  rw [show Rule.fragmentSpread.tag = "fragment_spread" from rfl, selection, if_neg (by decide),
    if_pos rfl]

theorem selections_eq_ok {ts : List ParseTree} {ss : List Selection}
    (h : Converts .selection selection ts ss) : selections ts = .ok ss := by
  induction h with
  | nil => rfl
  | cons h _ ih =>
    have htag : _ ∈ selectionTags := h.1
    rw [selections, if_pos htag, h.2, ih]
    rfl

theorem readsBack_selectionSet {ss : SelectionSet} (hne : ss ≠ [])
    (hcalls : selectionCalls ≤ Machine.calls) (h : ∀ s ∈ ss, Rule.selection.ReadsBack
      (@selection (Machine.inside selectionCalls)) (Printing.selection s) (· = s)) :
    Rule.selectionSet.ReadsBack selectionSet (Printing.selectionSet ss) (· = ss) := by
  have hlists := Lists.block (l := .selections) (p := .braceLeft) (q := .braceRight)
    rfl hne h
  have hwords : Printing.selectionSet ss =
      Printing.block .braceLeft .braceRight Printing.selection ss := by
    cases ss with
    | nil => exact absurd rfl hne
    | cons s ss =>
      rw [Printing.selectionSet, Printing.selections_eq]
      rfl
  rw [hwords]
  refine ⟨hlists.spelled, fun w hw => ?_⟩
  obtain ⟨span, ts, htree, hconverts⟩ :=
    hlists.node (r := .selectionSet) hw List.mem_cons_self rfl rfl fun _ _ => rfl
  have hfinish : ((⟨"selection_set", span, 0, ts⟩ : Cursor).repeated selectionTags).2.finish = .ok () :=
    finish_repeated hconverts.tagged
  have hset : Gives (fun _ => False) (· = ss) (selectionSet (.rule "selection_set" span ts)) := by
    rw [selectionSet, if_pos rfl]
    refine .nestedIn hcalls.not_gt fun _ => ?_
    rw [@selections_eq_ok (_) _ _ hconverts, hfinish]
    rfl
  exact ⟨_, ss, rfl, htree, hset.eq_ok⟩

theorem fieldWalk_eq : fieldWalk = (do
    let alternative ← fieldAlias
    let name ← Walk.name
    let arguments ← arguments
    let directives ← directives
    let inner ← Walk.optional "selection_set" >>= selectionSetOf
    Walk.lift (checkNames ((alternative.toList.map fun a => ("alias", a)) ++ [("name", name)]))
    return .field alternative name arguments directives inner) := by
  simp only [fieldWalk, fieldParts, bind_assoc, pure_bind]

theorem readsBack_field {alternative : Option String} {n : String} {as : List Argument}
    {ds : List Directive} {inner : Option SelectionSet}
    (h : (Selection.field alternative n as ds inner).isValid = true)
    (h' : (Selection.field alternative n as ds inner).isPrintable = true)
    (hset : ∀ ss ∈ inner,
      Rule.selectionSet.ReadsBack selectionSet (Printing.selectionSet ss) (· = ss)) :
    Rule.field.ReadsBack selection (Printing.selection (.field alternative n as ds inner))
      (· = .field alternative n as ds inner) := by
  simp only [Selection.isValid, Bool.and_eq_true] at h
  simp only [Selection.isPrintable, Bool.and_eq_true] at h'
  obtain ⟨⟨⟨⟨halternative, hn⟩, has⟩, hds⟩, -⟩ := h
  obtain ⟨⟨has', hds'⟩, -⟩ := h'
  have hinner : (Clause.optionalUse .selectionSet).ReadsBack
      (Walk.optional "selection_set" >>= selectionSetOf) (Printing.innerSelections inner)
      (· = inner) := by
    have hwords : Printing.innerSelections inner = Printing.optional Printing.selectionSet inner := by
      cases inner <;> rfl
    rw [hwords]
    exact .node? (r := .selectionSet) rfl hset
  have hnames : checkNames ((alternative.toList.map fun a => ("alias", a)) ++ [("name", n)]) =
      .ok () := by
    have hvalid : ∀ f ∈ (alternative.toList.map fun a => ("alias", a)) ++ [("name", n)],
        isValidName f.2 = true := by
      cases alternative <;> simp_all
    have hchecked : Gives (fun _ => False) (· = ()) _ := gives_checkNames rfl hvalid
    exact hchecked.eq_ok
  have hclauses : ReadsBack [.optionalUse .fieldAlias, .use .name, .optionalUse .arguments,
      .optionalUse .directives, .optionalUse .selectionSet] fieldWalk
      (Printing.selection (.field alternative n as ds inner))
      (· = .field alternative n as ds inner) := by
    rw [fieldWalk_eq, Printing.selection]
    refine .cons (by decide) (readsBack_fieldAlias halternative) fun alternative' ha =>
      .one (by decide) (readsBack_name hn) fun m hm =>
      .cons (by decide) (readsBack_arguments has has') fun as' ha' =>
      .cons (by decide) (readsBack_directives hds hds') fun ds' hd' =>
      .final hinner fun inner' hi => ?_
    subst ha hm ha' hd' hi
    exact .lift hnames (.nil rfl)
  exact (hclauses.node (r := .field) List.mem_cons_self rfl rfl fun _ _ => rfl).congr
    fun w t ht => selection_field ht

theorem inlineWalk_eq : inlineWalk = (do
    let condition ← typeCondition
    let directives ← directives
    let inner ← nextSelectionSet
    return .inlineFragment condition directives inner) := by
  simp only [inlineWalk, inlineParts, nextSelectionSet, bind_assoc, pure_bind]

theorem readsBack_nextSelectionSet {ss : SelectionSet}
    (h : Rule.selectionSet.ReadsBack selectionSet (Printing.selectionSet ss) (· = ss)) :
    (Clause.use .selectionSet).ReadsBack nextSelectionSet (Printing.selectionSet ss) (· = ss) :=
  .next h

theorem readsBack_inlineFragment {condition : Option String} {ds : List Directive}
    {inner : SelectionSet} (h : (Selection.inlineFragment condition ds inner).isValid = true)
    (h' : (Selection.inlineFragment condition ds inner).isPrintable = true)
    (hset : Rule.selectionSet.ReadsBack selectionSet (Printing.selectionSet inner) (· = inner)) :
    Rule.inlineFragment.ReadsBack selection (Printing.selection (.inlineFragment condition ds inner))
      (· = .inlineFragment condition ds inner) := by
  simp only [Selection.isValid, Bool.and_eq_true] at h
  simp only [Selection.isPrintable, Bool.and_eq_true] at h'
  obtain ⟨⟨hcondition, hds⟩, -⟩ := h
  obtain ⟨hds', -⟩ := h'
  have hinner := readsBack_nextSelectionSet hset
  have hclauses : ReadsBack [.mark .spread, .optionalUse .typeCondition, .optionalUse .directives,
      .use .selectionSet] inlineWalk (Printing.selection (.inlineFragment condition ds inner))
      (· = .inlineFragment condition ds inner) := by
    rw [inlineWalk_eq, Printing.selection]
    refine .mark (.cons (by decide) (readsBack_typeCondition hcondition) fun condition' hc =>
      .cons (by decide) (readsBack_directives hds hds') fun ds' hd =>
      .final hinner fun inner' hi => .nil ?_)
    rw [hc, hd, hi]
  exact (hclauses.node (r := .inlineFragment) List.mem_cons_self rfl rfl fun _ _ => rfl).congr fun w t ht =>
    selection_inlineFragment ht

theorem readsBack_of_selection {r : Rule} {ws : List Word} {s : Selection}
    (h : r.ReadsBack selection ws (· = s)) (hr : r ∈ [.field, .fragmentSpread, .inlineFragment]) :
    Rule.selection.ReadsBack selection ws (· = s) :=
  h.inlined hr rfl rfl

end

mutual

theorem readsBack_selection [Machine] : (s : Selection) → s.isValid = true → s.isPrintable = true →
    Rule.selection.ReadsBack selection (Printing.selection s) (· = s)
  | .field alternative n as ds none, h, h' =>
    readsBack_of_selection (readsBack_field h h' nofun) (by decide)
  | .field alternative n as ds (some ss), h, h' => by
    have hvalid := h
    have hprintable := h'
    simp only [Selection.isValid, Selection.isValidInner, Bool.and_eq_true] at hvalid
    simp only [Selection.isPrintable, Selection.isPrintableInner, Bool.and_eq_true,
      Bool.not_eq_true', List.isEmpty_eq_false_iff, Machine.grants_iff] at hprintable
    refine readsBack_of_selection (readsBack_field h h' fun inner hinner => ?_) (by decide)
    obtain rfl := Option.some.inj hinner
    exact readsBack_selectionSet hprintable.2.1 hprintable.2.2.1
      (@readsBack_selections (_) ss hvalid.2 hprintable.2.2.2)
  | .fragmentSpread n ds, h, h' =>
    readsBack_of_selection (readsBack_fragmentSpread h h') (by decide)
  | .inlineFragment condition ds inner, h, h' => by
    have hvalid := h
    have hprintable := h'
    simp only [Selection.isValid, Bool.and_eq_true] at hvalid
    simp only [Selection.isPrintable, Bool.and_eq_true, Bool.not_eq_true',
      List.isEmpty_eq_false_iff, Machine.grants_iff] at hprintable
    have hset := readsBack_selectionSet hprintable.2.1 hprintable.2.2.1
      (@readsBack_selections (_) inner hvalid.2 hprintable.2.2.2)
    exact readsBack_of_selection (readsBack_inlineFragment h h' hset) (by decide)

theorem readsBack_selections [Machine] : (ss : List Selection) → Selection.areValid ss = true →
    Selection.arePrintable ss = true →
    ∀ s ∈ ss, Rule.selection.ReadsBack selection (Printing.selection s) (· = s)
  | [], _, _ => nofun
  | s :: ss, h, h' => by
    rw [Selection.areValid, Bool.and_eq_true] at h
    rw [Selection.arePrintable, Bool.and_eq_true] at h'
    exact List.forall_mem_cons.mpr ⟨readsBack_selection s h.1 h'.1, readsBack_selections ss h.2 h'.2⟩

end

variable [Machine]

/-! Definitions. -/

theorem readsBack_definedSelectionSet {ss : SelectionSet} (h : Selection.areValid ss = true)
    (h' : SelectionSet.isPrintable ss = true) :
    (Clause.use .selectionSet).ReadsBack nextSelectionSet (Printing.selectionSet ss) (· = ss) := by
  simp only [SelectionSet.isPrintable, Bool.and_eq_true, Bool.not_eq_true',
    List.isEmpty_eq_false_iff, Machine.grants_iff] at h'
  exact readsBack_nextSelectionSet
    (readsBack_selectionSet h'.1 h'.2.1 (@readsBack_selections (_) ss h h'.2.2))

omit [Machine] in
theorem readsBack_operationType (o : OperationType) :
    Rule.operationType.ReadsBack operationType [o.keyword.spelled] (· = o) := by
  have hkeyword : [.word o.keyword] ∈ Rule.operationType.alternatives := by
    cases o <;> decide
  have htag : (Terminal.keyword o.keyword).tag ∈ ["QUERY", "MUTATION", "SUBSCRIPTION"] := by
    cases o <;> decide
  refine (readsBack_keyword hkeyword rfl rfl htag).bind fun _ u hu => ⟨o, rfl, ?_⟩
  obtain ⟨tag, span, rfl⟩ := hu
  cases o <;> rfl

omit [Machine] in
theorem operationName_eq : operationName = (do
    match ← Walk.optional "name" with
    | none => return none
    | some t =>
      let name ← Walk.lift ((t.nameToken "name").map (·.1))
      return some name) := by
  unfold operationName
  congr! with o t
  funext c
  show (Walk.lift _ c).bind _ = (Walk.lift _ c).bind _
  cases t.nameToken "name" <;> rfl

omit [Machine] in
theorem readsBack_operationName {o : Option String} (h : o.all isValidName = true) :
    (Clause.optionalUse .name).ReadsBack operationName
      (Printing.optional (fun n => [Printing.name n]) o) (· = o) := by
  rw [operationName_eq]
  refine .node? (r := .name) rfl fun n hn => ?_
  exact (readsBack_nameNode (r := .name) rfl rfl rfl ((Option.all_eq_true _ _).mp h n hn) nofun).map
    fun p hp => hp

theorem readsBack_variableDefinition {v : VariableDefinition} (h : v.isValid = true)
    (h' : v.isPrintable = true) :
    Rule.variableDefinition.ReadsBack variableDefinition (Printing.variableDefinition v) (· = v) := by
  simp only [VariableDefinition.isValid, Bool.and_eq_true] at h
  simp only [VariableDefinition.isPrintable, Bool.and_eq_true] at h'
  obtain ⟨⟨⟨hn, htype⟩, hvalue⟩, hds⟩ := h
  have hclauses : ReadsBack [.use .variableReference, .mark .colon, .use .anyType,
      .optionalUse .defaultValue, .optionalUse .directives] (do
        let variableTree ← Walk.next ["variable"]
        let name ← Walk.lift (variableName variableTree)
        let type ← type
        let defaultValue ← defaultValue
        let directives ← directives
        return VariableDefinition.mk name type defaultValue directives)
      (Printing.variableDefinition v) (· = v) := by
    refine (ReadsBack.next (by decide) (readsBack_variableName hn) fun n hn => .mark
      (.cons (by decide) (readsBack_type htype) fun r hr =>
      .cons (by decide) (readsBack_defaultValue hvalue h'.1) fun x hx =>
      .cons (by decide) (readsBack_directives hds h'.2) fun ds hds => .nil ?_)).of_eq
      (by simp [Printing.variableDefinition])
    rw [hn, hr, hx, hds]
  exact hclauses.node (r := .variableDefinition) List.mem_cons_self rfl rfl fun _ _ => rfl

theorem readsBack_variableDefinitions {vs : List VariableDefinition}
    (h : vs.all (·.isValid) = true) (h' : vs.all (·.isPrintable) = true) :
    (Clause.optionalUse .variableDefinitions).ReadsBack
      (Walk.clause "variable_definitions" "variable_definition" variableDefinition)
      (Printing.block .parenLeft .parenRight Printing.variableDefinition vs) (· = vs) := by
  have hitems := readsBack_all readsBack_variableDefinition h h'
  exact .block? (r := .variableDefinitions) (l := .variableDefinitions) hitems List.mem_cons_self
    rfl rfl rfl rfl fun _ _ => rfl

/-- An operation with its keyword. -/
def keywordOperation : Walk Operation := do
  let typeTree ← Walk.next ["operation_type"]
  let operationType ← Walk.lift (operationType typeTree)
  let name ← operationName
  let declared ← Walk.clause "variable_definitions" "variable_definition" variableDefinition
  let directives ← directives
  let inner ← nextSelectionSet
  return ⟨operationType, name, declared, directives, inner⟩

theorem readsBack_keywordOperation {o : Operation} (h : o.isValid = true)
    (h' : o.isPrintable = true) :
    ReadsBack [.use .operationType, .optionalUse .name, .optionalUse .variableDefinitions,
      .optionalUse .directives, .use .selectionSet] keywordOperation (Printing.operation o)
      (· = o) := by
  simp only [Operation.isValid, Bool.and_eq_true] at h
  simp only [Operation.isPrintable, Bool.and_eq_true] at h'
  obtain ⟨⟨⟨hname, hvs⟩, hds⟩, hset⟩ := h
  obtain ⟨⟨hvs', hds'⟩, hset'⟩ := h'
  refine (ReadsBack.next (by decide) (readsBack_operationType o.operationType) fun type htype =>
    .cons (by decide) (readsBack_operationName hname) fun n hn =>
    .cons (by decide) (readsBack_variableDefinitions hvs hvs') fun vs hvs =>
    .cons (by decide) (readsBack_directives hds hds') fun ds hds =>
    .cons (by decide) (readsBack_definedSelectionSet hset hset') fun ss hss => .nil ?_).of_eq
    (by simp [Printing.operation])
  rw [htype, hn, hvs, hds, hss]

theorem readsBack_operation {o : Operation} (h : o.isValid = true) (h' : o.isPrintable = true) :
    Rule.operationDefinition.ReadsBack operation (Printing.operation o) (· = o) := by
  have hkeyword := readsBack_keywordOperation h h'
  have hclauses : ReadsBack [.use .operationType, .optionalUse .name,
      .optionalUse .variableDefinitions, .optionalUse .directives, .use .selectionSet] (do
        if (← get).peek = some "selection_set" then
          let inner ← nextSelectionSet
          return (⟨.query, none, [], [], inner⟩ : Operation)
        else keywordOperation) (Printing.operation o) (· = o) := by
    refine ⟨hkeyword.spelled, fun w hw => ?_⟩
    obtain ⟨ts, x, hx, hsequence, hends⟩ := hkeyword.reads w hw
    refine ⟨ts, x, hx, hsequence, .get fun c hc => ?_⟩
    obtain ⟨w₁, w₂, u, ts, rfl, hu, -⟩ := hsequence.use
    have hpeek : c.peek ≠ some "selection_set" := by
      simpa [Cursor.peek, hc] using hu.tag_ne (s := "selection_set") (by decide)
    rw [if_neg hpeek]
    exact hends
  have hnames : ∀ f ∈ o.name.toList.map fun n => ("name", n), isValidName f.2 = true := by
    simp only [Operation.isValid, Bool.and_eq_true] at h
    have hname := h.1.1.1
    cases hn : o.name <;> simp_all
  exact hclauses.checkedNode (r := .operationDefinition)
    (f := fun o => o.name.toList.map fun n => ("name", n)) rfl List.mem_cons_self rfl rfl hnames
    (by decide)

omit [Machine] in
theorem readsBack_use_typeCondition {n : String} (hn : isValidName n = true) :
    (Clause.use .typeCondition).ReadsBack typeCondition (Printing.typeCondition n)
      (· = some n) := by
  refine (Clause.ReadsBack.node (r := .typeCondition) rfl (readsBack_typeConditionNode hn)).mono
    fun o ho => ?_
  obtain ⟨m, rfl, rfl⟩ := ho
  rfl

/-- A fragment; an error of its type condition is at the span. -/
def fragmentWalk (span : Option Span) : Walk Fragment := do
  let nameTree ← Walk.next ["fragment_name"]
  let (name, nameSpan) ← Walk.lift (nameTree.nameToken "fragment_name")
  if name = "on" then Walk.lift (.error (.literal .fragmentName (some nameSpan)))
  match ← typeCondition with
  | none => Walk.lift (.error (.shape (.noTypeCondition name) span))
  | some condition =>
    let directives ← directives
    let inner ← nextSelectionSet
    return Fragment.mk name condition directives inner

omit [Machine] in
theorem bind_ok {α β : Type} {a : Walk α} {k k' : α → Walk β}
    (hk : ∀ x c y, k x c = .ok y → k' x c = .ok y) {c : Cursor} {y : β × Cursor}
    (h : (a >>= k) c = .ok y) : (a >>= k') c = .ok y := by
  change (a c).bind _ = _ at h
  change (a c).bind _ = _
  cases hread : a c with
  | error e =>
    rw [hread] at h
    cases h
  | ok x =>
    rw [hread] at h
    exact hk x.1 x.2 y h

/-- The span shows in errors only. -/
theorem fragmentWalk_ok {span span' : Option Span} {c : Cursor} {x : Fragment × Cursor}
    (h : fragmentWalk span c = .ok x) : fragmentWalk span' c = .ok x := by
  refine bind_ok (fun t c x => bind_ok fun p c x h => ?_) h
  dsimp only at h ⊢
  split at h
  · cases h
  · rename_i hon
    rw [if_neg hon]
    refine bind_ok (fun o c x h => ?_) h
    cases o with
    | none => cases h
    | some condition => exact h

omit [Machine] in
theorem whole_ok {α : Type} {rule : String} {t : ParseTree} {a b : Walk α} {x : α}
    (hab : ∀ c y, a c = .ok y → b c = .ok y) (h : t.whole rule a = .ok x) :
    t.whole rule b = .ok x := by
  unfold ParseTree.whole ParseTree.within at h ⊢
  cases henter : Cursor.enter rule t with
  | error e =>
    rw [henter] at h
    cases h
  | ok c =>
    rw [henter] at h
    change ((a c).bind _).bind _ = _ at h
    change ((b c).bind _).bind _ = _
    cases hread : a c with
    | error e =>
      rw [hread] at h
      cases h
    | ok y =>
      rw [hread] at h
      rw [hab c y hread]
      exact h

theorem readsBack_fragmentWalk {f : Fragment} (h : f.isValid = true) (h' : f.isPrintable = true) :
    ReadsBack [.word .fragment, .use .fragmentName, .use .typeCondition, .optionalUse .directives,
      .use .selectionSet] (fragmentWalk none) (Printing.fragment f) (· = f) := by
  simp only [Fragment.isValid, Bool.and_eq_true] at h
  simp only [Fragment.isPrintable, Bool.and_eq_true] at h'
  obtain ⟨⟨⟨hn, hcondition⟩, hds⟩, hset⟩ := h
  obtain ⟨⟨hprintable, hds'⟩, hset'⟩ := h'
  have hon : f.name ≠ "on" := by simpa [isPrintableFragment] using hprintable
  have hname := readsBack_nameNode (r := .fragmentName) rfl rfl rfl hn (word_on_ne hprintable)
  refine ReadsBack.word (.next (by decide) hname fun p hp => ?_)
  obtain ⟨m, span⟩ := p
  obtain rfl : m = f.name := hp
  dsimp only
  rw [if_neg hon]
  refine .cons (by decide) (readsBack_use_typeCondition hcondition) fun o ho => ?_
  subst ho
  refine .cons (by decide) (readsBack_directives hds hds') fun ds hds =>
    .final (readsBack_definedSelectionSet hset hset') fun ss hss =>
      .nil ?_
  rw [hds, hss]

theorem readsBack_fragment {f : Fragment} (h : f.isValid = true) (h' : f.isPrintable = true) :
    Rule.fragmentDefinition.ReadsBack fragment (Printing.fragment f) (· = f) := by
  have hn : isValidName f.name = true := by
    simp only [Fragment.isValid, Bool.and_eq_true] at h
    exact h.1.1.1
  have hnode :=
    (readsBack_fragmentWalk h h').node (r := .fragmentDefinition) List.mem_cons_self rfl rfl fun _ _ => rfl
  have hwhole : Rule.fragmentDefinition.ReadsBack
      (fun t => t.whole "fragment_definition" (fragmentWalk t.span?)) (Printing.fragment f) (· = f) :=
    hnode.of_ok fun t x => whole_ok fun c y => fragmentWalk_ok
  have hchecked := hwhole.bind (Q := (· = f)) (k := fun _ f => do
    checkNames [("name", f.name)]
    return f) fun _ g hg => ⟨g, hg, hg ▸ checked_eq_ok (by simpa using hn)⟩
  exact hchecked

end GraphQLDoc.Conversion
