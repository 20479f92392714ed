import GraphQLDoc.Proofs.Conversion.Clauses
import GraphQLDoc.Proofs.Conversion.Literals

/-!
What the conversions of names, types, values, arguments and directives give on the trees of the
grammar.
-/
namespace GraphQLDoc.Conversion

section

variable {E : ConversionError → Prop} {α : Type} {t : ParseTree} {ts : List ParseTree}
  {span : Option Span}

theorem gives_checked {fields : List (String × String)} {P : α → Prop} {x : α} (hx : P x)
    (h : ∀ f ∈ fields, isValidName f.2 = true) :
    Gives E P (do checkNames fields; return x) := by
  have hcheck : Gives E (fun _ => True) (checkNames fields) := gives_checkNames trivial h
  exact hcheck.bind fun _ _ => hx

/-- The tree of a type reference. -/
inductive IsTypeTree : ParseTree → TypeRef → Prop where
  | named {n : ParseTree} {name : String} {span : Option Span}
      (node : IsNameNode "name" (· = name) n) (valid : isValidName name = true) :
      IsTypeTree (.rule "named_type" span [n]) (.named name)
  | list {t : ParseTree} {of : TypeRef} {span : Option Span} (inner : IsTypeTree t of) :
      IsTypeTree (.rule "list_type" span [t]) (.list of)
  | nonNull {t : ParseTree} {of : TypeRef} {span : Option Span} (inner : IsTypeTree t of)
      (once : of.isNonNull = false) : IsTypeTree (.rule "non_null_type" span [t]) (.nonNull of)

namespace IsTypeTree

variable {r : TypeRef}

theorem tag (h : IsTypeTree t r) : t.tag ∈ typeTags := by
  cases h <;> simp [ParseTree.tag, typeTags]

theorem isValid (h : IsTypeTree t r) : r.isValid = true := by
  induction h with
  | named node valid => exact valid
  | list inner ih => exact ih
  | nonNull inner once ih => simp [TypeRef.isValid, once, ih]

theorem unwrap (h : IsTypeTree t r) : Conversion.unwrap t = .ok (r.wrappers, r.innermost) := by
  induction h with
  | @named n name span node valid =>
    have hname : Gives (fun _ => False) (· = name) (namedType (.rule "named_type" span [n])) := by
      refine (gives_whole (show Walk.Runs _ _ [] _ _ from Walk.runs_nameOf node).ends).bind fun m hm => ?_
      subst hm
      exact gives_checked rfl (by simpa using valid)
    rw [Conversion.unwrap, if_pos rfl, hname.eq_ok]
    rfl
  | @list t of span inner ih =>
    rw [Conversion.unwrap, if_neg (by decide), if_pos (by decide)]
    simp only [if_pos inner.tag, ih]
    rfl
  | @nonNull t of span inner once ih =>
    rw [Conversion.unwrap, if_neg (by decide), if_pos (by decide)]
    simp only [if_pos inner.tag, ih]
    rfl

/-- Put around the name from the inside out, the wrappers pass their check. -/
theorem wrap (h : IsTypeTree t r) :
    r.wrappers.reverse.foldlM wrapChecked (.named r.innermost) = .ok r := by
  induction h with
  | named => rfl
  | list inner ih =>
    rw [TypeRef.wrappers, TypeRef.innermost, List.reverse_cons, List.foldlM_append, ih]
    rfl
  | @nonNull t of span inner once ih =>
    have hwrap : wrapChecked of .nonNull = .ok (.nonNull of) := by
      simp [wrapChecked, once, TypeRef.wrap]
    rw [TypeRef.wrappers, TypeRef.innermost, List.reverse_cons, List.foldlM_append, ih]
    show (wrapChecked of .nonNull >>= pure) = _
    rw [hwrap]
    rfl

theorem typeRef (h : IsTypeTree t r) : Conversion.typeRef t = .ok r := by
  rw [Conversion.typeRef, h.unwrap]
  exact h.wrap

end IsTypeTree

variable [Machine]

/-- The conversion of a node of the rules for plain values is that of `plainValue`. -/
theorem value_of_plain {tag : String} (htag : tag ∈ valueTags)
    (hlist : tag ≠ "list_value") (hobject : tag ≠ "object_value") :
    value (.rule tag span ts) = plainValue (.rule tag span ts) := by
  rw [value, if_neg hlist, if_neg hobject, if_pos htag]

omit [Machine] in
/-- When all children have been read, nothing is left over. -/
theorem finish_repeated {tags : List String} {c : Cursor} (h : Tagged tags c.rest) :
    (c.repeated tags).2.finish = .ok () := by
  have htaken : (c.rest ++ []).takeWhile (·.tag ∈ tags) = c.rest := Walk.takeWhile_tagged h nofun
  rw [List.append_nil] at htaken
  simp [Cursor.repeated, htaken, Cursor.finish, Cursor.peek]

theorem gives_list {P : List Value → Prop} (ht : Tagged valueTags ts)
    (hdeep : Machine.calls < listCalls → E .tooDeep)
    (h : listCalls ≤ Machine.calls → Gives E P (@values (Machine.inside listCalls) ts)) :
    Gives E (fun v => ∃ vs, v = .list vs ∧ P vs) (value (.rule "list_value" span ts)) := by
  rw [value, if_pos rfl]
  refine .nestedIn hdeep fun hcalls => (h hcalls).bind fun vs hvs => ?_
  rw [finish_repeated (c := ⟨"list_value", span, 0, ts⟩) ht]
  exact ⟨vs, rfl, hvs⟩

theorem gives_object {P : List (String × Value) → Prop} (ht : Tagged ["object_field"] ts)
    (hdeep : Machine.calls < objectCalls → E .tooDeep)
    (h : objectCalls ≤ Machine.calls → Gives E P (@objectFields (Machine.inside objectCalls) ts)) :
    Gives E (fun v => ∃ fs, v = .object fs ∧ P fs) (value (.rule "object_value" span ts)) := by
  rw [value, if_neg (by decide), if_pos rfl]
  refine .nestedIn hdeep fun hcalls => (h hcalls).bind fun fs hfs => ?_
  rw [finish_repeated (c := ⟨"object_value", span, 0, ts⟩) ht]
  exact ⟨fs, rfl, hfs⟩

theorem gives_objectField {P : String → Prop} {Q : Value → Prop} {tag : String} {u : ParseTree}
    (hname : IsNameNode "name" P t) (hP : ∀ n, P n → isValidName n = true)
    (hu : u.tag ∈ valueTags) (h : Gives E Q (value u)) :
    Gives E (fun f => P f.1 ∧ Q f.2) (objectField (.rule tag span [t, u])) := by
  obtain ⟨nameSpan, nameTag, text, textSpan, rfl, htext⟩ := hname
  have hvalueAt : valueAt 1 [.rule "name" nameSpan [.token nameTag text textSpan], u] = value u := by
    rw [valueAt, valueAt]
  have hread : Walk.name ⟨tag, span, 0, [.rule "name" nameSpan [.token nameTag text textSpan], u]⟩ =
      .ok (text, ⟨tag, span, 1, [u]⟩) := rfl
  have hnext : (⟨tag, span, 1, [u]⟩ : Cursor).next valueTags = .ok (u, ⟨tag, span, 2, []⟩) :=
    if_pos hu
  rw [objectField]
  simp only [hread, bind, Except.bind, hnext, hvalueAt]
  exact h.bind fun v hv => gives_checked ⟨htext, hv⟩ (by simpa using hP text htext)

end

section

variable {g : Grammar} [g.IsUsual] {E : ConversionError → Prop} {w : List Token} {t : ParseTree}
  {ts : List ParseTree}

/-- The rules whose nodes hold one name. -/
def nameRules : List Rule := [.name, .enumName, .fragmentName]

theorem isNameNode {r : Rule} (hr : r ∈ nameRules) (h : IsTreeOf g r w t) :
    IsNameNode r.tag (fun n => isValidName n = true) t := by
  obtain ⟨excluded, hrule⟩ : ∃ excluded, r.inlined = false ∧ r.keepsWords = true ∧
      r.alternatives = Clause.wordsExcept excluded := by
    simp only [nameRules, List.mem_cons, List.not_mem_nil, or_false] at hr
    rcases hr with rfl | rfl | rfl <;> exact ⟨_, rfl, rfl, rfl⟩
  obtain ⟨hinlined, hwords, halternatives⟩ := hrule
  obtain ⟨span, inner, rfl, hinner⟩ := h.inside hinlined
  have hterminals : r.alternatives =
      (.name :: (Keyword.all.filter (· ∉ excluded)).map .keyword).map fun t => [.one (.terminal t)] := by
    rw [halternatives, Clause.wordsExcept, List.map_cons, List.map_map]
    rfl
  obtain ⟨token, htoken, hterminal, rfl, rfl⟩ := hinner.token _ hterminals
  have hlike : token.terminal.isNameLike = true := by
    simp only [List.mem_cons, List.mem_map] at hterminal
    rcases hterminal with h | ⟨k, -, h⟩
    · rw [h]
      rfl
    · rw [← h]
      rfl
  have hkept : Derivation.Token.isKept r.keepsWords token = true := by
    rw [hwords]
    unfold Derivation.Token.isKept
    cases hterminal : token.terminal <;> simp_all [Terminal.isNameLike]
  rw [hkept]
  exact ⟨span, _, _, _, rfl, (Grammar.IsUsual.isLexeme htoken).isValidName hlike⟩

theorem feeds_nameOf {r : Rule} (hr : r ∈ nameRules) :
    (Clause.use r).Feeds g E (Walk.nameOf r.tag) (fun _ n => isValidName n = true) :=
  Clause.feeds_use fun _ _ h => Walk.runs_nameOf (isNameNode hr h)

theorem feeds_name : (Clause.use .name).Feeds g E Walk.name (fun _ n => isValidName n = true) :=
  feeds_nameOf (r := .name) (by decide)

theorem gives_namedType (h : IsTreeOf g .namedType w t) :
    Gives E (fun n => isValidName n = true) (namedType t) := by
  have hname : Gives E (fun n => isValidName n = true) (t.whole "named_type" Walk.name) :=
    gives_node h rfl rfl (List.forall_mem_singleton.mpr (.last rfl feeds_name))
  exact hname.bind fun n hn => gives_checked hn (by simpa using hn)

theorem IsTypeTree.of_namedType (h : IsTreeOf g .namedType w t) :
    ∃ name, IsTypeTree t (.named name) := by
  obtain ⟨span, inner, rfl, hinner⟩ := h.inside rfl
  obtain ⟨cs, hcs, hsequence⟩ := hinner.sequence
  obtain rfl := List.mem_singleton.mp hcs
  obtain ⟨w₁, w₂, n, ts, rfl, hn, hend⟩ := hsequence.use
  obtain rfl := hend.nil
  obtain ⟨span, tag, text, textSpan, hnode, hvalid⟩ := isNameNode (by decide) hn
  exact ⟨text, .named ⟨span, tag, text, textSpan, hnode, rfl⟩ hvalid⟩

theorem IsTypeTree.isNonNull {r : TypeRef} (h : IsTypeTree t r) (ht : t.tag ≠ "non_null_type") :
    r.isNonNull = false := by
  cases h with
  | named => rfl
  | list => rfl
  | nonNull => exact absurd rfl ht

theorem IsTypeTree.of_isTreeOf (t : ParseTree) {w : List Token} (h : IsTreeOf g .anyType w t) :
    ∃ r, IsTypeTree t r := by
  obtain ⟨s, hs, htree⟩ := (IsTreeOf.of_inlined rfl rfl).mp h
  simp only [List.mem_cons, List.not_mem_nil, or_false] at hs
  rcases hs with rfl | rfl | rfl
  · obtain ⟨name, hname⟩ := IsTypeTree.of_namedType htree
    exact ⟨_, hname⟩
  · obtain ⟨span, inner, rfl, hinner⟩ := htree.inside rfl
    obtain ⟨cs, hcs, hsequence⟩ := hinner.sequence
    obtain rfl := List.mem_singleton.mp hcs
    obtain ⟨_, hsequence⟩ := hsequence.skip rfl
    obtain ⟨w₁, w₂, u, ts, rfl, hu, hend⟩ := hsequence.use
    obtain ⟨_, hend⟩ := hend.skip rfl
    obtain rfl := hend.nil
    obtain ⟨r, hr⟩ := IsTypeTree.of_isTreeOf u hu
    exact ⟨_, .list hr⟩
  · obtain ⟨span, inner, rfl, hinner⟩ := htree.inside rfl
    obtain ⟨cs, hcs, hsequence⟩ := hinner.sequence
    have hbelow : ∃ w u, inner = [u] ∧ IsTreeOf g .anyType w u ∧ u.tag ≠ "non_null_type" := by
      simp only [Rule.alternatives, List.mem_cons, List.not_mem_nil, or_false] at hcs
      rcases hcs with rfl | rfl
      all_goals
        obtain ⟨w₁, w₂, u, ts, rfl, hu, hend⟩ := hsequence.use
        obtain ⟨_, hend⟩ := hend.skip rfl
        obtain rfl := hend.nil
        exact ⟨w₁, u, rfl, (IsTreeOf.of_inlined rfl rfl).mpr ⟨_, by decide, hu⟩, hu.tag_ne (by decide)⟩
    obtain ⟨w₁, u, rfl, hu, htag⟩ := hbelow
    obtain ⟨r, hr⟩ := IsTypeTree.of_isTreeOf u hu
    exact ⟨_, .nonNull hr (hr.isNonNull htag)⟩
termination_by sizeOf t

theorem feeds_type :
    (Clause.use .anyType).Feeds g E type (fun _ r => r.isValid = true) := by
  refine Clause.feeds_use fun w t h => ?_
  obtain ⟨r, hr⟩ := IsTypeTree.of_isTreeOf t h
  refine (Walk.runs_next hr.tag).andThen fun u c hu => .lift ?_
  rw [hu, hr.typeRef]
  exact hr.isValid

theorem gives_variableName (h : IsTreeOf g .variableReference w t) :
    Gives E (fun n => isValidName n = true) (variableName t) := by
  have hname : Gives E (fun n => isValidName n = true) (t.whole "variable" Walk.name) :=
    gives_node h rfl rfl (List.forall_mem_singleton.mpr (.skip rfl (.last rfl feeds_name)))
  exact hname.bind fun n hn => gives_checked hn (by simpa using hn)

omit [g.IsUsual] in
/-- Which token a node for a literal holds. -/
theorem feeds_token {t : Terminal} (ht : t ∈ [.int, .float, .string, .blockString])
    {s : List String} (htag : t.tag ∈ s) :
    (Clause.literal t).Feeds g E (Walk.next s)
      fun _ u => ∃ token, g.lexeme token ∧ token.terminal = t ∧ u = token.leaf := by
  refine (Clause.feeds_literal htag fun token htoken => ?_).mono fun _ _ h => h.2
  unfold Derivation.Token.isKept
  simp only [List.mem_cons, List.not_mem_nil, or_false] at ht
  rcases ht with rfl | rfl | rfl | rfl <;> simp [htoken]

variable [m : Machine] (hE : Allows g E)

include hE

omit m in
theorem feeds_string {t : Terminal} (ht : t = .string ∨ t = .blockString) :
    (Clause.literal t).Feeds g E (Walk.next stringTags)
      fun _ u => Gives E (fun _ => True) (string u) := by
  have htag : t ∈ [.int, .float, .string, .blockString] ∧ t.tag ∈ stringTags := by
    rcases ht with rfl | rfl <;> decide
  refine (feeds_token htag.1 htag.2).mono fun _ u hu => ?_
  obtain ⟨token, htoken, hterminal, rfl⟩ := hu
  exact gives_string hE htoken (hterminal ▸ ht)

omit [g.IsUsual] m hE in
/-- A rule with one alternative for each sort of string. -/
theorem feeds_of_strings {α : Type} {a : Walk α} {P : List ParseTree → α → Prop}
    (h : ∀ t, t = .string ∨ t = .blockString → Feeds g E [Clause.literal t] a P) :
    ∀ cs ∈ [[Clause.literal .string], [Clause.literal .blockString]], Feeds g E cs a P :=
  List.forall_mem_cons.mpr ⟨h _ (.inl rfl), List.forall_mem_singleton.mpr (h _ (.inr rfl))⟩

omit m in
theorem feeds_description :
    (Clause.optionalUse .description).Feeds g E description (fun _ _ => True) := by
  refine Clause.feeds_optionalUse ?_ fun w t h => ?_
  · exact (Walk.runs_optional (o := none) nofun).andThen fun o c ho => ho ▸ ⟨trivial, rfl⟩
  · have htag : t.tag = "description" := h.tag_eq rfl
    refine (Walk.runs_optional (o := some t) (fun u hu => Option.some.inj hu ▸ htag)).andThen
      fun o c ho => ?_
    subst ho
    exact (Reaches.lift (gives_node h rfl rfl
      (feeds_of_strings fun _ ht => .last rfl (feeds_string hE ht)))).step fun token htoken =>
      (Reaches.lift htoken).step fun s _ => ⟨trivial, rfl⟩

/-! Values without values inside. -/

omit hE in
theorem gives_variable (h : IsTreeOf g .variableReference w t) :
    Gives E (fun v => v.isValid = true) (value t) := by
  obtain ⟨span, inner, rfl, -⟩ := h.inside rfl
  rw [value_of_plain (by decide) (by decide) (by decide)]
  exact (gives_variableName h).bind fun n hn => hn

theorem gives_intValue (h : IsTreeOf g .intValue w t) :
    Gives E (fun v => v.isValid = true) (value t) := by
  obtain ⟨span, inner, rfl, -⟩ := h.inside rfl
  rw [value_of_plain (by decide) (by decide) (by decide)]
  have hfeeds := feeds_token (g := g) (E := E) (t := .int) (s := ["INT"]) (by decide) (by decide)
  refine (gives_node h rfl rfl (List.forall_mem_singleton.mpr (.last rfl hfeeds))).bind fun u hu => ?_
  obtain ⟨token, htoken, hterminal, rfl⟩ := hu
  exact (gives_integer hE htoken hterminal).bind fun n hn => decide_eq_true hn

theorem gives_floatValue (h : IsTreeOf g .floatValue w t) :
    Gives E (fun v => v.isValid = true) (value t) := by
  obtain ⟨span, inner, rfl, -⟩ := h.inside rfl
  rw [value_of_plain (by decide) (by decide) (by decide)]
  have hfeeds := feeds_token (g := g) (E := E) (t := .float) (s := ["FLOAT"]) (by decide) (by decide)
  refine (gives_node h rfl rfl (List.forall_mem_singleton.mpr (.last rfl hfeeds))).bind fun u hu => ?_
  obtain ⟨token, htoken, hterminal, rfl⟩ := hu
  exact (gives_float hE htoken hterminal).bind fun x hx => hx

theorem gives_stringValue (h : IsTreeOf g .stringValue w t) :
    Gives E (fun v => v.isValid = true) (value t) := by
  obtain ⟨span, inner, rfl, -⟩ := h.inside rfl
  rw [value_of_plain (by decide) (by decide) (by decide)]
  exact gives_node h rfl rfl (feeds_of_strings fun _ ht => .cons nofun (feeds_string hE ht)
    fun _ u hu => .lift hu fun s _ => .nil rfl)

omit hE in
theorem gives_booleanValue (h : IsTreeOf g .booleanValue w t) :
    Gives E (fun v => v.isValid = true) (value t) := by
  obtain ⟨span, inner, rfl, hinner⟩ := h.inside rfl
  rw [value_of_plain (by decide) (by decide) (by decide)]
  obtain ⟨token, -, hterminal, -, rfl⟩ := hinner.token [.keyword .trueValue, .keyword .falseValue] rfl
  obtain ⟨k, hk, htag⟩ : ∃ k, token.terminal = .keyword k ∧ token.leaf.tag ∈ ["TRUE", "FALSE"] := by
    simp only [List.mem_cons, List.not_mem_nil, or_false] at hterminal
    rcases hterminal with h | h
    · exact ⟨_, h, by simp [Token.leaf, ParseTree.tag, h]; decide⟩
    · exact ⟨_, h, by simp [Token.leaf, ParseTree.tag, h]; decide⟩
  have hkept : Derivation.Token.isKept Rule.booleanValue.keepsWords token = true := by
    simp [Derivation.Token.isKept, hk, Rule.keepsWords]
  rw [hkept, if_pos rfl]
  refine (gives_whole (show Walk.Runs _ _ [] _ _ from Walk.runs_next htag).ends).bind fun u hu => ?_
  subst hu
  exact rfl

omit hE in
theorem gives_nullValue (h : IsTreeOf g .nullValue w t) :
    Gives E (fun v => v.isValid = true) (value t) := by
  obtain ⟨span, inner, rfl, -⟩ := h.inside rfl
  rw [value_of_plain (by decide) (by decide) (by decide)]
  exact gives_node h rfl rfl (List.forall_mem_singleton.mpr (.skip rfl (.nil rfl)))

omit hE in
theorem gives_enumValue (h : IsTreeOf g .enumValue w t) :
    Gives E (fun v => v.isValid = true) (value t) := by
  obtain ⟨span, inner, rfl, -⟩ := h.inside rfl
  rw [value_of_plain (by decide) (by decide) (by decide)]
  have hname := gives_node (E := E) h rfl rfl
    (List.forall_mem_singleton.mpr (.last rfl (feeds_nameOf (r := .enumName) (by decide))))
  exact hname.bind fun n hn => gives_checked hn (by simpa using hn)

/-! Lists and objects, and with them all values. -/

omit [g.IsUsual] hE in
theorem gives_values (h : ∀ t ∈ ts, t.tag ∈ valueTags ∧ Gives E (fun v => v.isValid = true) (value t)) :
    Gives E (fun vs => Value.areValid vs = true) (values ts) := by
  induction ts with
  | nil => exact rfl
  | cons t ts ih =>
    obtain ⟨⟨htag, ht⟩, hts⟩ := List.forall_mem_cons.mp h
    rw [values, if_pos htag]
    exact ht.bind fun v hv => (ih hts).bind fun vs hvs => by
      simp [Value.areValid, hv, hvs]

omit [g.IsUsual] hE in
theorem gives_objectFields (h : ∀ t ∈ ts, t.tag = "object_field" ∧
      Gives E (fun f => isValidName f.1 = true ∧ f.2.isValid = true) (objectField t)) :
    Gives E (fun fs => Value.areValidFields fs = true) (objectFields ts) := by
  induction ts with
  | nil => exact rfl
  | cons t ts ih =>
    obtain ⟨⟨htag, ht⟩, hts⟩ := List.forall_mem_cons.mp h
    rw [objectFields, if_pos htag]
    exact ht.bind fun f hf => (ih hts).bind fun fs hfs => by
      simp [Value.areValidFields, hf, hfs]

theorem gives_value (h : IsTreeOf g .value w t) :
    Gives E (fun v => v.isValid = true) (value t) := by
  induction hn : sizeOf t using Nat.strongRecOn generalizing t w m with
  | ind n ih =>
    subst hn
    obtain ⟨s, hs, htree⟩ := (IsTreeOf.of_inlined rfl rfl).mp h
    simp only [List.mem_cons, List.not_mem_nil, or_false] at hs
    rcases hs with rfl | rfl | rfl | rfl | rfl | rfl | rfl | rfl | rfl
    · exact gives_variable htree
    · exact gives_intValue hE htree
    · exact gives_floatValue hE htree
    · exact gives_stringValue hE htree
    · exact gives_booleanValue htree
    · exact gives_nullValue htree
    · exact gives_enumValue htree
    · obtain ⟨span, inner, rfl, hinner⟩ := htree.inside rfl
      have hheld := hinner.held (i := .value) (by decide)
      have htagged : Tagged valueTags inner := fun u hu =>
        let ⟨_, h⟩ := hheld u hu
        h.tag_mem
      have hvalues : Gives E (fun vs => Value.areValid vs = true)
          (@values (Machine.inside listCalls) inner) := by
        let _ := Machine.inside listCalls
        refine gives_values fun u hu => ?_
        obtain ⟨w, hvalue⟩ := hheld u hu
        have hsize := List.sizeOf_lt_of_mem hu
        exact ⟨hvalue.tag_mem, ih _ (by simp; omega) hvalue rfl⟩
      exact (gives_list htagged (fun _ => hE.tooDeep) fun _ => hvalues).mono fun v ⟨vs, hv, hvs⟩ => hv ▸ hvs
    · obtain ⟨span, inner, rfl, hinner⟩ := htree.inside rfl
      have hheld := hinner.held (i := .objectField) (by decide)
      have htagged : Tagged ["object_field"] inner := fun u hu =>
        let ⟨_, h⟩ := hheld u hu
        h.tag_mem
      have hfields : Gives E (fun fs => Value.areValidFields fs = true)
          (@objectFields (Machine.inside objectCalls) inner) := by
        let _ := Machine.inside objectCalls
        refine gives_objectFields fun u hu => ?_
        obtain ⟨w, hfield⟩ := hheld u hu
        have hsize := List.sizeOf_lt_of_mem hu
        obtain ⟨fieldSpan, parts, rfl, hparts⟩ := hfield.inside rfl
        obtain ⟨cs, hcs, hsequence⟩ := hparts.sequence
        obtain rfl := List.mem_singleton.mp hcs
        obtain ⟨w₁, w₂, n, ts, rfl, hn, hend⟩ := hsequence.use
        obtain ⟨_, hend⟩ := hend.skip rfl
        obtain ⟨w₃, w₄, x, ts, rfl, hx, hend⟩ := hend.use
        obtain rfl := hend.nil
        simp only [ParseTree.rule.sizeOf_spec, List.cons.sizeOf_spec] at hsize
        exact ⟨rfl, gives_objectField (isNameNode (by decide) hn) (fun _ => id) hx.tag_mem
          (ih _ (by simp; omega) hx rfl)⟩
      exact (gives_object htagged (fun _ => hE.tooDeep) fun _ => hfields).mono fun v ⟨fs, hv, hfs⟩ => hv ▸ hfs

theorem feeds_value : (Clause.use .value).Feeds g E (Walk.next valueTags)
    fun _ t => Gives E (fun v => v.isValid = true) (value t) :=
  Clause.feeds_next.mono fun _ _ ⟨_, _, h⟩ => gives_value hE h

theorem gives_valueLiteral (h : IsTreeOf g .valueLiteral w t) :
    Gives E (fun v => v.isValid = true) (valueLiteral t) :=
  gives_node h rfl rfl (List.forall_mem_singleton.mpr
    (.cons (by decide) (feeds_value hE) fun _ _ ht => .lifted ht))

omit m hE in
theorem gives_typeReference (h : IsTreeOf g .typeReference w t) :
    Gives E (fun r => r.isValid = true) (typeReference t) :=
  gives_node h rfl rfl (List.forall_mem_singleton.mpr (.last rfl feeds_type))

theorem feeds_defaultValue : (Clause.optionalUse .defaultValue).Feeds g E defaultValue
    fun _ v => v.all (·.isValid) = true := by
  have hnode : ∀ w t, IsTreeOf g .defaultValue w t → Gives E (fun v => v.isValid = true)
      (t.whole "default_value" do
        let child ← Walk.next valueTags
        Walk.lift (value child)) := fun w t h =>
    gives_node h rfl rfl (List.forall_mem_singleton.mpr
      (.skip rfl (.cons (by decide) (feeds_value hE) fun _ _ ht => .lifted ht)))
  exact (Clause.feeds_node? (r := .defaultValue) rfl hnode).mono fun _ v hv =>
    (Option.all_eq_true _ _).mpr hv

theorem gives_argument (h : IsTreeOf g .argument w t) :
    Gives E (fun a => a.isValid = true) (argument t) := by
  refine (gives_node h rfl rfl (List.forall_mem_singleton.mpr (.cons (by decide) feeds_name fun _ n hn =>
    .skip rfl (.cons (by decide) (feeds_value hE) fun _ u hu => .lift hu fun v hv =>
      .nil (show (Argument.mk n v).isValid = true by simp [Argument.isValid, hn, hv]))))).bind
    fun a ha => gives_checked ha ?_
  simp only [Argument.isValid, Bool.and_eq_true] at ha
  simpa using ha.1

theorem feeds_arguments : (Clause.optionalUse .arguments).Feeds g E arguments
    fun _ as => as.all (·.isValid) = true :=
  (Clause.feeds_list? (r := .arguments) (i := .argument) (by decide)
    fun _ _ h => gives_argument hE h).mono fun _ _ h => List.all_eq_true.mpr h

theorem gives_directive (h : IsTreeOf g .directive w t) :
    Gives E (fun d => d.isValid = true) (directive t) := by
  refine (gives_node h rfl rfl (List.forall_mem_singleton.mpr (.skip rfl (.cons (by decide) feeds_name fun _ n hn =>
    .cons (by decide) (feeds_arguments hE) fun _ as has =>
      .nil (show (Directive.mk n as).isValid = true by simp only [Directive.isValid, hn, has]; rfl))))).bind
    fun d hd => gives_checked hd ?_
  simp only [Directive.isValid, Bool.and_eq_true] at hd
  simpa using hd.1

/-- Directives, which are there if they have to be. -/
theorem feeds_use_directives : (Clause.use .directives).Feeds g E directives
    fun _ ds => ds ≠ [] ∧ ds.all (·.isValid) = true :=
  (Clause.feeds_list (r := .directives) (i := .directive) (by decide)
    fun _ _ h => gives_directive hE h).mono fun _ _ h => ⟨h.1, List.all_eq_true.mpr h.2⟩

theorem feeds_directives : (Clause.optionalUse .directives).Feeds g E directives
    fun _ ds => ds.all (·.isValid) = true :=
  (Clause.feeds_list? (r := .directives) (i := .directive) (by decide)
    fun _ _ h => gives_directive hE h).mono fun _ _ h => List.all_eq_true.mpr h

end

end GraphQLDoc.Conversion
