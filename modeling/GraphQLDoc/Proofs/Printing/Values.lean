import GraphQLDoc.Proofs.Leaves.Walk
import GraphQLDoc.Proofs.Printing.Printable
import GraphQLDoc.Proofs.Printing.Words

/-!
Types, values, arguments and directives that are printed are read back.
-/
namespace GraphQLDoc

/-- The rule of the nodes of a type. -/
def TypeRef.rule : TypeRef → Rule
  | named _ => .namedType
  | list _ => .listType
  | nonNull _ => .nonNullType

theorem TypeRef.rule_mem (r : TypeRef) : r.rule ∈ [.namedType, .listType, .nonNullType] := by
  cases r <;> simp [rule]

namespace Conversion

/-! Types. -/

theorem readsBack_namedType {n : String} (hn : isValidName n = true) :
    Rule.namedType.ReadsBack namedType [Printing.name n] (· = n) := by
  have hnode := (ReadsBack.single (readsBack_name hn)).node (r := .namedType)
    List.mem_cons_self rfl rfl fun _ _ => rfl
  refine hnode.bind fun _ m hm => ⟨n, rfl, ?_⟩
  subst hm
  exact checked_eq_ok (by simpa using hn)

theorem areSpelled_typeRef {r : TypeRef} (h : r.isValid = true) :
    AreSpelled (Printing.typeRef r) := by
  induction r with
  | named n => exact .cons (Printing.isSpelling_name h) .nil
  | list of ih =>
    exact .cons (.punctuator .bracketLeft) ((ih h).append (.cons (.punctuator .bracketRight) .nil))
  | nonNull of ih =>
    rw [TypeRef.isValid, Bool.and_eq_true] at h
    exact (ih h.2).append (.cons (.punctuator .bang) .nil)

theorem exists_namedType {n : String} (hn : isValidName n = true) {w : List Token}
    (hw : w.map Token.word = [Printing.name n]) :
    ∃ t, IsTreeOf .canonical .namedType w t ∧ IsTypeTree t (.named n) := by
  obtain ⟨t, htree, hnode⟩ := exists_nameNode (r := .name) rfl rfl rfl hn nofun hw
  have hsequence : Sequence .canonical false [.use .name] w [t] := Sequence.one_iff.mpr htree
  obtain ⟨span, h⟩ := (hsequence.inside (r := .namedType) List.mem_cons_self nofun).isTreeOf rfl
  exact ⟨_, h, .named hnode hn⟩

/-- A tree in front of a mark. -/
theorem sequence_marked {r : Rule} {p : Punctuator} {w : List Token} {token : Token} {t : ParseTree}
    (h : IsTreeOf .canonical r w t) (htoken : token.word = p.spelled) :
    Sequence .canonical false [.use r, .mark p] (w ++ [token]) [t] := by
  have hmark := Clause.literal_yields (.punctuator p) rfl htoken
  exact ⟨w, [token], [t], [], rfl, rfl, h, [token], [], [], [], rfl, rfl, hmark, rfl, rfl⟩

theorem exists_typeTree {r : TypeRef} (h : r.isValid = true) {w : List Token}
    (hw : w.map Token.word = Printing.typeRef r) :
    ∃ t, IsTreeOf .canonical r.rule w t ∧ IsTypeTree t r := by
  induction r generalizing w with
  | named n => exact exists_namedType h hw
  | list of ih =>
    obtain ⟨left, w, rfl, hleft, hw⟩ := List.map_eq_cons_iff.mp hw
    obtain ⟨inner, back, rfl, hinner, hback⟩ := List.map_eq_append_iff.mp hw
    obtain ⟨right, rfl, hright⟩ := List.map_eq_singleton_iff.mp hback
    obtain ⟨t, htree, htype⟩ := ih h hinner
    have hany : IsTreeOf .canonical .anyType inner t :=
      (IsTreeOf.of_inlined rfl rfl).mpr ⟨of.rule, of.rule_mem, htree⟩
    have hmark := Clause.literal_yields (.punctuator .bracketLeft) rfl hleft
    have hsequence : Sequence .canonical false
        [.mark .bracketLeft, .use .anyType, .mark .bracketRight] ([left] ++ (inner ++ [right])) [t] :=
      ⟨[left], _, [], [t], rfl, rfl, hmark, sequence_marked hany hright⟩
    obtain ⟨span, hnode⟩ := (hsequence.inside (r := .listType) List.mem_cons_self (by decide)).isTreeOf rfl
    exact ⟨_, hnode, .list htype⟩
  | nonNull of ih =>
    rw [TypeRef.isValid, Bool.and_eq_true, Bool.not_eq_true'] at h
    obtain ⟨inner, back, rfl, hinner, hback⟩ := List.map_eq_append_iff.mp hw
    obtain ⟨bang, rfl, hbang⟩ := List.map_eq_singleton_iff.mp hback
    obtain ⟨t, htree, htype⟩ := ih h.2 hinner
    have hmem : [.use of.rule, .mark .bang] ∈ Rule.nonNullType.alternatives := by
      cases of with
      | named => exact List.mem_cons_self
      | list => exact List.mem_cons_of_mem _ List.mem_cons_self
      | nonNull => cases h.1
    obtain ⟨span, hnode⟩ :=
      ((sequence_marked htree hbang).inside (r := .nonNullType) hmem (by decide)).isTreeOf rfl
    exact ⟨_, hnode, .nonNull htype h.1⟩

theorem readsBack_type {r : TypeRef} (h : r.isValid = true) :
    (Clause.use .anyType).ReadsBack type (Printing.typeRef r) (· = r) := by
  refine ⟨areSpelled_typeRef h, fun w hw => ?_⟩
  obtain ⟨t, htree, htype⟩ := exists_typeTree h hw
  have hany : IsTreeOf .canonical .anyType w t :=
    (IsTreeOf.of_inlined rfl rfl).mpr ⟨r.rule, r.rule_mem, htree⟩
  refine ⟨[t], r, rfl, hany, (Walk.runs_next htype.tag).andThen fun u c hu => .lift ?_⟩
  rw [hu, htype.typeRef]
  rfl

/-! Values without values inside. -/

section

variable [Machine] {n : String}

/-- The conversion of a node of a rule for plain values. -/
theorem readsBack_plain {r : Rule} {ws : List Word} {v : Value} {convert : ParseTree → Converted Value}
    (h : r.ReadsBack convert ws (· = v)) (htag : r.tag ∈ valueTags) (hlist : r.tag ≠ "list_value")
    (hobject : r.tag ≠ "object_value") (hr : r.inlined = false)
    (hconvert : ∀ span ts, plainValue (.rule r.tag span ts) = convert (.rule r.tag span ts)) :
    r.ReadsBack value ws (· = v) := by
  refine h.congr fun w t ht => ?_
  obtain ⟨span, inner, rfl, -⟩ := ht.inside hr
  rw [value_of_plain htag hlist hobject, hconvert]

omit [Machine] in
theorem readsBack_variableName (hn : isValidName n = true) :
    Rule.variableReference.ReadsBack variableName [Punctuator.dollar.spelled, Printing.name n]
      (· = n) := by
  have hclauses := (ReadsBack.single (readsBack_name hn)).mark (p := .dollar)
  have hnode := hclauses.node (r := .variableReference) List.mem_cons_self rfl rfl fun _ _ => rfl
  refine hnode.bind fun _ m hm => ⟨n, rfl, ?_⟩
  subst hm
  exact checked_eq_ok (by simpa using hn)

theorem readsBack_variable (hn : isValidName n = true) :
    Rule.variableReference.ReadsBack value [Punctuator.dollar.spelled, Printing.name n]
      (· = .variableRef n) :=
  readsBack_plain ((readsBack_variableName hn).bind (k := fun _ n => do return .variableRef n)
    fun _ m hm => ⟨.variableRef n, rfl, by subst hm; rfl⟩) (by decide) (by decide) (by decide) rfl
      fun _ _ => rfl

theorem readsBack_int {i : Int} (h : minInt64 ≤ i ∧ i ≤ maxInt64) :
    Rule.intValue.ReadsBack value [(.int, intText i)] (· = .int i) := by
  have htoken := readsBack_literal ["INT"] (isSpelling_int i) (by decide) (by decide)
  have hnode := (ReadsBack.single htoken).node (r := .intValue) List.mem_cons_self rfl rfl fun _ _ => rfl
  refine readsBack_plain (hnode.bind (k := fun _ u => do return .int (← integer u)) ?_)
    (by decide) (by decide) (by decide) rfl fun _ _ => rfl
  rintro _ u ⟨token, ht, rfl⟩
  exact ⟨.int i, rfl, by rw [integer_eq_ok h ht]; rfl⟩

theorem readsBack_float {x : Binary64} (h : x.isValid = true) :
    Rule.floatValue.ReadsBack value [(.float, x.text Json.numberWords)] (· = .float x) := by
  have htoken := readsBack_literal ["FLOAT"] (isSpelling_float h) (by decide) (by decide)
  have hnode := (ReadsBack.single htoken).node (r := .floatValue) List.mem_cons_self rfl rfl fun _ _ => rfl
  refine readsBack_plain (hnode.bind (k := fun _ u => do return .float (← float u)) ?_)
    (by decide) (by decide) (by decide) rfl fun _ _ => rfl
  rintro _ u ⟨token, ht, rfl⟩
  exact ⟨.float x, rfl, by rw [float_eq_ok h ht]; rfl⟩

omit [Machine] in
/-- The token of a string. -/
theorem readsBack_stringToken (s : String) :
    (Clause.literal .string).ReadsBack (Walk.next stringTags) [Printing.string (.text s)]
      fun u => string u = .ok (s, false) := by
  have htoken := readsBack_literal (t := .string) stringTags (isSpelling_string s) (by decide)
    (by decide)
  refine htoken.mono fun u hu => ?_
  obtain ⟨token, ht, rfl⟩ := hu
  exact string_eq_ok ht

theorem readsBack_string (s : String) :
    Rule.stringValue.ReadsBack value [Printing.string (.text s)] (· = .string (.text s) false) := by
  have hclauses := ReadsBack.cons (Q := (· = Value.string (.text s) false))
    (k := fun u => Walk.lift (string u) >>= fun p => pure (.string (.text p.1) p.2))
    (List.forall_mem_nil _) (readsBack_stringToken s) fun u hu => .lift hu (.nil rfl)
  exact readsBack_plain (hclauses.node (r := .stringValue) List.mem_cons_self rfl rfl fun _ _ => rfl)
    (by decide) (by decide) (by decide) rfl fun _ _ => rfl

theorem readsBack_null :
    Rule.nullValue.ReadsBack value [Keyword.nullValue.spelled] (· = .null) := by
  have hword : ReadsBack [.word .nullValue] (pure Value.null) [Keyword.nullValue.spelled]
      (· = .null) := .word (.nil rfl)
  exact readsBack_plain (hword.node (r := .nullValue) List.mem_cons_self rfl rfl fun _ _ => rfl)
    (by decide) (by decide) (by decide) rfl fun _ _ => rfl

/-- A Boolean is the keyword that its node keeps. -/
theorem readsBack_boolean (b : Bool) :
    Rule.booleanValue.ReadsBack value (Printing.value (.boolean b)) (· = .boolean b) := by
  obtain ⟨k, hwords, hk, htag, htrue⟩ : ∃ k : Keyword, Printing.value (.boolean b) = [k.spelled] ∧
      [.word k] ∈ Rule.booleanValue.alternatives ∧ (Terminal.keyword k).tag ∈ ["TRUE", "FALSE"] ∧
      (k.word == "true") = b := by
    cases b with
    | true => exact ⟨.trueValue, rfl, List.mem_cons_self, by decide, rfl⟩
    | false => exact ⟨.falseValue, rfl, List.mem_cons_of_mem _ List.mem_cons_self, by decide, rfl⟩
  rw [hwords]
  have hkeyword := readsBack_keyword hk rfl rfl htag
  refine readsBack_plain (hkeyword.bind (k := fun _ u => do return .boolean ((← tokenText u) == "true"))
    ?_) (by decide) (by decide) (by decide) rfl fun _ _ => rfl
  rintro _ u ⟨tag, span, rfl⟩
  exact ⟨.boolean b, rfl, congrArg (fun b => Except.ok (Value.boolean b)) htrue⟩

omit [Machine] in
/-- The words that enum values cannot be are those of keywords. -/
theorem enumValueNames_eq :
    enumValueNames = [Keyword.trueValue, .falseValue, .nullValue].map Keyword.word := rfl

theorem readsBack_enum (hn : isValidName n = true) (hreserved : n ∉ enumValueNames) :
    Rule.enumValue.ReadsBack value [Printing.name n] (· = .enum n) := by
  have hexcluded : ∀ k ∈ [Keyword.trueValue, .falseValue, .nullValue], k.word ≠ n := by
    rintro k hk rfl
    exact hreserved (enumValueNames_eq ▸ List.mem_map_of_mem hk)
  have hname := readsBack_nameOf (r := .enumName) rfl rfl rfl hn hexcluded
  have hnode := (ReadsBack.single hname).node (r := .enumValue) List.mem_cons_self rfl rfl fun _ _ => rfl
  refine readsBack_plain (hnode.bind (k := fun _ n => do
    checkNames [("value", n)]
    return .enum n) ?_) (by decide) (by decide) (by decide) rfl fun _ _ => rfl
  rintro _ m rfl
  exact ⟨.enum m, rfl, checked_eq_ok (by simpa using hn)⟩

/-! Lists and objects, and with them all values. -/

theorem values_eq_ok {ts : List ParseTree} {vs : List Value} (h : Converts .value value ts vs) :
    values ts = .ok vs := by
  induction h with
  | nil => rfl
  | cons h _ ih =>
    have htag : _ ∈ valueTags := h.1
    rw [values, if_pos htag, h.2, ih]
    rfl

theorem objectFields_eq_ok {ts : List ParseTree} {fs : List (String × Value)}
    (h : Converts .objectField objectField ts fs) : objectFields ts = .ok fs := by
  induction h with
  | nil => rfl
  | cons h _ ih =>
    have htag : _ = "object_field" := List.mem_singleton.mp h.1
    rw [objectFields, if_pos htag, h.2, ih]
    rfl

theorem readsBack_list {vs : List Value} (hcalls : listCalls ≤ Machine.calls)
    (h : ∀ v ∈ vs, Rule.value.ReadsBack (@value (Machine.inside listCalls)) (Printing.value v)
      (· = v)) : Rule.listValue.ReadsBack value (Printing.value (.list vs)) (· = .list vs) := by
  have hlists : Lists _ Rule.value (@value (Machine.inside listCalls)) _ vs :=
    ((Lists.zeroOrMore (l := .values) rfl h).closed (p := .bracketRight)).skip
      (.punctuator .bracketLeft) rfl
  have hwords : Printing.value (.list vs) = Punctuator.bracketLeft.spelled ::
      (vs.flatMap Printing.value ++ [Punctuator.bracketRight.spelled]) := by
    rw [Printing.value, Printing.values_eq]
  rw [hwords]
  refine ⟨hlists.spelled, fun w hw => ?_⟩
  obtain ⟨span, ts, htree, hconverts⟩ :=
    hlists.node (r := .listValue) hw List.mem_cons_self rfl rfl fun _ _ => rfl
  have hvalues : Gives (fun _ => False) (· = vs) (@values (Machine.inside listCalls) ts) := by
    rw [@values_eq_ok (_) _ _ hconverts]
    rfl
  refine ⟨_, _, rfl, htree, ((gives_list hconverts.tagged hcalls.not_gt fun _ => hvalues).mono
    fun v hv => ?_).eq_ok⟩
  obtain ⟨vs, rfl, rfl⟩ := hv
  rfl

theorem readsBack_objectField {v : Value} (hn : isValidName n = true)
    (h : Rule.value.ReadsBack value (Printing.value v) (· = v)) :
    Rule.objectField.ReadsBack objectField
      (Printing.name n :: Punctuator.colon.spelled :: Printing.value v) (· = (n, v)) := by
  refine ⟨.cons (Printing.isSpelling_name hn) (.cons (.punctuator .colon) h.spelled), fun w hw => ?_⟩
  obtain ⟨first, w, rfl, hfirst, hw⟩ := List.map_eq_cons_iff.mp hw
  obtain ⟨colon, w, rfl, hcolon, hw⟩ := List.map_eq_cons_iff.mp hw
  obtain ⟨t, hname, hnode⟩ := exists_nameNode (r := .name) (w := [first]) rfl rfl rfl hn nofun
    (by rw [List.map_singleton, hfirst])
  obtain ⟨u, x, hx, hvalue, hc⟩ := h.reads w hw
  have hmark := Clause.literal_yields (.punctuator .colon) rfl hcolon
  have hsequence : Sequence .canonical false [.use .name, .mark .colon, .use .value]
      ([first] ++ ([colon] ++ w)) ([t] ++ ([] ++ [u])) :=
    ⟨_, _, _, _, rfl, rfl, hname, _, _, _, _, rfl, rfl, hmark, Sequence.one_iff.mpr hvalue⟩
  obtain ⟨span, htree⟩ := (hsequence.inside (r := .objectField) List.mem_cons_self nofun).isTreeOf rfl
  have hgives : Gives (fun _ => False) (· = v) (value u) := by
    rw [hc, hx]
    rfl
  refine ⟨_, _, rfl, htree,
    ((gives_objectField hnode (fun _ h => h ▸ hn) hvalue.tag_mem hgives).mono fun f hf => ?_).eq_ok⟩
  exact Prod.ext hf.1 hf.2

theorem readsBack_object {fs : List (String × Value)} (hcalls : objectCalls ≤ Machine.calls)
    (h : ∀ f ∈ fs, Rule.objectField.ReadsBack (@objectField (Machine.inside objectCalls))
      (Printing.name f.1 :: Punctuator.colon.spelled :: Printing.value f.2) (· = f)) :
    Rule.objectValue.ReadsBack value (Printing.value (.object fs)) (· = .object fs) := by
  have hlists : Lists _ Rule.objectField (@objectField (Machine.inside objectCalls)) _ fs :=
    ((Lists.zeroOrMore (l := .objectFields) rfl h).closed (p := .braceRight)).skip
      (.punctuator .braceLeft) rfl
  rw [Printing.value, Printing.objectFields_eq]
  refine ⟨hlists.spelled, fun w hw => ?_⟩
  obtain ⟨span, ts, htree, hconverts⟩ :=
    hlists.node (r := .objectValue) hw List.mem_cons_self rfl rfl fun _ _ => rfl
  have hfields : Gives (fun _ => False) (· = fs) (@objectFields (Machine.inside objectCalls) ts) := by
    rw [@objectFields_eq_ok (_) _ _ hconverts]
    rfl
  refine ⟨_, _, rfl, htree, ((gives_object hconverts.tagged hcalls.not_gt fun _ => hfields).mono
    fun v hv => ?_).eq_ok⟩
  obtain ⟨fs, rfl, rfl⟩ := hv
  rfl

/-- A value is one of the rules that values stand for. -/
theorem readsBack_of_value {r : Rule} {ws : List Word} {v : Value}
    (h : r.ReadsBack value ws (· = v))
    (hr : r ∈ [.variableReference, .intValue, .floatValue, .stringValue, .booleanValue, .nullValue,
      .enumValue, .listValue, .objectValue]) : Rule.value.ReadsBack value ws (· = v) :=
  h.inlined hr rfl rfl

end

mutual

theorem readsBack_value [Machine] : (v : Value) → v.isValid = true → v.isPrintable = true →
    Rule.value.ReadsBack value (Printing.value v) (· = v)
  | .int i, h, _ => by
    rw [Value.isValid, decide_eq_true_eq] at h
    exact readsBack_of_value (readsBack_int h) (by decide)
  | .float x, h, _ => readsBack_of_value (readsBack_float h) (by decide)
  | .string s block, _, h => by
    obtain ⟨⟨text, rfl⟩, rfl⟩ : (∃ text, s = .text text) ∧ block = false := by
      simpa [Value.isPrintable, JsonString.isText_iff] using h
    exact readsBack_of_value (readsBack_string text) (by decide)
  | .boolean b, _, _ => readsBack_of_value (readsBack_boolean b) (by decide)
  | .null, _, _ => readsBack_of_value readsBack_null (by decide)
  | .enum n, h, h' => by
    rw [Value.isPrintable, decide_eq_true_eq] at h'
    exact readsBack_of_value (readsBack_enum h h') (by decide)
  | .variableRef n, h, _ => readsBack_of_value (readsBack_variable h) (by decide)
  | .list vs, h, h' => by
    rw [Value.isValid] at h
    rw [Value.isPrintable, Machine.grants_iff] at h'
    exact readsBack_of_value (readsBack_list h'.1 (@readsBack_values (_) vs h h'.2)) (by decide)
  | .object fs, h, h' => by
    rw [Value.isValid] at h
    rw [Value.isPrintable, Machine.grants_iff] at h'
    exact readsBack_of_value (readsBack_object h'.1 (@readsBack_objectFields (_) fs h h'.2))
      (by decide)

theorem readsBack_values [Machine] : (vs : List Value) → Value.areValid vs = true →
    Value.arePrintable vs = true → ∀ v ∈ vs, Rule.value.ReadsBack value (Printing.value v) (· = v)
  | [], _, _ => nofun
  | v :: vs, h, h' => by
    rw [Value.areValid, Bool.and_eq_true] at h
    rw [Value.arePrintable, Bool.and_eq_true] at h'
    exact List.forall_mem_cons.mpr ⟨readsBack_value v h.1 h'.1, readsBack_values vs h.2 h'.2⟩

theorem readsBack_objectFields [Machine] : (fs : List (String × Value)) → Value.areValidFields fs = true →
    Value.arePrintableFields fs = true → ∀ f ∈ fs, Rule.objectField.ReadsBack objectField
      (Printing.name f.1 :: Punctuator.colon.spelled :: Printing.value f.2) (· = f)
  | [], _, _ => nofun
  | (n, v) :: fs, h, h' => by
    rw [Value.areValidFields, Bool.and_eq_true, Bool.and_eq_true] at h
    rw [Value.arePrintableFields, Bool.and_eq_true] at h'
    exact List.forall_mem_cons.mpr ⟨readsBack_objectField h.1.1 (readsBack_value v h.1.2 h'.1),
      readsBack_objectFields fs h.2 h'.2⟩

end

variable [Machine]

/-! Arguments, directives and defaults. -/

theorem readsBack_argument {a : Argument} (h : a.isValid = true) (h' : a.isPrintable = true) :
    Rule.argument.ReadsBack argument (Printing.argument a) (· = a) := by
  rw [Argument.isValid, Bool.and_eq_true] at h
  refine ReadsBack.checkedNode (r := .argument) (.cons (by decide) (readsBack_name h.1) fun n hn =>
    .mark (.next (by decide) (readsBack_value a.value h.2 h') fun v hv => .nil ?_))
    (by simp [Printing.argument]) List.mem_cons_self rfl rfl (by simpa using h.1)
    fun _ _ => rfl
  rw [hn, hv]

omit [Machine] in
/-- All items of a list are read back. -/
theorem readsBack_all {α : Type} {r : Rule} {convert : ParseTree → Converted α}
    {words : α → List Word} {isValid isPrintable : α → Bool} {xs : List α}
    (h : ∀ {x}, isValid x = true → isPrintable x = true → r.ReadsBack convert (words x) (· = x))
    (hvalid : xs.all isValid = true) (hprintable : xs.all isPrintable = true) :
    ∀ x ∈ xs, r.ReadsBack convert (words x) (· = x) :=
  fun x hx => h (List.all_eq_true.mp hvalid x hx) (List.all_eq_true.mp hprintable x hx)

theorem readsBack_arguments {as : List Argument} (h : as.all (·.isValid) = true)
    (h' : as.all (·.isPrintable) = true) :
    (Clause.optionalUse .arguments).ReadsBack arguments (Printing.arguments as) (· = as) := by
  have hitems := readsBack_all readsBack_argument h h'
  exact .block? (r := .arguments) (l := .arguments) hitems List.mem_cons_self rfl rfl rfl rfl fun _ _ => rfl

theorem readsBack_directive {d : Directive} (h : d.isValid = true) (h' : d.isPrintable = true) :
    Rule.directive.ReadsBack directive (Printing.directive d) (· = d) := by
  rw [Directive.isValid, Bool.and_eq_true] at h
  refine ReadsBack.checkedNode (r := .directive) (.mark (.cons (by decide) (readsBack_name h.1)
    fun n hn => .cons (by decide) (readsBack_arguments h.2 h') fun as has => .nil ?_))
    (by simp [Printing.directive]) List.mem_cons_self rfl rfl (by simpa using h.1)
    fun _ _ => rfl
  rw [hn, has]

/-- Directives, which are there. -/
theorem readsBack_use_directives {ds : List Directive} (hne : ds ≠ [])
    (h : ds.all (·.isValid) = true) (h' : ds.all (·.isPrintable) = true) :
    (Clause.use .directives).ReadsBack directives (Printing.directives ds) (· = ds) := by
  have hitems := readsBack_all readsBack_directive h h'
  have hlists := Lists.oneOrMore (l := .directives) rfl hne hitems
  exact .list (r := .directives) (s := .directive) hlists List.mem_cons_self rfl rfl rfl fun _ _ => rfl

theorem readsBack_directives {ds : List Directive} (h : ds.all (·.isValid) = true)
    (h' : ds.all (·.isPrintable) = true) :
    (Clause.optionalUse .directives).ReadsBack directives (Printing.directives ds) (· = ds) :=
  .list? (r := .directives) (s := .directive) (f := Printing.directives) rfl
    (fun hne => readsBack_use_directives hne h h') rfl

theorem readsBack_defaultValue {o : Option Value} (h : o.all (·.isValid) = true)
    (h' : o.all (·.isPrintable) = true) :
    (Clause.optionalUse .defaultValue).ReadsBack defaultValue (Printing.defaultValue o) (· = o) := by
  refine .node? (r := .defaultValue) rfl fun v hv => ?_
  have hvalue := readsBack_value v ((Option.all_eq_true _ _).mp h v hv)
    ((Option.all_eq_true _ _).mp h' v hv)
  exact (ReadsBack.last hvalue).mark.node List.mem_cons_self rfl rfl fun _ _ => rfl

end Conversion

/-! How deeply the calls nest that read a value. -/

mutual

def Value.calls : Value → Nat
  | .list vs => Conversion.listCalls + Value.callsIn vs
  | .object fs => Conversion.objectCalls + Value.callsInFields fs
  | _ => 0

def Value.callsIn : List Value → Nat
  | [] => 0
  | v :: vs => max v.calls (Value.callsIn vs)

def Value.callsInFields : List (String × Value) → Nat
  | [] => 0
  | (_, v) :: fs => max v.calls (Value.callsInFields fs)

end

/-- What is converted on a machine that grants a number of calls, and on no other. -/
def ifGranted [Machine] {α : Type} (calls : Nat) (x : α) : Converted α :=
  if calls ≤ Machine.calls then .ok x else .error .tooDeep

section

variable [Machine] {α β : Type} {n m : Nat} {x : α} {y : β}

theorem ifGranted_zero : ifGranted 0 x = .ok x := if_pos (Nat.zero_le _)

theorem ifGranted_bind {k : α → Converted β} (h : k x = ifGranted m y) :
    ifGranted n x >>= k = ifGranted (max n m) y := by
  unfold ifGranted
  by_cases hn : n ≤ Machine.calls
  · rw [if_pos hn]
    refine h.trans (if_congr ?_ rfl rfl)
    omega
  · rw [if_neg hn, if_neg (by omega)]
    rfl

theorem ifGranted_bind_ok {k : α → Converted β} (h : k x = .ok y) :
    ifGranted n x >>= k = ifGranted n y := by
  have hbind := ifGranted_bind (n := n) (h.trans ifGranted_zero.symm)
  rwa [Nat.max_zero] at hbind

theorem nestedIn_eq_ifGranted {convert : Machine → Converted α}
    (h : ∀ inner, convert inner = @ifGranted inner _ m x) :
    nestedIn n convert = ifGranted (n + m) x := by
  unfold nestedIn Machine.enter?
  by_cases hn : n ≤ Machine.calls
  · rw [if_pos hn]
    refine (h _).trans (if_congr ?_ rfl rfl)
    show m ≤ Machine.calls - n ↔ _
    omega
  · rw [if_neg hn]
    exact (if_neg (by omega)).symm

omit [Machine] in
theorem exists_of_bind {r : Converted α} {k : α → Converted β} (h : r >>= k = .ok y) :
    ∃ x, r = .ok x ∧ k x = .ok y := by
  cases r with
  | error e => exact nomatch h
  | ok x => exact ⟨x, rfl, h⟩

theorem exists_of_nestedIn {convert : Machine → Converted α} (h : nestedIn n convert = .ok x) :
    ∃ inner, convert inner = .ok x := by
  unfold nestedIn at h
  split at h
  · cases h
  · exact ⟨_, h⟩

end

namespace Conversion

theorem calls_plainValue (t : ParseTree) : GivesOnly (fun v => v.calls = 0) (plainValue t) := by
  have hany {α : Type} (r : Converted α) : GivesOnly (fun _ => True) r := .intro fun _ _ => trivial
  unfold plainValue
  split
  · exact (hany _).bind fun _ _ => rfl
  · exact (hany _).bind fun _ _ => (hany _).bind fun _ _ => rfl
  · exact (hany _).bind fun _ _ => (hany _).bind fun _ _ => rfl
  · have hreads : Walk.Reads (do
        let token ← Walk.next stringTags
        let read ← Walk.lift (string token)
        return Value.string (.text read.1) read.2) fun _ v => v.calls = 0 :=
      .bind .next fun _ _ _ => .bind (.lift_nothing _) fun _ _ _ => .pure rfl
    refine hreads.whole.mono fun v hread => ?_
    obtain ⟨_, _, _, hv⟩ := hread
    exact hv
  · exact (hany _).bind fun _ _ => (hany _).bind fun _ _ => rfl
  · refine (Walk.Reads.whole (P := fun _ v => v.calls = 0) (.pure rfl)).mono fun v hread => ?_
    obtain ⟨_, _, _, hv⟩ := hread
    exact hv
  · exact (hany _).bind fun _ _ => (hany _).bind fun _ _ => rfl

/-! A value that one machine reads is read by every machine that grants its calls, and by no other. -/

mutual

theorem value_eq_ifGranted {large small : Machine} {t : ParseTree} {v : Value}
    (h : @value large t = .ok v) : @value small t = @ifGranted small _ v.calls v := by
  cases t with
  | token tag text span =>
    unfold value at h
    split at h <;> cases h
  | rule tag span ts =>
    unfold value at h ⊢
    split
    · rename_i htag
      rw [if_pos htag] at h
      obtain ⟨inner, hinner⟩ := @exists_of_nestedIn large _ _ _ _ h
      obtain ⟨vs, hvs, hinner⟩ := exists_of_bind hinner
      obtain ⟨u, hfinish, hinner⟩ := exists_of_bind hinner
      obtain rfl := Except.ok.inj hinner
      refine @nestedIn_eq_ifGranted small _ _ _ _ _ fun m => ?_
      rw [@values_eq_ifGranted inner m _ _ hvs]
      refine @ifGranted_bind_ok m _ _ _ _ _ _ ?_
      rw [hfinish]
      rfl
    · rename_i htag
      rw [if_neg htag] at h
      split
      · rename_i hobject
        rw [if_pos hobject] at h
        obtain ⟨inner, hinner⟩ := @exists_of_nestedIn large _ _ _ _ h
        obtain ⟨fs, hfs, hinner⟩ := exists_of_bind hinner
        obtain ⟨u, hfinish, hinner⟩ := exists_of_bind hinner
        obtain rfl := Except.ok.inj hinner
        refine @nestedIn_eq_ifGranted small _ _ _ _ _ fun m => ?_
        rw [@objectFields_eq_ifGranted inner m _ _ hfs]
        refine @ifGranted_bind_ok m _ _ _ _ _ _ ?_
        rw [hfinish]
        rfl
      · rename_i hobject
        rw [if_neg hobject] at h
        have hplain := calls_plainValue (.rule tag span ts)
        split
        · rename_i hvalue
          rw [if_pos hvalue] at h
          rw [hplain.of_eq_ok h, @ifGranted_zero small, h]
        · rename_i hvalue
          rw [if_neg hvalue] at h
          cases h
termination_by sizeOf t

theorem values_eq_ifGranted {large small : Machine} {ts : List ParseTree} {vs : List Value}
    (h : @values large ts = .ok vs) :
    @values small ts = @ifGranted small _ (Value.callsIn vs) vs := by
  cases ts with
  | nil =>
    unfold values at h ⊢
    cases h
    exact (@ifGranted_zero small _ _).symm
  | cons t ts =>
    unfold values at h ⊢
    split
    · rename_i htag
      rw [if_pos htag] at h
      obtain ⟨v, hv, h⟩ := exists_of_bind h
      obtain ⟨vs, hvs, h⟩ := exists_of_bind h
      obtain rfl := Except.ok.inj h
      rw [@value_eq_ifGranted large small _ _ hv]
      refine ifGranted_bind ?_
      rw [@values_eq_ifGranted large small _ _ hvs]
      exact ifGranted_bind_ok rfl
    · rename_i htag
      rw [if_neg htag] at h
      cases h
      exact (@ifGranted_zero small _ _).symm
termination_by sizeOf ts

theorem objectFields_eq_ifGranted {large small : Machine} {ts : List ParseTree}
    {fs : List (String × Value)} (h : @objectFields large ts = .ok fs) :
    @objectFields small ts = @ifGranted small _ (Value.callsInFields fs) fs := by
  cases ts with
  | nil =>
    unfold objectFields at h ⊢
    cases h
    exact (@ifGranted_zero small _ _).symm
  | cons t ts =>
    unfold objectFields at h ⊢
    split
    · rename_i htag
      rw [if_pos htag] at h
      obtain ⟨f, hf, h⟩ := exists_of_bind h
      obtain ⟨fs, hfs, h⟩ := exists_of_bind h
      obtain rfl := Except.ok.inj h
      rw [@objectField_eq_ifGranted large small _ _ hf]
      refine ifGranted_bind ?_
      rw [@objectFields_eq_ifGranted large small _ _ hfs]
      exact ifGranted_bind_ok rfl
    · rename_i htag
      rw [if_neg htag] at h
      cases h
      exact (@ifGranted_zero small _ _).symm
termination_by sizeOf ts

theorem objectField_eq_ifGranted {large small : Machine} {t : ParseTree} {f : String × Value}
    (h : @objectField large t = .ok f) :
    @objectField small t = @ifGranted small _ f.2.calls f := by
  cases t with
  | token tag text span =>
    unfold objectField at h
    cases h
  | rule tag span ts =>
    unfold objectField at h ⊢
    obtain ⟨⟨name, c⟩, hname, h⟩ := exists_of_bind h
    obtain ⟨⟨u, c'⟩, hnext, h⟩ := exists_of_bind h
    obtain ⟨v, hv, h⟩ := exists_of_bind h
    obtain ⟨u', hfinish, h⟩ := exists_of_bind h
    obtain ⟨u'', hcheck, h⟩ := exists_of_bind h
    obtain rfl := Except.ok.inj h
    simp only [hname, hnext, bind, Except.bind]
    rw [@valueAt_eq_ifGranted large small _ _ _ hv]
    refine @ifGranted_bind_ok small _ _ _ _ _ _ ?_
    simp only [hfinish, hcheck]
    rfl
termination_by sizeOf t

theorem valueAt_eq_ifGranted {large small : Machine} {n : Nat} {ts : List ParseTree} {v : Value}
    (h : @valueAt large n ts = .ok v) : @valueAt small n ts = @ifGranted small _ v.calls v := by
  cases ts with
  | nil =>
    unfold valueAt at h ⊢
    cases h
    exact (@ifGranted_zero small _ _).symm
  | cons t ts =>
    cases n with
    | zero =>
      unfold valueAt at h ⊢
      exact value_eq_ifGranted h
    | succ n =>
      unfold valueAt at h ⊢
      exact valueAt_eq_ifGranted h
termination_by sizeOf ts

end

theorem valueLiteral_eq [Machine] {span : Option Span} {u : ParseTree} (hu : u.tag ∈ valueTags) :
    valueLiteral (.rule "value_literal" span [u]) = value u := by
  simp only [valueLiteral, ParseTree.whole, ParseTree.within, Cursor.enter, Walk.next,
    Cursor.next, if_true, hu, bind, StateT.bind, Except.bind]
  cases value u <;> rfl

theorem valueLiteral_eq_ifGranted {large small : Machine} {t : ParseTree} {v : Value}
    (h : @valueLiteral large t = .ok v) :
    @valueLiteral small t = @ifGranted small _ v.calls v := by
  have hreads : Walk.Reads (do
      let child ← Walk.next valueTags
      Walk.lift (@value large child)) fun ts _ => ∃ u, ts = [u] ∧ u.tag ∈ valueTags :=
    .bind .next fun _ u hu => (Walk.Reads.lift_nothing _).mono fun _ _ hnil => ⟨u, by simp [hu, hnil]⟩
  obtain ⟨span, _, rfl, u, rfl, hu⟩ := hreads.whole.of_eq_ok h
  rw [@valueLiteral_eq large span u hu] at h
  rw [@valueLiteral_eq small span u hu]
  exact value_eq_ifGranted h

end Conversion

end GraphQLDoc
