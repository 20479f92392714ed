import GraphQLDoc.Proofs.Leaves.Values

/-!
Types level by level. The conversion goes down to the named type, gathering the wrappers on its way,
and puts them around the name from the inside out. That is the same, in what it gives and in what it
refuses, as converting what is inside of a level and then wrapping it. A type that is converted has one
wrapper for each node on the way to its name.
-/
namespace GraphQLDoc.Conversion

variable {t u : ParseTree} {r : TypeRef}

/-- The type inside of a wrapper node, which has to be its only child. -/
def onlyType (t : ParseTree) : Converted ParseTree := t.whole t.tag (Walk.next typeTags)

theorem onlyType_rule (tag : String) (span : Option Span) (ts : List ParseTree) :
    onlyType (.rule tag span ts) = (⟨tag, span, 0, ts⟩ : Cursor).next typeTags >>= fun p =>
      p.2.finish.map fun _ => p.1 := by
  have henter : Cursor.enter tag (.rule tag span ts) = .ok ⟨tag, span, 0, ts⟩ := if_pos rfl
  show (Cursor.enter tag (.rule tag span ts) >>= _) = _
  rw [henter]
  show ((⟨tag, span, 0, ts⟩ : Cursor).next typeTags >>= fun p => p.2.finish.map _ >>= _) >>= _ = _
  cases (⟨tag, span, 0, ts⟩ : Cursor).next typeTags with
  | error e => rfl
  | ok p =>
    show (p.2.finish.map _ >>= _) >>= _ = p.2.finish.map _
    cases p.2.finish <;> rfl

theorem onlyType_eq_ok (h : onlyType t = .ok u) : ∃ span, t = .rule t.tag span [u] := by
  have hreads : GivesOnly (fun u => ∃ span ts, t = .rule t.tag span ts ∧ ts = [u] ∧ u.tag ∈ typeTags)
      (onlyType t) :=
    Walk.Reads.whole .next
  obtain ⟨span, ts, ht, rfl, -⟩ := hreads.of_eq_ok h
  exact ⟨span, ht⟩

theorem sizeOf_onlyType (h : onlyType t = .ok u) : sizeOf u < sizeOf t := by
  obtain ⟨span, ht⟩ := onlyType_eq_ok h
  have hsize := congrArg sizeOf ht
  simp only [ParseTree.rule.sizeOf_spec, List.cons.sizeOf_spec] at hsize
  omega

/-- A type by recursion: what is inside of a level is converted and then wrapped. -/
def typeByLevel (t : ParseTree) : Converted TypeRef :=
  if t.tag = "named_type" then (namedType t).map .named
  else if t.tag ∈ typeTags then
    match _hinner : onlyType t with
    | .error e => .error e
    | .ok inner => do
      let of ← typeByLevel inner
      wrapChecked of (wrapperOf t.tag)
  else .error (.shape (.notType t.tag) t.span?)
termination_by t
decreasing_by exact sizeOf_onlyType _hinner

/-- A type by a loop that goes inwards, with the wrappers met so far. They are put around the name
when it is reached, the last one first. -/
def typeByLoop (wrappers : List TypeRef.Wrapper) (t : ParseTree) : Converted TypeRef :=
  if t.tag = "named_type" then do
    let name ← namedType t
    wrappers.reverse.foldlM wrapChecked (.named name)
  else if t.tag ∈ typeTags then
    match _hinner : onlyType t with
    | .error e => .error e
    | .ok inner => typeByLoop (wrappers ++ [wrapperOf t.tag]) inner
  else .error (.shape (.notType t.tag) t.span?)
termination_by t
decreasing_by exact sizeOf_onlyType _hinner

/-! The conversions, one level at a time. -/

theorem unwrap_named (hname : t.tag = "named_type") :
    unwrap t = (namedType t).map fun name => ([], name) := by
  cases t with
  | token tag text span => exact if_pos (.inl hname)
  | rule tag span ts => rw [unwrap, if_pos (show tag = "named_type" from hname)]

theorem unwrap_other (hname : t.tag ≠ "named_type") (htag : t.tag ∉ typeTags) :
    unwrap t = .error (.shape (.notType t.tag) t.span?) := by
  cases t with
  | token tag text span => exact if_neg (not_or.mpr ⟨hname, htag⟩)
  | rule tag span ts =>
    rw [unwrap, if_neg (show tag ≠ "named_type" from hname),
      if_neg (show tag ∉ typeTags from htag)]
    rfl

section

variable (hname : t.tag ≠ "named_type") (htag : t.tag ∈ typeTags)

include hname htag

theorem typeByLoop_wrapper (ws : List TypeRef.Wrapper) :
    typeByLoop ws t = onlyType t >>= typeByLoop (ws ++ [wrapperOf t.tag]) := by
  rw [typeByLoop, if_neg hname, if_pos htag]
  split
  · rename_i hinner
    rw [hinner]
    rfl
  · rename_i hinner
    rw [hinner]
    rfl

theorem unwrap_wrapper : unwrap t =
    onlyType t >>= fun inner => (unwrap inner).map fun p => (wrapperOf t.tag :: p.1, p.2) := by
  cases t with
  | token tag text span =>
    rw [unwrap, if_pos (.inr htag)]
    rfl
  | rule tag span ts =>
    rw [unwrap, if_neg (show tag ≠ "named_type" from hname), if_pos (show tag ∈ typeTags from htag),
      onlyType_rule]
    cases ts with
    | nil => rfl
    | cons inner rest =>
      dsimp only [Cursor.next]
      split
      · cases rest with
        | nil =>
          show (unwrap inner >>= _) = (unwrap inner).map _
          cases unwrap inner <;> rfl
        | cons next rest => rfl
      · rfl

end

theorem typeByLoop_eq (ws : List TypeRef.Wrapper) (t : ParseTree) :
    typeByLoop ws t = typeByLevel t >>= ws.reverse.foldlM wrapChecked := by
  fun_induction typeByLevel t generalizing ws with
  | case1 t hname =>
    rw [typeByLoop, if_pos hname]
    cases namedType t <;> rfl
  | case2 t hname htag e hinner =>
    rw [typeByLoop_wrapper hname htag, hinner]
    rfl
  | case3 t hname htag inner hinner ih =>
    rw [typeByLoop_wrapper hname htag, hinner]
    show typeByLoop (ws ++ [wrapperOf t.tag]) inner = _
    rw [ih, List.reverse_append, List.reverse_singleton, List.singleton_append, bind_assoc]
    rfl
  | case4 t hname htag =>
    rw [typeByLoop, if_neg hname, if_neg htag]
    rfl

theorem typeByLoop_eq_unwrap (ws : List TypeRef.Wrapper) (t : ParseTree) :
    typeByLoop ws t = unwrap t >>= fun p =>
      (ws ++ p.1).reverse.foldlM wrapChecked (.named p.2) := by
  fun_induction typeByLoop ws t with
  | case1 ws t hname =>
    rw [unwrap_named hname]
    cases namedType t with
    | error e => rfl
    | ok name =>
      show ws.reverse.foldlM _ _ = (ws ++ []).reverse.foldlM _ _
      rw [List.append_nil]
  | case2 ws t hname htag e hinner =>
    rw [unwrap_wrapper hname htag, hinner]
    rfl
  | case3 ws t hname htag inner hinner ih =>
    rw [unwrap_wrapper hname htag, hinner, ih]
    show _ = (unwrap inner).map _ >>= _
    cases unwrap inner with
    | error e => rfl
    | ok p =>
      show (ws ++ [wrapperOf t.tag] ++ p.1).reverse.foldlM wrapChecked (.named p.2) =
        (ws ++ wrapperOf t.tag :: p.1).reverse.foldlM wrapChecked (.named p.2)
      rw [List.append_cons ws (wrapperOf t.tag) p.1]
  | case4 ws t hname htag =>
    rw [unwrap_other hname htag]
    rfl

/-- The conversion is that loop, with nothing gathered yet. -/
theorem typeRef_eq_typeByLoop (t : ParseTree) : typeRef t = typeByLoop [] t :=
  (typeByLoop_eq_unwrap [] t).symm

/-! What is converted. -/

/-- A named type in wrapper nodes with one child each, the wrappers from the outside in. -/
inductive Wraps : ParseTree → List TypeRef.Wrapper → String → Prop where
  | named {tag name : String} {span nameSpan : Option Span} {tokenSpan : Span} :
      Wraps (.rule "named_type" span [.rule "name" nameSpan [.token tag name tokenSpan]]) [] name
  | list {t : ParseTree} {ws : List TypeRef.Wrapper} {name : String} {span : Option Span}
      (inner : Wraps t ws name) : Wraps (.rule "list_type" span [t]) (.list :: ws) name
  | nonNull {t : ParseTree} {ws : List TypeRef.Wrapper} {name : String} {span : Option Span}
      (inner : Wraps t ws name) : Wraps (.rule "non_null_type" span [t]) (.nonNull :: ws) name

theorem reads_nameNode :
    Walk.name.Reads fun ts name => ∃ span tag tokenSpan,
      ts = [.rule "name" span [.token tag name tokenSpan]] := by
  refine Walk.Reads.next.bind fun ts t ht => ?_
  obtain ⟨rfl, htag⟩ := ht
  have htoken : GivesOnly (fun p => ∃ span tag tokenSpan,
      [t] = [.rule "name" span [.token tag p.1 tokenSpan]]) (t.nameToken "name") := by
    refine GivesOnly.intro fun p hp => ?_
    unfold ParseTree.nameToken at hp
    split at hp
    · rename_i tag span token text textSpan
      obtain rfl := Except.ok.inj hp
      have hname : tag = "name" := List.mem_singleton.mp htag
      exact ⟨span, token, textSpan, by rw [hname]⟩
    · cases hp
  refine Walk.Reads.bind (.lift (P := fun ts p => ts = [] ∧ ∃ span tag tokenSpan,
    [t] = [.rule "name" span [.token tag p.1 tokenSpan]]) ?_) fun ts p hp => .pure ?_
  · exact htoken.mono fun p hp => ⟨rfl, hp⟩
  · rw [hp.1]
    exact hp.2

theorem wraps_namedType : GivesOnly (Wraps t []) (namedType t) := by
  have hnode : GivesOnly (Wraps t []) (t.whole "named_type" Walk.name) := by
    refine (Walk.Reads.whole reads_nameNode).mono ?_
    rintro name ⟨span, ts, rfl, nameSpan, tag, tokenSpan, rfl⟩
    exact .named
  exact hnode.checked

theorem eq_wrap_of_wrapChecked {of : TypeRef} {w : TypeRef.Wrapper} (h : wrapChecked of w = .ok r) :
    r = of.wrap w := by
  unfold wrapChecked at h
  split at h
  · cases h
  · exact (Except.ok.inj h).symm

/-- A wrapper node around a type. -/
theorem Wraps.wrapper {ws : List TypeRef.Wrapper} {name : String} {span : Option Span}
    (h : Wraps u ws name) (hname : t.tag ≠ "named_type") (htag : t.tag ∈ typeTags)
    (ht : t = .rule t.tag span [u]) : Wraps t (wrapperOf t.tag :: ws) name := by
  rw [ht]
  have htags : t.tag = "list_type" ∨ t.tag = "non_null_type" := by
    simpa [typeTags, hname] using htag
  rcases htags with htag | htag
  · rw [htag]
    exact .list h
  · rw [htag]
    exact .nonNull h

theorem wraps_typeByLevel (t : ParseTree) :
    GivesOnly (fun r => Wraps t r.wrappers r.innermost) (typeByLevel t) := by
  fun_induction typeByLevel t with
  | case1 t hname => exact Gives.map wraps_namedType fun _ h => h
  | case2 => trivial
  | case3 t hname htag inner hinner ih =>
    obtain ⟨span, ht⟩ := onlyType_eq_ok hinner
    refine ih.bind fun of hof => GivesOnly.intro fun r hr => ?_
    obtain rfl := eq_wrap_of_wrapChecked hr
    have hwraps := hof.wrapper hname htag ht
    cases hw : wrapperOf t.tag <;> rwa [hw] at hwraps
  | case4 => trivial

/-- Types are converted by a loop, to what recursion along their levels gives, errors included. A type
that is converted has one wrapper for each wrapper node, around the name of the innermost named type. -/
theorem typeRef_eq_typeByLevel (t : ParseTree) :
    typeRef t = typeByLoop [] t ∧ typeRef t = typeByLevel t ∧
      ∀ r, typeRef t = .ok r → Wraps t r.wrappers r.innermost := by
  have hlevel : typeRef t = typeByLevel t := by
    rw [typeRef_eq_typeByLoop, typeByLoop_eq]
    cases typeByLevel t <;> rfl
  refine ⟨typeRef_eq_typeByLoop t, hlevel, ?_⟩
  intro r hr
  rw [hlevel] at hr
  exact (wraps_typeByLevel t).of_eq_ok hr

/-- `[[A!]!]` as a tree of which only the tags are looked at. -/
def nestedTypeTree : ParseTree :=
  .rule "list_type" none [.rule "non_null_type" none [.rule "list_type" none
    [.rule "non_null_type" none [.rule "named_type" none
      [.rule "name" none [.token "NAME" "A" ⟨.start, .start⟩]]]]]]

theorem typeRef_eq_typeByLevel_nested :
    typeRef nestedTypeTree = .ok (.list (.nonNull (.list (.nonNull (.named "A"))))) ∧
      Wraps nestedTypeTree [.list, .nonNull, .list, .nonNull] "A" := by
  have htype : typeRef nestedTypeTree = .ok (.list (.nonNull (.list (.nonNull (.named "A"))))) := by
    rfl
  exact ⟨htype, (typeRef_eq_typeByLevel nestedTypeTree).2.2 _ htype⟩

end GraphQLDoc.Conversion
