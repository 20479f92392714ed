import GraphQLDoc.Proofs.Faults.Walk
import GraphQLDoc.Proofs.Leaves.Values

/-!
The conversions of names, types, values, arguments and directives find the faults of their trees.
-/
namespace GraphQLDoc

namespace ParseTree

theorem tokenFaults_eq_nil {t : ParseTree} (h : t.tag ∉ ["INT", "FLOAT", "STRING"]) :
    t.tokenFaults = [] := by
  simp only [List.mem_cons, List.not_mem_nil, or_false, not_or] at h
  obtain ⟨hint, hfloat, hstring⟩ := h
  rw [tokenFaults, if_neg hint, if_neg hfloat, if_neg hstring]

theorem faults_token {t : ParseTree} {tag text : String} {span : Span} (ht : t = .token tag text span) :
    t.faults = t.tokenFaults := by
  rw [ht, faults]

/-- Words have no faults. -/
theorem faults_word {t : ParseTree} (h : t.tag ∈ spelledTags) : t.faults = [] := by
  cases t with
  | rule tag span ts => exact faults_spelled h
  | token tag text span =>
    rw [faults_token rfl]
    refine tokenFaults_eq_nil fun hliteral => ?_
    have hdisjoint : ∀ tag ∈ spelledTags, tag ∉ ["INT", "FLOAT", "STRING"] := by decide
    exact hdisjoint _ h hliteral

end ParseTree

namespace Conversion

open ParseTree (faultsIn spelledTags faultyTags)

variable {t : ParseTree}

theorem finds_nameToken (t : ParseTree) (rule : String) : Finds [] (t.nameToken rule) := by
  unfold ParseTree.nameToken
  split
  · rfl
  · exact ConversionError.isAmong_shape

theorem finds_nameOf {rule : String} (h : rule ∈ spelledTags) : (Walk.nameOf rule).Finds [] := by
  refine .next fun t ht => ?_
  rw [ParseTree.faults_word (List.mem_singleton.mp ht ▸ h)]
  exact .lift (finds_nameToken t rule) fun p _ => .pure p.1

theorem finds_name : Walk.name.Finds [] := finds_nameOf (by decide)

theorem finds_namedType : Finds t.faults (namedType t) :=
  (Walk.Finds.whole finds_name (by decide)).checked

/-! Types. -/

theorem finds_unwrap (t : ParseTree) : Finds t.faults (unwrap t) := by
  cases t with
  | token tag text span =>
    rw [unwrap]
    split
    · exact finds_namedType.map _
    · exact ConversionError.isAmong_shape
  | rule tag span ts =>
    rw [unwrap]
    split
    · exact finds_namedType.map _
    · split
      · rename_i htag
        have hplain : ∀ s ∈ typeTags, s ∉ spelledTags ++ faultyTags := by decide
        rw [ParseTree.faults_plain (hplain tag htag)]
        cases ts with
        | nil => exact ConversionError.isAmong_shape
        | cons inner rest =>
          dsimp only
          split
          · cases rest with
            | nil =>
              rw [ParseTree.faultsIn_singleton]
              exact (finds_unwrap inner).thenNone fun _ => .pure _
            | cons u rest => exact ConversionError.isAmong_shape
          · exact ConversionError.isAmong_shape
      · exact ConversionError.isAmong_shape
termination_by sizeOf t

theorem finds_wrapChecked (of : TypeRef) (w : TypeRef.Wrapper) : Finds [] (wrapChecked of w) := by
  unfold wrapChecked
  split
  · exact fun p span he => nomatch he
  · rfl

theorem finds_wrapAll (ws : List TypeRef.Wrapper) (of : TypeRef) :
    Finds [] (ws.foldlM wrapChecked of) := by
  induction ws generalizing of with
  | nil => exact .pure of
  | cons w ws ih =>
    rw [List.foldlM_cons]
    exact (finds_wrapChecked of w).thenNone fun of' => ih of'

theorem finds_typeRef : Finds t.faults (typeRef t) :=
  (finds_unwrap t).thenNone fun _ => finds_wrapAll _ _

theorem finds_type : type.Finds [] :=
  .next fun _ _ => .lifted finds_typeRef

/-! Literals. -/

theorem finds_string (ht : t.tag ∈ stringTags) : Finds t.faults (string t) := by
  cases t with
  | rule tag span ts => exact fun p span he => nomatch he
  | token tag text span =>
    rw [ParseTree.faults_token rfl]
    rcases (by simpa [stringTags, ParseTree.tag] using ht : tag = "STRING" ∨ tag = "BLOCK_STRING")
      with rfl | rfl
    · exact .reported _
    · rfl

theorem finds_description : description.Finds [] := by
  refine .optional (.pure none) fun t _ => .given (Walk.blames_child (by decide)) fun token h => ?_
  rw [h.1]
  exact .lift (finds_string h.2) fun p _ => .pure (some p.1)

theorem finds_integer (ht : t.tag ∈ ["INT"]) : Finds t.faults (integer t) := by
  cases t with
  | rule tag span ts => exact fun p span he => nomatch he
  | token tag text span =>
    obtain rfl := List.mem_singleton.mp ht
    rw [ParseTree.faults_token rfl]
    exact .reported _

theorem finds_float (ht : t.tag ∈ ["FLOAT"]) : Finds t.faults (float t) := by
  cases t with
  | rule tag span ts => exact fun p span he => nomatch he
  | token tag text span =>
    obtain rfl := List.mem_singleton.mp ht
    rw [ParseTree.faults_token rfl]
    exact .reported _

theorem finds_tokenText (ht : t.tag ∉ ["INT", "FLOAT", "STRING"]) : Finds t.faults (tokenText t) := by
  cases t with
  | rule tag span ts => exact fun p span he => nomatch he
  | token tag text span =>
    rw [ParseTree.faults_token rfl, ParseTree.tokenFaults_eq_nil ht]
    exact .pure text

/-! Values. -/

theorem finds_variableName : Finds t.faults (variableName t) :=
  (Walk.Finds.whole finds_name (by decide)).checked

theorem finds_plainValue (t : ParseTree) : Finds t.faults (plainValue t) := by
  unfold plainValue
  split
  · exact finds_variableName.thenNone fun n => .pure _
  · exact Walk.finds_child (by decide) fun u hu => (finds_integer hu).thenNone fun n => .pure _
  · exact Walk.finds_child (by decide) fun u hu => (finds_float hu).thenNone fun x => .pure _
  · exact Walk.Finds.whole (.next fun u hu => .lift (finds_string hu) fun p _ => .pure _)
      (by decide)
  · refine Walk.finds_child (by decide) fun u hu => (finds_tokenText ?_).thenNone fun s => .pure _
    have hwords : ∀ tag ∈ ["TRUE", "FALSE"], tag ∉ ["INT", "FLOAT", "STRING"] := by decide
    exact hwords _ hu
  · exact Walk.Finds.whole (.pure Value.null) (by decide)
  · exact (Walk.Finds.whole (finds_nameOf (by decide)) (by decide)).thenNone fun n =>
      (Finds.checkNames _).thenNone fun _ => .pure _

theorem faultsIn_takeWhile_subset (ts : List ParseTree) (p : ParseTree → Bool) :
    faultsIn (ts.takeWhile p) ⊆ faultsIn ts := by
  have hsplit := congrArg faultsIn (List.takeWhile_append_dropWhile (p := p) (l := ts))
  rw [ParseTree.faultsIn_append] at hsplit
  rw [← hsplit]
  exact List.subset_append_left _ _

/-- Items in front of the children, behind which nothing may be left. -/
theorem finds_items {α β : Type} {tag : String} {span : Option Span} {tags : List String}
    {ts : List ParseTree} {r : Converted α} {f : α → β}
    (h : Finds (faultsIn (ts.takeWhile (·.tag ∈ tags))) r) :
    Finds (faultsIn ts) (do
      let xs ← r
      ((⟨tag, span, 0, ts⟩ : Cursor).repeated tags).2.finish
      return f xs) := by
  refine .after (GraphQLDoc.Blames.mono h (faultsIn_takeWhile_subset ts _)) fun xs hxs => ?_
  cases hfinish : ((⟨tag, span, 0, ts⟩ : Cursor).repeated tags).2.finish with
  | error e =>
    intro p span he
    unfold Cursor.finish at hfinish
    split at hfinish
    · cases hfinish
    · cases hfinish
      cases he
  | ok u =>
    rw [takeWhile_of_finish hfinish] at hxs
    exact hxs

mutual

theorem finds_value [Machine] (t : ParseTree) : Finds t.faults (value t) := by
  cases t with
  | token tag text span =>
    rw [value]
    split <;> exact fun p span he => nomatch he
  | rule tag span ts =>
    rw [value]
    split
    · rename_i htag
      subst htag
      rw [ParseTree.faults_plain (by decide)]
      exact .nestedIn fun _ => finds_items (finds_values ts)
    · split
      · rename_i htag
        subst htag
        rw [ParseTree.faults_plain (by decide)]
        exact .nestedIn fun _ => finds_items (finds_objectFields ts)
      · split
        · exact finds_plainValue _
        · exact ConversionError.isAmong_shape
termination_by sizeOf t

theorem finds_values [Machine] (ts : List ParseTree) :
    Finds (faultsIn (ts.takeWhile (·.tag ∈ valueTags))) (values ts) := by
  cases ts with
  | nil => rw [values]; exact ParseTree.faultsIn_nil
  | cons t ts =>
    rw [values]
    split
    · rename_i htag
      rw [List.takeWhile_cons_of_pos (by simpa using htag), ParseTree.faultsIn_cons]
      exact (finds_value t).bind fun v => (finds_values ts).thenNone fun vs => .pure _
    · rename_i htag
      rw [List.takeWhile_cons_of_neg (by simpa using htag)]
      exact ParseTree.faultsIn_nil
termination_by sizeOf ts

theorem finds_objectFields [Machine] (ts : List ParseTree) :
    Finds (faultsIn (ts.takeWhile (·.tag ∈ ["object_field"]))) (objectFields ts) := by
  cases ts with
  | nil => rw [objectFields]; exact ParseTree.faultsIn_nil
  | cons t ts =>
    rw [objectFields]
    split
    · rename_i htag
      rw [List.takeWhile_cons_of_pos (by simpa using htag), ParseTree.faultsIn_cons]
      exact (finds_objectField t htag).bind fun f => (finds_objectFields ts).thenNone fun fs =>
        .pure _
    · rename_i htag
      rw [List.takeWhile_cons_of_neg (by simpa using htag)]
      exact ParseTree.faultsIn_nil
termination_by sizeOf ts

theorem finds_objectField [Machine] (t : ParseTree) (ht : t.tag = "object_field") :
    Finds t.faults (objectField t) := by
  cases t with
  | token tag text span =>
    rw [objectField]
    exact fun p span he => nomatch he
  | rule tag span ts =>
    obtain rfl : tag = "object_field" := ht
    rw [objectField, ParseTree.faults_plain (by decide)]
    have hreads : Walk.name.Reads fun ts n => ∃ t, ts = [t] ∧ t.leaves = [.word n] :=
      reads_nameOf (by decide)
    have hname := Walk.Blames.and finds_name hreads
    refine .after (hname ⟨"object_field", span, 0, ts⟩) ?_
    rintro ⟨name, c⟩ ⟨_, rest, hts, hc, hfaults, n, rfl, -⟩
    obtain rfl : ts = n :: rest := hts
    obtain rfl : c = Cursor.past ⟨"object_field", span, 0, n :: rest⟩ [n] rest := hc
    have hfaults : n.faults = [] := by simpa [Walk.behind] using hfaults
    rw [ParseTree.faultsIn_cons, hfaults, List.nil_append]
    have hnext : (Walk.next valueTags).Blames faultsIn fun ts u => ts = [u] ∧ u.tag ∈ valueTags :=
      .next
    refine .after (hnext (Cursor.past ⟨"object_field", span, 0, n :: rest⟩ [n] rest)) ?_
    rintro ⟨u, d⟩ ⟨_, rest', hrest, hd, rfl, htag⟩
    obtain rfl : rest = u :: rest' := hrest
    obtain rfl : d = Cursor.past ⟨"object_field", span, 0, n :: u :: rest'⟩ [n, u] rest' := hd
    have hvalue : valueAt 1 (n :: u :: rest') = value u := by rw [valueAt, valueAt]
    dsimp only
    rw [hvalue, ParseTree.faultsIn_cons]
    cases rest' with
    | cons _ _ =>
      refine .after (GraphQLDoc.Blames.mono (finds_value u) (List.subset_append_left _ _)) ?_
      exact fun v hv p span he => nomatch he
    | nil =>
      rw [ParseTree.faultsIn_nil, List.append_nil]
      exact (finds_value u).thenNone fun v => (Finds.checkNames _).thenNone fun _ => .pure _
termination_by sizeOf t

end

variable [Machine]

theorem finds_argument : Finds t.faults (argument t) := by
  refine Finds.checked (Walk.Finds.whole ?_ (by decide))
  exact finds_name.bind fun n => .next fun u _ => .lift (finds_value u) fun v _ => .pure _

theorem finds_arguments : arguments.Finds [] :=
  Walk.finds_clause (by decide) fun _ _ => finds_argument

theorem finds_directive : Finds t.faults (directive t) := by
  refine Finds.checked (Walk.Finds.whole ?_ (by decide))
  exact finds_name.bind fun n => finds_arguments.bind fun args => .pure _

theorem finds_directives : directives.Finds [] :=
  Walk.finds_clause (by decide) fun _ _ => finds_directive

theorem finds_defaultValue : defaultValue.Finds [] := by
  refine .optional (.pure none) fun t _ => ?_
  have hnode : Finds t.faults (t.whole "default_value" do
      let child ← Walk.next valueTags
      Walk.lift (value child)) :=
    Walk.Finds.whole (.next fun u _ => .lifted (finds_value u)) (by decide)
  exact .lift hnode fun v _ => .pure (some v)

end Conversion

end GraphQLDoc
