import GraphQLDoc.Proofs.Leaves.Walk

/-!
The conversions of names, types, values, arguments and directives keep the leaves of their trees.
-/
namespace GraphQLDoc.Conversion

open ParseTree (leavesOf wordTags)

variable {t : ParseTree}

theorem keeps_nameToken {rule : String} (ht : t.tag ∈ wordTags) :
    Keeps (fun p => [.word p.1]) t (t.nameToken rule) := by
  refine GivesOnly.intro fun p hp => ?_
  unfold ParseTree.nameToken at hp
  split at hp
  · rename_i tag span token text textSpan
    obtain rfl := Except.ok.inj hp
    rw [ParseTree.leaves]
    exact if_pos ht
  · cases hp

theorem reads_nameOf {rule : String} (h : rule ∈ wordTags) :
    (Walk.nameOf rule).Reads fun ts n => ∃ t, ts = [t] ∧ t.leaves = [.word n] := by
  refine Walk.Reads.next.bind fun ts t ht => ?_
  obtain ⟨rfl, htag⟩ := ht
  have hname : Keeps (fun p => [.word p.1]) t (t.nameToken rule) :=
    keeps_nameToken (List.mem_singleton.mp htag ▸ h)
  refine Walk.Reads.bind (.lift (P := fun ts p => ts = [] ∧ t.leaves = [.word p.1]) ?_)
    fun ts' p hp => .pure ⟨t, ?_, hp.2⟩
  · exact hname.mono fun p hp => ⟨rfl, hp⟩
  · rw [hp.1, List.append_nil, List.append_nil]

theorem keeps_nameOf {rule : String} (h : rule ∈ wordTags) :
    (Walk.nameOf rule).Keeps [] fun n => [.word n] := by
  refine (reads_nameOf h).mono ?_
  rintro ts n ⟨t, rfl, ht⟩
  rw [List.nil_append, ParseTree.leavesOf_singleton, ht]

theorem keeps_name : Walk.name.Keeps [] fun n => [.word n] := keeps_nameOf (by decide)

theorem keeps_namedType : Keeps (fun n => [.word n]) t (namedType t) :=
  (Walk.Keeps.whole keeps_name (by decide)).checked

/-! Types. -/

theorem leaves_of_mem {tags : List String} {tag : String} {span : Option Span} {ts : List ParseTree}
    (htag : tag ∈ tags) (htags : ∀ s ∈ tags, s ∉ wordTags) :
    (ParseTree.rule tag span ts).leaves = leavesOf ts :=
  ParseTree.leaves_rule (htags tag htag)

theorem keeps_unwrap (t : ParseTree) : Keeps (fun p => [.word p.2]) t (unwrap t) := by
  cases t with
  | token tag text span =>
    rw [unwrap]
    split
    · exact keeps_namedType.map fun _ => rfl
    · trivial
  | rule tag span ts =>
    rw [unwrap]
    split
    · exact keeps_namedType.map fun _ => rfl
    · split
      · rename_i htag
        have hleaves : (ParseTree.rule tag span ts).leaves = leavesOf ts :=
          leaves_of_mem htag (by decide)
        cases ts with
        | nil => trivial
        | cons inner rest =>
          dsimp only
          split
          · cases rest with
            | nil =>
              refine (keeps_unwrap inner).bind fun p hp => ?_
              exact hleaves.trans (ParseTree.leavesOf_singleton.trans hp)
            | cons u rest => trivial
          · trivial
      · trivial
termination_by sizeOf t

theorem innermost_wrapChecked {of r : TypeRef} {w : TypeRef.Wrapper}
    (h : wrapChecked of w = .ok r) :
    r.innermost = of.innermost := by
  unfold wrapChecked at h
  split at h
  · cases h
  · obtain rfl := Except.ok.inj h
    cases w <;> rfl

theorem innermost_wrapAll {ws : List TypeRef.Wrapper} {of r : TypeRef}
    (h : ws.foldlM wrapChecked of = .ok r) : r.innermost = of.innermost := by
  induction ws generalizing of with
  | nil =>
    obtain rfl := Except.ok.inj h
    rfl
  | cons w ws ih =>
    rw [List.foldlM_cons] at h
    cases hw : wrapChecked of w with
    | error e =>
      rw [hw] at h
      cases h
    | ok of' =>
      rw [hw] at h
      exact (ih h).trans (innermost_wrapChecked hw)

theorem keeps_typeRef : Keeps TypeRef.leaves t (typeRef t) :=
  (keeps_unwrap t).bind fun p hp => GivesOnly.intro fun r hr => by
    rw [hp, TypeRef.leaves, innermost_wrapAll hr, TypeRef.innermost]

theorem keeps_type : type.Keeps [] TypeRef.leaves :=
  .next fun _ _ => .lifted keeps_typeRef

/-! Literals. -/

theorem keeps_string (ht : t.tag ∈ stringTags) : Keeps (fun p => [.string p.1]) t (string t) := by
  cases t with
  | rule tag span ts => trivial
  | token tag text span =>
    rcases (by simpa [stringTags, ParseTree.tag] using ht : tag = "STRING" ∨ tag = "BLOCK_STRING")
      with rfl | rfl
    · refine GivesOnly.intro fun p hp => ?_
      show [Leaf.ofString text] = _
      rw [string] at hp
      · unfold Leaf.ofString
        split at hp
        · rename_i s hs
          rw [hs, ← Except.ok.inj hp]
        · cases hp
        · cases hp
      · exact fun h => absurd h (by decide)
    · exact rfl

theorem keeps_description : description.Keeps [] descriptionLeaves := by
  refine .optional (.pure rfl) fun t _ => .given (Walk.only_child (by decide)) fun token h => ?_
  rw [h.1]
  exact .lift (keeps_string h.2) fun _ => .pure rfl

theorem keeps_integer (ht : t.tag ∈ ["INT"]) : Keeps (fun n => [.int n]) t (integer t) := by
  cases t with
  | rule tag span ts => trivial
  | token tag text span =>
    obtain rfl := List.mem_singleton.mp ht
    refine GivesOnly.intro fun n hn => ?_
    show [Leaf.ofInt text] = _
    rw [integer] at hn
    unfold Leaf.ofInt
    split at hn
    · cases hn
    · rename_i negative digits hread
      rw [hread]
      dsimp only at hn ⊢
      generalize (if negative = true then -(Numeral.digitsValue digits : Int)
        else Numeral.digitsValue digits) = m at hn ⊢
      split at hn
      · cases hn
      · split at hn
        · rw [Except.ok.inj hn]
        · cases hn

theorem keeps_float (ht : t.tag ∈ ["FLOAT"]) : Keeps (fun x => [.float x]) t (float t) := by
  cases t with
  | rule tag span ts => trivial
  | token tag text span =>
    obtain rfl := List.mem_singleton.mp ht
    refine GivesOnly.intro fun x hx => ?_
    show [Leaf.ofFloat text] = _
    rw [float] at hx
    unfold Leaf.ofFloat
    split at hx
    · cases hx
    · rename_i y hread
      rw [hread]
      split at hx
      · rw [Except.ok.inj hx]
      · cases hx

theorem keeps_boolean (ht : t.tag ∈ ["TRUE", "FALSE"]) :
    Keeps (fun s => [.boolean (s == "true")]) t (tokenText t) := by
  cases t with
  | rule tag span ts => trivial
  | token tag text span =>
    rcases (by simpa [ParseTree.tag] using ht : tag = "TRUE" ∨ tag = "FALSE") with rfl | rfl <;>
      exact rfl

/-! Values. -/

theorem keeps_variableName : Keeps (fun n => [.word n]) t (variableName t) :=
  (Walk.Keeps.whole keeps_name (by decide)).checked

theorem keeps_plainValue (t : ParseTree) : Keeps Value.leaves t (plainValue t) := by
  unfold plainValue
  split
  · exact keeps_variableName.bind fun n hn => hn
  · exact (Walk.only_child (by decide)).bind fun u hu => (keeps_integer hu.2).bind fun n hn =>
      hu.1.trans hn
  · exact (Walk.only_child (by decide)).bind fun u hu => (keeps_float hu.2).bind fun x hx =>
      hu.1.trans hx
  · exact Walk.Keeps.whole (.next fun u hu => .lift (keeps_string hu) fun _ => .pure rfl)
      (by decide)
  · exact (Walk.only_child (by decide)).bind fun u hu => (keeps_boolean hu.2).bind fun s hs =>
      hu.1.trans hs
  · exact Walk.Keeps.whole (.pure rfl) (by decide)
  · exact (Walk.Keeps.whole (keeps_nameOf (by decide)) (by decide)).bind fun n hn => by
      cases checkNames [("value", n)] with
      | error e => trivial
      | ok u => exact hn

theorem takeWhile_of_finish {c : Cursor} {tags : List String}
    (h : (c.repeated tags).2.finish = .ok ()) : c.rest.takeWhile (·.tag ∈ tags) = c.rest := by
  have hnone : c.rest.drop (c.rest.takeWhile (·.tag ∈ tags)).length = [] := by
    simp only [Cursor.finish, Cursor.repeated, Cursor.peek] at h
    split at h
    · rename_i hpeek
      simpa using hpeek
    · cases h
  exact (List.takeWhile_prefix _).eq_of_length_le (List.drop_eq_nil_iff.mp hnone)

mutual

theorem keeps_value [Machine] (t : ParseTree) : Keeps Value.leaves t (value t) := by
  cases t with
  | token tag text span =>
    rw [value]
    split <;> trivial
  | rule tag span ts =>
    rw [value]
    split
    · rename_i htag
      subst htag
      refine GivesOnly.nestedIn fun _ => (keeps_values ts).bind fun vs hvs => ?_
      cases hfinish : ((⟨"list_value", span, 0, ts⟩ : Cursor).repeated valueTags).2.finish with
      | error e => trivial
      | ok u =>
        rw [takeWhile_of_finish hfinish] at hvs
        exact (ParseTree.leaves_rule (by decide)).trans hvs
    · split
      · rename_i htag
        subst htag
        refine GivesOnly.nestedIn fun _ => (keeps_objectFields ts).bind fun fs hfs => ?_
        cases hfinish :
            ((⟨"object_value", span, 0, ts⟩ : Cursor).repeated ["object_field"]).2.finish with
        | error e => trivial
        | ok u =>
          rw [takeWhile_of_finish hfinish] at hfs
          exact (ParseTree.leaves_rule (by decide)).trans hfs
      · split
        · exact keeps_plainValue _
        · trivial
termination_by sizeOf t

theorem keeps_values [Machine] (ts : List ParseTree) :
    GivesOnly (fun vs => leavesOf (ts.takeWhile (·.tag ∈ valueTags)) = Value.leavesOf vs)
      (values ts) := by
  cases ts with
  | nil => rw [values]; exact ParseTree.leavesOf_nil
  | cons t ts =>
    rw [values]
    split
    · rename_i htag
      refine (keeps_value t).bind fun v hv => (keeps_values ts).bind fun vs hvs => ?_
      show leavesOf _ = Value.leavesOf (v :: vs)
      rw [List.takeWhile_cons_of_pos (by simpa using htag), ParseTree.leavesOf_cons,
        Value.leavesOf, hv, hvs]
    · rename_i htag
      rw [List.takeWhile_cons_of_neg (by simpa using htag)]
      exact ParseTree.leavesOf_nil
termination_by sizeOf ts

theorem keeps_objectFields [Machine] (ts : List ParseTree) :
    GivesOnly
      (fun fs => leavesOf (ts.takeWhile (·.tag ∈ ["object_field"])) = Value.leavesOfFields fs)
      (objectFields ts) := by
  cases ts with
  | nil => rw [objectFields]; exact ParseTree.leavesOf_nil
  | cons t ts =>
    rw [objectFields]
    split
    · rename_i htag
      refine (keeps_objectField t htag).bind fun f hf => (keeps_objectFields ts).bind
        fun fs hfs => ?_
      obtain ⟨name, v⟩ := f
      show leavesOf _ = Value.leavesOfFields ((name, v) :: fs)
      rw [List.takeWhile_cons_of_pos (by simpa using htag), ParseTree.leavesOf_cons,
        Value.leavesOfFields, hf, hfs]
    · rename_i htag
      rw [List.takeWhile_cons_of_neg (by simpa using htag)]
      exact ParseTree.leavesOf_nil
termination_by sizeOf ts

theorem keeps_objectField [Machine] (t : ParseTree) (ht : t.tag = "object_field") :
    Keeps (fun f => .word f.1 :: f.2.leaves) t (objectField t) := by
  cases t with
  | token tag text span => rw [objectField]; trivial
  | rule tag span ts =>
    rw [objectField]
    refine (reads_nameOf (by decide) ⟨tag, span, 0, ts⟩).bind ?_
    rintro ⟨name, c⟩ ⟨_, rest, hts, hc, n, rfl, hn⟩
    obtain rfl : ts = n :: rest := hts
    obtain rfl : c = Cursor.past ⟨tag, span, 0, n :: rest⟩ [n] rest := hc
    have hnext : (Walk.next valueTags).Reads fun ts u => ts = [u] ∧ u.tag ∈ valueTags := .next
    refine (hnext (Cursor.past ⟨tag, span, 0, n :: rest⟩ [n] rest)).bind ?_
    rintro ⟨u, d⟩ ⟨_, rest', hrest, hd, rfl, htag⟩
    obtain rfl : rest = u :: rest' := hrest
    have hvalue : valueAt 1 (n :: u :: rest') = value u := by rw [valueAt, valueAt]
    dsimp only
    rw [hvalue]
    refine (keeps_value u).bind fun v hv => ?_
    obtain rfl : d = Cursor.past ⟨tag, span, 0, n :: u :: rest'⟩ [n, u] rest' := hd
    cases rest' with
    | cons _ _ => trivial
    | nil =>
      cases checkNames [("name", name)] with
      | error e => trivial
      | ok _ =>
        show ParseTree.leaves (.rule tag span [n, u]) = _
        rw [ParseTree.leaves_rule (by rw [show tag = "object_field" from ht]; decide)]
        simp [hn, hv]
termination_by sizeOf t

end

variable [Machine]

theorem keeps_argument : Keeps Argument.leaves t (argument t) := by
  refine GivesOnly.checked (Walk.Keeps.whole ?_ (by decide))
  exact keeps_name.bind fun n => .next fun u _ => .lift (keeps_value u) fun v => .pure rfl

theorem keeps_arguments : arguments.Keeps [] fun as => as.flatMap Argument.leaves :=
  Walk.keeps_clause (by decide) fun _ _ => keeps_argument

theorem keeps_directive : Keeps Directive.leaves t (directive t) := by
  refine GivesOnly.checked (Walk.Keeps.whole ?_ (by decide))
  exact keeps_name.bind fun n => keeps_arguments.bind fun args => .pure rfl

theorem keeps_directives : directives.Keeps [] directiveLeaves :=
  Walk.keeps_clause (by decide) fun _ _ => keeps_directive

theorem keeps_defaultValue : defaultValue.Keeps [] defaultLeaves := by
  refine .optional (.pure rfl) fun t _ => ?_
  have hnode : Keeps Value.leaves t (t.whole "default_value" do
      let child ← Walk.next valueTags
      Walk.lift (value child)) :=
    Walk.Keeps.whole (.next fun u _ => .lifted (keeps_value u)) (by decide)
  exact .lift hnode fun v => .pure (by simp [defaultLeaves])

end GraphQLDoc.Conversion
