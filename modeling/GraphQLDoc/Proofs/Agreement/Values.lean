import GraphQLDoc.Proofs.Agreement.Walk

/-!
Each conversion gives the same for trees that are alike. The proofs follow the conversions clause by
clause, so that a conversion that looked at a span, or at the text of a block string, would fail here.
First the types, literals, values, arguments and directives.
-/
namespace GraphQLDoc.Conversion

variable {α : Type}

theorem same_namedType : SameOnAlike namedType := .whole .name

theorem same_variableName : SameOnAlike variableName := .whole .name

theorem same_unwrap : (t : ParseTree) → ∀ u, t.Alike u → Agree (· = ·) (unwrap t) (unwrap u)
  | .token tag text span, _, h => by
    cases h with
    | token _ _ span' htext =>
      simp only [unwrap]
      split
      · exact (same_namedType _ _ (.token tag span span' htext)).mapEq
      · rfl
  | .rule tag span children, _, h => by
    cases h with
    | @rule _ _ span' _ us names hrest =>
      simp only [unwrap]
      split
      · exact (same_namedType _ _ (.rule tag span span' names hrest)).mapEq
      split
      · cases hrest with
        | nil => rfl
        | @cons inner u rest us hinner hrest =>
          simp only [← hinner.tag_eq]
          split
          · have hcursor : Cursor.Alike ⟨tag, span, 1, rest⟩ ⟨tag, span', 1, us⟩ := ⟨rfl, rfl, hrest⟩
            exact hcursor.finish.bindEq fun _ => (same_unwrap inner u hinner).bindEq fun _ => .refl _
          · rfl
      · rfl

theorem same_typeRef : SameOnAlike typeRef :=
  fun t u htu => (same_unwrap t u htu).bindEq fun _ => .refl _

theorem same_type : type.Same := .next fun t u htu => .lift (same_typeRef t u htu.1)

theorem same_string : SameOnAlike string := by
  intro t u htu
  cases htu with
  | rule => rfl
  | @token tag text _ span span' htext =>
    rcases htext with rfl | ⟨rfl, hvalue⟩
    · by_cases htag : tag = "BLOCK_STRING"
      · subst htag
        rfl
      · simp only [string]
        cases StringLiteral.decode text.toList with
        | ok s => rfl
        | error p => cases p <;> rfl
    · exact congrArg (fun s => (String.ofList s, true)) hvalue

theorem same_description : description.Same :=
  .node? (.pure none) fun _ _ htu =>
    .bind (.lift (htu.1.whole _ (.next stringTags))) fun _ _ hstring =>
      .bind (.lift (same_string _ _ hstring.1)) fun _ _ htext => .pure (by rw [htext])

section

variable {tags : List String} {t u : ParseTree} (h : t.AlikeIn tags u)
  (htags : "BLOCK_STRING" ∉ tags)

include h htags

theorem same_integer : Agree (· = ·) (integer t) (integer u) := by
  refine h.onToken htags (fun tag text span span' => ?_) fun _ _ _ _ _ => rfl
  simp only [integer]
  cases Numeral.literalInt? text.toList with
  | none => rfl
  | some number =>
    dsimp only
    split
    · rfl
    · split <;> split <;> rfl

theorem same_float : Agree (· = ·) (float t) (float u) := by
  refine h.onToken htags (fun tag text span span' => ?_) fun _ _ _ _ _ => rfl
  simp only [float]
  cases Numeral.literalFloat? text.toList with
  | none => rfl
  | some x =>
    dsimp only
    split <;> rfl

theorem same_tokenText : Agree (· = ·) (tokenText t) (tokenText u) :=
  h.onToken htags (fun _ _ _ _ => rfl) fun _ _ _ _ _ => rfl

end

theorem same_plainValue : SameOnAlike plainValue := by
  intro t u htu
  unfold plainValue
  rw [htu.tag_eq]
  split
  · exact (same_variableName t u htu).bindEq fun _ => .refl _
  · exact (htu.whole _ (.next ["INT"])).bind fun _ _ hab =>
      (same_integer hab (by decide)).bindEq fun _ => .refl _
  · exact (htu.whole _ (.next ["FLOAT"])).bind fun _ _ hab =>
      (same_float hab (by decide)).bindEq fun _ => .refl _
  · exact htu.wholeSame _ (.next fun _ _ hab =>
      .bind (.lift (same_string _ _ hab.1)) fun _ _ hvalue => .pure (by rw [hvalue]))
  · exact (htu.whole _ (.next ["TRUE", "FALSE"])).bind fun _ _ hab =>
      (same_tokenText hab (by decide)).bindEq fun _ => .refl _
  · exact htu.wholeSame _ (.pure _)
  · exact (htu.wholeSame _ (.nameOf (by decide))).bindEq fun _ => .refl _

mutual

theorem same_value [Machine] : (t : ParseTree) → ∀ u, t.Alike u → Agree (· = ·) (value t) (value u)
  | .token tag text span, _, h => by
    cases h with
    | token =>
      simp only [value]
      split <;> rfl
  | .rule tag span children, _, h => by
    have hplain := same_plainValue _ _ h
    cases h with
    | @rule _ _ span' _ us names hrest =>
      have hcursor : Cursor.Alike ⟨tag, span, 0, children⟩ ⟨tag, span', 0, us⟩ := ⟨rfl, rfl, hrest⟩
      simp only [value]
      split
      · exact .nestedIn fun _ => (same_values children us hrest).bindEq fun _ =>
          (hcursor.repeated valueTags).2.finish.bindEq fun _ => .refl _
      split
      · exact .nestedIn fun _ => (same_objectFields children us hrest).bindEq fun _ =>
          (hcursor.repeated ["object_field"]).2.finish.bindEq fun _ => .refl _
      split
      · exact hplain
      · rfl

theorem same_values [Machine] : (ts : List ParseTree) → ∀ us, List.Forall₂ ParseTree.Alike ts us →
    Agree (· = ·) (values ts) (values us)
  | [], _, .nil => rfl
  | t :: ts, u :: us, .cons htu hrest => by
    simp only [values, ← htu.tag_eq]
    split
    · exact (same_value t u htu).bindEq fun _ => (same_values ts us hrest).bindEq fun _ => .refl _
    · rfl

theorem same_objectFields [Machine] : (ts : List ParseTree) → ∀ us, List.Forall₂ ParseTree.Alike ts us →
    Agree (· = ·) (objectFields ts) (objectFields us)
  | [], _, .nil => rfl
  | t :: ts, u :: us, .cons htu hrest => by
    simp only [objectFields, ← htu.tag_eq]
    split
    · exact (same_objectField t u htu).bindEq fun _ =>
        (same_objectFields ts us hrest).bindEq fun _ => .refl _
    · rfl

theorem same_objectField [Machine] : (t : ParseTree) → ∀ u, t.Alike u →
    Agree (· = ·) (objectField t) (objectField u)
  | .token _ _ _, _, h => by
    cases h with
    | token => rfl
  | .rule tag span children, _, h => by
    cases h with
    | @rule _ _ span' _ us names hrest =>
      have hcursor : Cursor.Alike ⟨tag, span, 0, children⟩ ⟨tag, span', 0, us⟩ := ⟨rfl, rfl, hrest⟩
      simp only [objectField]
      refine (Walk.Same.name _ _ hcursor).bind fun ⟨name, c⟩ ⟨name', d⟩ ⟨hname, hcd⟩ => ?_
      obtain rfl : name = name' := hname
      refine (hcd.next valueTags).bind fun ⟨_, c⟩ ⟨_, d⟩ ⟨_, hcd⟩ => ?_
      exact (same_valueAt 1 children us hrest).bindEq fun _ =>
        hcd.finish.bindEq fun _ => .refl _

theorem same_valueAt [Machine] : (n : Nat) → (ts : List ParseTree) → ∀ us,
    List.Forall₂ ParseTree.Alike ts us → Agree (· = ·) (valueAt n ts) (valueAt n us)
  | _, [], _, .nil => by simp only [valueAt]; rfl
  | 0, t :: _, u :: _, .cons htu _ => by
    simp only [valueAt]
    exact same_value t u htu
  | n + 1, _ :: ts, _ :: us, .cons _ hrest => by
    simp only [valueAt]
    exact same_valueAt n ts us hrest

end

variable [Machine]

/-- The value that comes next. -/
theorem same_nextValue {k : Value → Walk α} (hk : ∀ v, (k v).Same) :
    (do let child ← Walk.next valueTags; let v ← Walk.lift (value child); k v).Same :=
  .next fun _ _ hab => .bind (.lift (same_value _ _ hab.1)) fun v _ hv => hv ▸ hk v

theorem same_argument : SameOnAlike argument :=
  .whole (.bind .name fun _ => same_nextValue fun _ => .pure _)

theorem same_arguments : arguments.Same := .clause _ _ same_argument

theorem same_directive : SameOnAlike directive :=
  .whole (.bind .name fun _ => .bind same_arguments fun _ => .pure _)

theorem same_directives : directives.Same := .clause _ _ same_directive

theorem same_defaultValue : defaultValue.Same :=
  .node? (.pure none) fun _ _ htu =>
    .bind (.lift (htu.1.wholeSame _ (.next fun _ _ hab => .lift (same_value _ _ hab.1))))
      fun _ _ hv => .pure (congrArg some hv)

theorem same_valueLiteral : SameOnAlike valueLiteral :=
  fun _ _ htu => htu.wholeSame _ (.next fun _ _ hab => .lift (same_value _ _ hab.1))

omit [Machine] in
theorem same_typeReference : SameOnAlike typeReference := fun _ _ htu => htu.wholeSame _ same_type

end GraphQLDoc.Conversion
