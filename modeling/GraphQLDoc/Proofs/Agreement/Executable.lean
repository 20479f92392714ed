import GraphQLDoc.Proofs.Agreement.Values

/-!
Operations, fragments and selections from trees that are alike.
-/
namespace GraphQLDoc.Conversion

section

variable [Machine]

omit [Machine] in
theorem same_operationType : SameOnAlike operationType :=
  fun _ _ htu => (htu.whole _ (.next _)).bind fun _ _ hab =>
    (same_tokenText hab (by decide)).bindEq fun _ => .refl _

theorem same_variableDefinition : SameOnAlike variableDefinition :=
  fun _ _ htu => htu.wholeSame _ (.next fun _ _ hab =>
    .bind (.lift (same_variableName _ _ hab.1)) fun _ _ hname => hname ▸
    Walk.Same.bind same_type fun _ => .bind same_defaultValue fun _ => .bind same_directives fun _ => .pure _)

omit [Machine] in
/-- The named type that comes next. -/
theorem same_nextNamedType : (do
    let child ← Walk.next ["named_type"]
    Walk.lift (namedType child)).Same :=
  .next fun _ _ hab => .lift (same_namedType _ _ hab.1)

omit [Machine] in
theorem same_typeCondition : typeCondition.Same :=
  .node? (.pure none) fun _ _ htu =>
    .bind (.lift (htu.1.wholeSame _ same_nextNamedType)) fun _ _ hname => .pure (congrArg some hname)

omit [Machine] in
theorem same_fieldAlias : fieldAlias.Same :=
  .node? (.pure none) fun _ _ htu =>
    .bind (.lift (htu.1.wholeSame _ .name)) fun _ _ hname => .pure (congrArg some hname)

theorem same_fieldHeader : fieldHeader.Same :=
  .bind same_fieldAlias fun _ => .bind .name fun _ => .bind same_arguments fun _ =>
    .bind same_directives fun _ => .node? (.pure _) fun _ _ _ => .pure rfl

theorem same_fragmentSpread : SameOnAlike fragmentSpread :=
  .whole (.bind (.nameOf (by decide)) fun _ => .bind same_directives fun _ => .pure _)

end

mutual

theorem same_selectionSet [Machine] : (t : ParseTree) → ∀ u, t.Alike u →
    Agree (· = ·) (selectionSet t) (selectionSet u)
  | .token _ _ _, _, h => by
    cases h with
    | token => rfl
  | .rule tag span children, _, h => by
    cases h with
    | @rule _ _ span' _ us names hrest =>
      have hcursor : Cursor.Alike ⟨tag, span, 0, children⟩ ⟨tag, span', 0, us⟩ := ⟨rfl, rfl, hrest⟩
      simp only [selectionSet]
      split
      · exact .nestedIn fun _ => (same_selections children us hrest).bindEq fun _ =>
          (hcursor.repeated selectionTags).2.finish.bindEq fun _ => .refl _
      · rfl

theorem same_selections [Machine] : (ts : List ParseTree) → ∀ us, List.Forall₂ ParseTree.Alike ts us →
    Agree (· = ·) (selections ts) (selections us)
  | [], _, .nil => rfl
  | t :: ts, u :: us, .cons htu hrest => by
    simp only [selections, ← htu.tag_eq]
    split
    · exact (same_selection t u htu).bindEq fun _ =>
        (same_selections ts us hrest).bindEq fun _ => .refl _
    · rfl

theorem same_selection [Machine] : (t : ParseTree) → ∀ u, t.Alike u →
    Agree (· = ·) (selection t) (selection u)
  | .token _ _ _, _, h => by
    cases h with
    | token => rfl
  | .rule tag span children, _, h => by
    have hspread := same_fragmentSpread _ _ h
    cases h with
    | @rule _ _ span' _ us names hrest =>
      have hcursor : Cursor.Alike ⟨tag, span, 0, children⟩ ⟨tag, span', 0, us⟩ := ⟨rfl, rfl, hrest⟩
      simp only [selection]
      split
      · refine (same_fieldHeader _ _ hcursor).bind fun ⟨header, c⟩ ⟨header', d⟩ ⟨hheader, hcd⟩ => ?_
        obtain rfl : header = header' := hheader
        refine hcd.finish.bindEq fun _ => ?_
        have hread : c.read = d.read := hcd.read
        dsimp only
        rw [hread]
        split
        · exact (same_selectionSetAt _ children us hrest).mapEq.bindEq fun _ => .refl _
        · exact .refl _
      split
      · exact hspread
      · refine (same_typeCondition _ _ hcursor).bind fun ⟨_, c⟩ ⟨_, d⟩ ⟨hcondition, hcd⟩ => ?_
        refine (same_directives _ _ hcd).bind fun ⟨_, c⟩ ⟨_, d⟩ ⟨hdirectives, hcd⟩ => ?_
        refine (hcd.next _).bind fun ⟨_, c⟩ ⟨_, d⟩ ⟨_, hcd⟩ => ?_
        have hread : c.read = d.read := hcd.read
        dsimp only at hcondition hdirectives ⊢
        rw [hread, hcondition, hdirectives]
        exact (same_selectionSetAt _ children us hrest).bindEq fun _ =>
          hcd.finish.bindEq fun _ => .refl _

theorem same_selectionSetAt [Machine] : (n : Nat) → (ts : List ParseTree) → ∀ us,
    List.Forall₂ ParseTree.Alike ts us → Agree (· = ·) (selectionSetAt n ts) (selectionSetAt n us)
  | _, [], _, .nil => by simp only [selectionSetAt]; rfl
  | 0, t :: _, u :: _, .cons htu _ => by
    simp only [selectionSetAt]
    exact same_selectionSet t u htu
  | n + 1, _ :: ts, _ :: us, .cons _ hrest => by
    simp only [selectionSetAt]
    exact same_selectionSetAt n ts us hrest

end

variable [Machine]

theorem same_nextSelectionSet : nextSelectionSet.Same :=
  .next fun _ _ hab => .lift (same_selectionSet _ _ hab.1)

omit [Machine] in
theorem same_operationName : operationName.Same :=
  .node? (.pure none) fun _ _ htu =>
    .bind (.lift (htu.nameToken (by decide))) fun ⟨_, _⟩ ⟨_, _⟩ hname => .pure (congrArg some hname)

theorem same_operation : SameOnAlike operation := by
  refine .whole (.get fun c d hcd => ?_)
  rw [hcd.peek_eq]
  split
  · exact Walk.Same.bind same_nextSelectionSet fun _ => .pure _
  · exact Walk.Same.next fun _ _ hab =>
      .bind (.lift (same_operationType _ _ hab.1)) fun _ _ ho => ho ▸
      Walk.Same.bind same_operationName fun _ => .bind (.clause _ _ same_variableDefinition) fun _ =>
      .bind same_directives fun _ => .bind same_nextSelectionSet fun _ => .pure _

theorem same_fragment : SameOnAlike fragment := by
  intro t u htu
  refine (htu.whole _ (.bind (.next _) fun _ _ hab => ?_)).bindEq fun _ => .refl _
  refine .bind (.lift (hab.nameToken (by decide))) fun ⟨name, _⟩ ⟨name', _⟩ hname => ?_
  obtain rfl : name = name' := hname
  dsimp only
  split
  · exact .bind (.lift (R := fun _ _ => False) (.error rfl)) fun _ _ h => h.elim
  · refine .bind same_typeCondition fun _ condition hcondition => hcondition ▸ ?_
    split
    · exact .lift (.error rfl)
    · exact Walk.Same.bind same_directives fun _ => .bind same_nextSelectionSet fun _ => .pure _

end GraphQLDoc.Conversion
