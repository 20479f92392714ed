import GraphQLDoc.Proofs.Leaves.TypeSystem
import GraphQLDoc.Proofs.Parse.Outcome
import GraphQLDoc.Proofs.Printing.Document

/-!
Parsing loses no leaf of a text, adds none, and moves none but the root types of a schema block.
-/
namespace GraphQLDoc

namespace Conversion

open ParseTree (leavesOf)

variable [Machine] {t : ParseTree} {ts : List ParseTree}

/-- Nothing hangs below the mark that a directive is repeatable. -/
def HasBareMarks (t : ParseTree) : Prop :=
  t.tag = "directive_definition" → ∀ u ∈ t.children, u.tag = "repeatable" → u.leaves = []

omit [Machine] in
/-- A definition that is not a schema block. -/
theorem sorted_of_keeps {α : Type} {leaves : α → List Leaf} {r : Converted α} {f : α → Definition}
    (ht : t.tag ∉ ParseTree.schemaTags) (h : Keeps leaves t r) (hf : ∀ x, leaves x = (f x).leaves) :
    GivesOnly (fun d => t.withSortedRoots.leaves = d.leaves) (r.map f) := by
  rw [withSortedRoots_eq ht]
  exact h.map hf

theorem sorted_definitionRules : ∀ p ∈ definitionRules, ∀ t : ParseTree, t.tag = p.1 →
    HasBareMarks t → GivesOnly (fun d => t.withSortedRoots.leaves = d.leaves) (p.2 t) := by
  have hother {tag : String} (h : tag ∉ ParseTree.schemaTags) {t : ParseTree} (ht : t.tag = tag) :
      t.tag ∉ ParseTree.schemaTags := ht ▸ h
  simp only [definitionRules, List.forall_mem_cons, List.not_mem_nil, false_implies,
    implies_true, and_true]
  refine ⟨?_, ?_, ?_, ?_, ?_, ?_, ?_, ?_, ?_, ?_, ?_, ?_, ?_, ?_, ?_, ?_, ?_⟩ <;>
    intro t ht hbare
  · exact sorted_of_keeps (hother (by decide) ht) keeps_operation fun _ => rfl
  · exact sorted_of_keeps (hother (by decide) ht) keeps_fragment fun _ => rfl
  · exact sorted_schemaDefinition.map fun _ => id
  · exact sorted_of_keeps (hother (by decide) ht)
      (keeps_typeDefinition (by decide) keeps_scalarBody) fun _ => rfl
  · exact sorted_of_keeps (hother (by decide) ht)
      (keeps_typeDefinition (by decide) (keeps_fieldsBody .object)) fun _ => rfl
  · exact sorted_of_keeps (hother (by decide) ht)
      (keeps_typeDefinition (by decide) (keeps_fieldsBody .interface)) fun _ => rfl
  · exact sorted_of_keeps (hother (by decide) ht)
      (keeps_typeDefinition (by decide) keeps_unionBody) fun _ => rfl
  · exact sorted_of_keeps (hother (by decide) ht)
      (keeps_typeDefinition (by decide) keeps_enumBody) fun _ => rfl
  · exact sorted_of_keeps (hother (by decide) ht)
      (keeps_typeDefinition (by decide) keeps_inputBody) fun _ => rfl
  · exact sorted_of_keeps (hother (by decide) ht) (keeps_directiveDefinition (hbare ht))
      fun _ => rfl
  · exact sorted_schemaExtension.map fun _ => id
  · exact sorted_of_keeps (hother (by decide) ht) (keeps_typeExtension (by decide) keeps_directives
      fun _ _ h => leaves_onlyDirectives (fun _ => rfl) h) fun _ => rfl
  · exact sorted_of_keeps (hother (by decide) ht) (keeps_fieldsExtension (by decide)) fun _ => rfl
  · exact sorted_of_keeps (hother (by decide) ht) (keeps_fieldsExtension (by decide)) fun _ => rfl
  · exact sorted_of_keeps (hother (by decide) ht) (keeps_itemsExtension (by decide)
      keeps_unionMembers rfl (fun _ _ => rfl) fun _ => rfl) fun _ => rfl
  · exact sorted_of_keeps (hother (by decide) ht) (keeps_itemsExtension (by decide)
      keeps_enumValues rfl (fun _ _ => rfl) fun _ => rfl) fun _ => rfl
  · exact sorted_of_keeps (hother (by decide) ht) (keeps_itemsExtension (by decide)
      keeps_inputFields rfl (fun _ _ => rfl) fun _ => rfl) fun _ => rfl

theorem sorted_definition (hbare : HasBareMarks t) :
    GivesOnly (fun d => t.withSortedRoots.leaves = d.leaves) (definition t) := by
  unfold definition
  cases hlookup : definitionRules.lookup t.tag with
  | none => trivial
  | some convert =>
    obtain ⟨front, back, hrules, -⟩ := List.lookup_eq_some_iff.mp hlookup
    refine sorted_definitionRules (t.tag, convert) ?_ t rfl hbare
    rw [hrules]
    exact List.mem_append_right front List.mem_cons_self

theorem sorted_definitions {rule : String} {span : Option Span} {n : Nat}
    (hbare : ∀ t ∈ ts, HasBareMarks t) :
    GivesOnly (fun ds => leavesOf (ts.map ParseTree.withSortedRoots) = ds.flatMap Definition.leaves)
      (definitions ts.length ⟨rule, span, n, ts⟩) := by
  induction ts generalizing n with
  | nil => exact ParseTree.leavesOf_nil
  | cons t ts ih =>
    obtain ⟨ht, hts⟩ := List.forall_mem_cons.mp hbare
    rw [List.length_cons, definitions, if_neg (by simp)]
    by_cases htag : t.tag ∈ definitionTags
    · have hnext : (⟨rule, span, n, t :: ts⟩ : Cursor).next definitionTags =
          .ok (t, ⟨rule, span, n + 1, ts⟩) := if_pos htag
      rw [hnext]
      refine (sorted_definition ht).bind fun d hd => (ih hts).bind fun ds hds => ?_
      rw [Gives.pure_iff, List.map_cons, ParseTree.leavesOf_cons, List.flatMap_cons, hd, hds]
    · have hnext : (⟨rule, span, n, t :: ts⟩ : Cursor).next definitionTags =
          (⟨rule, span, n, t :: ts⟩ : Cursor).fail (.otherChild definitionTags rule (some t.tag)) :=
        if_neg htag
      rw [hnext]
      trivial

theorem sorted_document (hbare : ∀ u ∈ t.children, HasBareMarks u) :
    GivesOnly (fun d => t.withSortedSchemas.leaves = d.leaves) (document t) := by
  unfold document
  cases t with
  | token tag text span => trivial
  | rule tag span ts =>
    by_cases htag : tag = "document"
    · subst htag
      have henter : Cursor.enter "document" (.rule "document" span ts) =
          .ok ⟨"document", span, 0, ts⟩ := by simp [Cursor.enter]
      rw [henter]
      refine (sorted_definitions hbare).bind fun ds hds => ?_
      exact (ParseTree.leaves_rule (by decide)).trans hds
    · have henter : Cursor.enter "document" (.rule tag span ts) =
          .error (.shape (.otherRule "document" tag) span) := if_neg htag
      rw [henter]
      trivial

/-! The trees of the grammar. -/

variable {g : Grammar} [g.IsUsual] {w : List Token}

omit [Machine] in
theorem HasBareMarks.of_isTreeOf (h : IsTreeOf g .definition w t) : HasBareMarks t := by
  intro htag u hu hmark
  obtain ⟨s, hs, htree, hs'⟩ := Rule.mem_shown h (n := 3) (by decide)
  have hrule : ∀ s ∈ Rule.shown 3 .definition, s.tag = "directive_definition" →
      s = .directiveDefinition := by decide
  obtain rfl := hrule s hs (hs'.symm.trans htag)
  obtain ⟨span, inner, rfl, hinner⟩ := htree.inside rfl
  obtain ⟨cs, hcs, hsequence⟩ := hinner.sequence
  obtain rfl := List.mem_singleton.mp hcs
  obtain ⟨c, hc, w₁, ts₁, hyields, hmem⟩ := hsequence.mem_trees.1 u hu
  have hclause : ∀ c ∈ [Clause.optionalUse .description, .word .directive, .mark .atSign,
      .use .name, .optionalUse .argumentsDefinition, .optionalUse .repeatable, .word .on,
      .use .directiveLocations], "repeatable" ∈ c.tags → c.allows .repeatable = true := by decide
  obtain ⟨w₂, hrepeatable⟩ := hyields.allowed (hclause c hc (hmark ▸ hyields.tagged u hmem)) u hmem
  obtain ⟨span, inner, rfl, hinner⟩ := hrepeatable.inside rfl
  obtain ⟨token, -, hterminal, -, rfl⟩ := hinner.token [.keyword .repeatable] rfl
  have hword : token.terminal = .keyword .repeatable := by simpa using hterminal
  have hkept : Derivation.Token.isKept Rule.repeatable.keepsWords token = true := by
    simp [Derivation.Token.isKept, hword, Rule.keepsWords]
  rw [hkept, if_pos rfl, ParseTree.leaves_rule (by decide), ParseTree.leavesOf_singleton,
    Token.leaf, hword, ParseTree.leaves]
  rfl

theorem sorted_document_of_isTreeOf (h : IsTreeOf g .document w t) :
    GivesOnly (fun d => t.withSortedSchemas.leaves = d.leaves) (document t) := by
  refine sorted_document fun u hu => ?_
  obtain ⟨span, inner, rfl, hinner⟩ := h.inside rfl
  obtain ⟨w, hdefinition⟩ := hinner.held (i := .definition) (by decide) u hu
  exact .of_isTreeOf hdefinition

end Conversion

/-- The leaves of a parsed document are those of its parse tree, in the order of the text but for
the root types of a schema block. -/
theorem parseDocument_leaves [Machine] {text : List Char} {d : Document}
    (h : parseDocument text = .ok d) :
    ∃ t, parseTree .document text = .ok t ∧ t.withSortedSchemas.leaves = d.leaves := by
  obtain ⟨t, ht, hconvert, w, htree⟩ := exists_tree_of_parseWith h
  exact ⟨t, ht, (Conversion.sorted_document_of_isTreeOf htree).of_eq_ok hconvert⟩

/-! A document whose text has the root types of a schema extension backwards. -/

def oneDirective : List Directive := [⟨"d", [⟨"a", .int 1⟩]⟩]

def listType : Definition :=
  .type ⟨some "s", "A", [], .fields .object ["I"] [⟨none, "f", [], .list (.named "B"), []⟩]⟩

def twoRoots : Document :=
  ⟨[.schemaExtension (.withRoots oneDirective ⟨some "Q", some "M", none⟩), listType]⟩

/-- The words of a definition, with the last root type of an extension first. -/
def backwardWords : Definition → List Word
  | .schemaExtension (.withRoots ds roots) =>
    Printing.extendSchema ds (roots.entries.reverse.flatMap Printing.rootEntry)
  | d => Printing.definition d

def backwardText : List Char := spellOut (twoRoots.definitions.flatMap backwardWords)

theorem readsBack_backwardWords : letI := Machine.usual; ∀ d ∈ twoRoots.definitions,
    Rule.definition.ReadsBack Conversion.definition (backwardWords d) (· = d) := by
  let := Machine.usual
  have hentries : ∀ e ∈ [(OperationType.mutation, "M"), (.query, "Q")], isValidName e.2 = true := by
    decide
  have hroots := Conversion.readsBack_rootEntries hentries (by decide) (by decide)
  have hextension := Conversion.readsBack_of_lookup (f := .schemaExtension)
    (Conversion.readsBack_extendSchema (show oneDirective.all (·.isValid) = true by decide)
      (by decide) hroots (by decide)) rfl rfl
  have htype : Rule.definition.ReadsBack Conversion.definition (Printing.definition listType)
      (· = listType) := Conversion.readsBack_definition (by decide) (by decide)
  exact List.forall_mem_cons.mpr ⟨Conversion.readsBack_of_extension hextension (by decide),
    List.forall_mem_singleton.mpr htype⟩

theorem parseDocument_backwardText : @parseDocument .usual backwardText = .ok twoRoots := by
  have hback := @Conversion.readsBack_definitions .usual _ _ (by decide) readsBack_backwardWords
  exact parseWith_of_readsAs (s := .document) hback (Input.readsAs_spellOut hback.spelled .start)
    (map_word_tokensFrom .start _)

/-- The root types stand in the text as `M` and `Q`, and in the document as `Q` and `M`. -/
theorem backwardText_leaves :
    backwardText = ("extend schema @ d ( a : 1 ) \x7b mutation : M query : Q \x7d " ++
      "\"s\" type A implements I \x7b f : [ B ] \x7d").toList ∧
    @parseDocument .usual backwardText = .ok twoRoots ∧
      ∃ t, parseTree .document backwardText = .ok t ∧
        t.withSortedSchemas.leaves = [.word "d", .word "a", .int 1, .word "Q", .word "M",
          .string "s", .word "A", .word "I", .word "f", .word "B"] :=
  ⟨by decide, parseDocument_backwardText,
    @parseDocument_leaves .usual _ _ parseDocument_backwardText⟩

end GraphQLDoc
