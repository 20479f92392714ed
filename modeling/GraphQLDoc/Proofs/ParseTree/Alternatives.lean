import GraphQLDoc.Parse
import GraphQLDoc.Proofs.ParseTree.Reading
import GraphQLDoc.Proofs.ParseTree.Shape
import GraphQLDoc.Proofs.ParseTree.Spelled

/-!
Parse trees against the grammar in its extended form: the children of a node, with the tokens that
were dropped, are one of the alternatives of its rule. The main statement is that this holds of every
tree that the parser gives, for a sequence of tokens that the text splits into.
-/
namespace GraphQLDoc

/-- The region that tokens cover. -/
def Token.spanOf : List Token → Option Span
  | [] => none
  | t :: w => some ⟨t.span.first, ((t :: w).getLast (List.cons_ne_nil t w)).span.last⟩

namespace Clause

/-- A clause that may be left out. -/
def mayBeAbsent : Clause → Bool
  | one _ | oneOrMore _ => false
  | optional _ | zeroOrMore _ => true

end Clause

mutual

/-- What a symbol stands for: tokens of the text, and the trees that they leave in a node, which
keeps its keywords or not. Inlined rules and lists leave their trees to the node above. -/
inductive Derives : (keepsWords : Bool) → Symbol → List Token → List ParseTree → Prop where
  | token {keepsWords : Bool} {t : Token} :
      Derives keepsWords (.terminal t.terminal) [t]
        (if Derivation.Token.isKept keepsWords t then [t.leaf] else [])
  | node {keepsWords : Bool} {r : Rule} {cs : List Clause} {w : List Token} {ts : List ParseTree}
      (own : r.inlined = false) (alternative : cs ∈ r.alternatives)
      (body : DerivesAll r.keepsWords cs w ts) :
      Derives keepsWords (.nonterminal (.rule r)) w [.rule r.tag (Token.spanOf w) ts]
  | inlined {keepsWords : Bool} {r : Rule} {cs : List Clause} {w : List Token}
      {ts : List ParseTree} (inlined : r.inlined = true) (alternative : cs ∈ r.alternatives)
      (body : DerivesAll r.keepsWords cs w ts) : Derives keepsWords (.nonterminal (.rule r)) w ts
  | start {keepsWords : Bool} {s : Start} {w : List Token} {ts : List ParseTree}
      (whole : Derives false (.nonterminal (.rule s.rule)) w ts) :
      Derives keepsWords (.nonterminal (.start s)) w ts
  | first {keepsWords : Bool} {r : Repetition} {w : List Token} {ts : List ParseTree}
      (element : DerivesAll false (r.element.map .one) w ts) :
      Derives keepsWords (.nonterminal (.repetition r)) w ts
  | more {keepsWords : Bool} {r : Repetition} {w w' : List Token} {ts ts' : List ParseTree}
      (list : Derives false (.nonterminal (.repetition r)) w ts)
      (element : DerivesAll false (r.element.map .one) w' ts') :
      Derives keepsWords (.nonterminal (.repetition r)) (w ++ w') (ts ++ ts')

/-- Clauses one after the other, where those that may be absent are taken or left out. -/
inductive DerivesAll : (keepsWords : Bool) → List Clause → List Token → List ParseTree → Prop where
  | nil {keepsWords : Bool} : DerivesAll keepsWords [] [] []
  | taken {keepsWords : Bool} {c : Clause} {cs : List Clause} {w w' : List Token}
      {ts ts' : List ParseTree} (clause : Derives keepsWords c.symbol w ts)
      (rest : DerivesAll keepsWords cs w' ts') :
      DerivesAll keepsWords (c :: cs) (w ++ w') (ts ++ ts')
  | left {keepsWords : Bool} {c : Clause} {cs : List Clause} {w : List Token}
      {ts : List ParseTree} (absent : c.mayBeAbsent = true)
      (rest : DerivesAll keepsWords cs w ts) : DerivesAll keepsWords (c :: cs) w ts

end

theorem Token.spanOf_append (w w' : List Token) :
    spanOf (w ++ w') = Span.join (spanOf w) (spanOf w') := by
  cases w with
  | nil => cases w' <;> rfl
  | cons t w =>
    cases w' with
    | nil => simp [spanOf, Span.join]
    | cons u w' =>
      have hlast : (t :: w ++ u :: w').getLast (List.cons_ne_nil t _) =
          (u :: w').getLast (List.cons_ne_nil u w') := List.getLast_append_right _
      exact congrArg (fun v => some (Span.mk t.span.first v.span.last)) hlast

namespace Derivation

mutual

theorem trees_span (keepsWords : Bool) :
    (d : Derivation) → (d.trees keepsWords).2 = Token.spanOf d.tokens
  | leaf t => rfl
  | node p children => by
    rw [trees, tokens]
    split
    · exact treesOfList_span _ children
    · exact treesOfList_span false children

theorem treesOfList_span (keepsWords : Bool) :
    (ds : List Derivation) → (treesOfList keepsWords ds).2 = Token.spanOf (tokensOfList ds)
  | [] => rfl
  | d :: ds => by
    rw [treesOfList, tokensOfList, Token.spanOf_append, ← trees_span keepsWords d,
      ← treesOfList_span keepsWords ds]

end

/-- A sequence of symbols that clauses stand for, where each symbol stands for what it should. -/
theorem derivesAll_of_expand {keepsWords : Bool} {cs : List Clause} {ds : List Derivation}
    (h : ds.map symbol ∈ Clause.expand cs)
    (hds : ∀ d ∈ ds, Derives keepsWords d.symbol d.tokens (d.trees keepsWords).1) :
    DerivesAll keepsWords cs (tokensOfList ds) (treesOfList keepsWords ds).1 := by
  induction cs generalizing ds with
  | nil =>
    obtain rfl : ds = [] := by simpa [Clause.expand] using h
    exact .nil
  | cons c cs ih =>
    have htaken (h : ds.map symbol ∈ (Clause.expand cs).map (c.symbol :: ·)) :
        DerivesAll keepsWords (c :: cs) (tokensOfList ds) (treesOfList keepsWords ds).1 := by
      obtain ⟨body, hbody, heq⟩ := List.mem_map.mp h
      cases ds with
      | nil => cases heq
      | cons d ds =>
        obtain ⟨hd, hrest⟩ := List.cons.inj heq
        obtain ⟨hfirst, hds⟩ := List.forall_mem_cons.mp hds
        exact .taken (hd ▸ hfirst) (ih (hrest ▸ hbody) hds)
    have hleft (hc : c.mayBeAbsent = true) (h : ds.map symbol ∈ Clause.expand cs) :
        DerivesAll keepsWords (c :: cs) (tokensOfList ds) (treesOfList keepsWords ds).1 :=
      .left hc (ih h hds)
    cases c with
    | one s => exact htaken h
    | oneOrMore r => exact htaken h
    | optional s => exact (List.mem_append.mp h).elim htaken (hleft rfl)
    | zeroOrMore r => exact (List.mem_append.mp h).elim htaken (hleft rfl)

theorem derivesAll_of_element {keepsWords : Bool} {ss : List Symbol} {ds : List Derivation}
    (h : ds.map symbol = ss)
    (hds : ∀ d ∈ ds, Derives keepsWords d.symbol d.tokens (d.trees keepsWords).1) :
    DerivesAll keepsWords (ss.map .one) (tokensOfList ds) (treesOfList keepsWords ds).1 := by
  refine derivesAll_of_expand ?_ hds
  rw [h]
  clear h
  induction ss with
  | nil => exact List.mem_singleton_self []
  | cons s ss ih => exact List.mem_map_of_mem ih

/-- The pieces of a production of a rule are one of its alternatives. -/
theorem derivesAll_of_rule {r : Rule} {ds : List Derivation}
    (h : ⟨.rule r, ds.map symbol⟩ ∈ r.productions)
    (hds : ∀ d ∈ ds, Derives r.keepsWords d.symbol d.tokens (d.trees r.keepsWords).1) :
    ∃ cs ∈ r.alternatives,
      DerivesAll r.keepsWords cs (tokensOfList ds) (treesOfList r.keepsWords ds).1 := by
  obtain ⟨cs, hcs, h⟩ := List.mem_flatMap.mp h
  obtain ⟨body, hbody, heq⟩ := List.mem_map.mp h
  obtain ⟨-, rfl⟩ := Production.mk.inj heq
  exact ⟨cs, hcs, derivesAll_of_expand hbody hds⟩

/-- Derivations are what the grammar says. -/
theorem derives_of_isOf (keepsWords : Bool) (d : Derivation) (h : d.IsOf .full) :
    Derives keepsWords d.symbol d.tokens (d.trees keepsWords).1 := by
  match d, h with
  | .leaf t, _ => exact .token
  | .node ⟨head, body⟩ children, ⟨hp, hbody, hall⟩ =>
    have hchildren (keepsWords : Bool) : ∀ d ∈ children,
        Derives keepsWords d.symbol d.tokens (d.trees keepsWords).1 := fun d hd =>
      have hsize := List.sizeOf_lt_of_mem hd
      derives_of_isOf keepsWords d (allOf_iff.mp hall d hd)
    obtain rfl : children.map symbol = body := hbody
    rw [tokens]
    cases head with
    | start s =>
      obtain ⟨-, heq⟩ := Production.mk.inj (List.mem_singleton.mp hp)
      obtain ⟨d, rfl, hd⟩ := List.map_eq_singleton_iff.mp heq
      have hwhole := hchildren false d List.mem_cons_self
      rw [hd] at hwhole
      have htrees : ((node ⟨.start s, [d].map symbol⟩ [d]).trees keepsWords).1 = (d.trees false).1 := by
        simp [trees, treesOfList]
      rw [tokensOfList, tokensOfList, List.append_nil, htrees]
      exact .start hwhole
    | rule r =>
      obtain ⟨cs, hcs, hbody⟩ := derivesAll_of_rule hp (hchildren r.keepsWords)
      have hspan := treesOfList_span r.keepsWords children
      show Derives keepsWords (.nonterminal (.rule r)) _ _
      cases hr : r.inlined with
      | true => simpa [trees, hr] using Derives.inlined hr hcs hbody
      | false => simpa [trees, hr, hspan] using Derives.node hr hcs hbody
    | repetition r =>
      rcases mem_productions_repetition.mp hp with heq | heq
      · exact .first (derivesAll_of_element (Production.mk.inj heq).2 (hchildren false))
      · obtain ⟨list, element, rfl, hlist, helement⟩ :=
          List.map_eq_cons_iff.mp (Production.mk.inj heq).2
        obtain ⟨hfirst, hrest⟩ := List.forall_mem_cons.mp (hchildren false)
        exact .more (hlist ▸ hfirst) (derivesAll_of_element helement hrest)
termination_by sizeOf d

end Derivation

/-- A rule with nodes of its own leaves one node. -/
theorem Derives.eq_singleton {keepsWords : Bool} {r : Rule} {w : List Token} {ts : List ParseTree}
    (h : Derives keepsWords (.nonterminal (.rule r)) w ts) (hr : r.inlined = false) :
    ∃ inner, ts = [.rule r.tag (Token.spanOf w) inner] := by
  cases h with
  | node own alternative body => exact ⟨_, rfl⟩
  | inlined inlined alternative body => exact nomatch hr.symm.trans inlined

theorem parseTree_eq_ok {start : Start} {text : List Char} {t : ParseTree}
    (h : parseTree start text = .ok t) :
    ∃ d, derive start text = .ok d ∧ (d.trees false).1 = [t] := by
  unfold parseTree at h
  cases hd : derive start text with
  | error e => rw [hd] at h; exact nomatch h
  | ok d =>
    rw [hd] at h
    obtain ⟨hof, hsymbol⟩ := derive_sound hd
    have hderives := d.derives_of_isOf false hof
    rw [hsymbol] at hderives
    obtain ⟨inner, hinner⟩ := hderives.eq_singleton (by cases start <;> rfl)
    have ht : d.toTree.getD (.rule start.rule.tag none []) = t := Except.ok.inj h
    rw [Derivation.toTree, hinner] at ht
    exact ⟨d, rfl, by rw [hinner]; exact congrArg (fun u => [u]) ht⟩

/-- The derivation of a value that is one literal. -/
def literalDerivation (r : Rule) (t : Token) : Derivation :=
  let rule (r : Rule) (children : List Derivation) : Derivation :=
    .node ⟨.rule r, children.map Derivation.symbol⟩ children
  rule .valueLiteral [rule .value [rule r [.leaf t]]]

theorem isOf_literalDerivation {r : Rule} {s : Terminal} {t : Token} (hs : t.terminal = s)
    (hvalue : ⟨.rule .value, [.nonterminal (.rule r)]⟩ ∈ Grammar.canonical.productions (.rule .value))
    (hliteral : ⟨.rule r, [.terminal s]⟩ ∈ Grammar.canonical.productions (.rule r))
    (hlexeme : t.IsLexeme) : (literalDerivation r t).IsOf .canonical := by
  simp only [literalDerivation, Derivation.IsOf, Derivation.AllOf, Derivation.symbol, List.map_cons,
    List.map_nil, hs, and_true, true_and]
  exact ⟨by decide, hvalue, hliteral, hlexeme⟩

/-! The document `scalar A`. -/

def exampleWords : List Word := [(.keyword .scalar, "scalar".toList), (.name, "A".toList)]

def exampleText : List Char := spellOut exampleWords

theorem exampleWords_isSpelling : ∀ w ∈ exampleWords, IsSpelling w.1 w.2 := by
  have hname : IsSpelling .name "A".toList := .name (by decide) fun k => by cases k <;> decide
  simpa [exampleWords] using ⟨IsSpelling.keyword .scalar, hname⟩

/-- Its derivation: one scalar type, without a description and directives. -/
def exampleDerivation (word name : Token) : Derivation :=
  let rule (r : Rule) (children : List Derivation) : Derivation :=
    .node ⟨.rule r, children.map Derivation.symbol⟩ children
  let type := rule .scalarTypeDefinition [.leaf word, rule .name [.leaf name]]
  let definition := rule .definition [rule .typeSystemDefinition [rule .typeDefinition [type]]]
  rule .document [.node ⟨.repetition .definitions, [.nonterminal (.rule .definition)]⟩ [definition]]

theorem isOf_exampleDerivation {word name : Token} (hword : word.terminal = .keyword .scalar)
    (hname : name.terminal = .name) (hlexemes : word.IsLexeme ∧ name.IsLexeme) :
    (exampleDerivation word name).IsOf .canonical := by
  simp only [exampleDerivation, Derivation.IsOf, Derivation.AllOf, Derivation.symbol, List.map_cons,
    List.map_nil, hword, hname, and_true, true_and]
  exact ⟨by decide, by decide, by decide, by decide, by decide, by decide, hlexemes.1, by decide,
    hlexemes.2⟩

/-- The words of a document with one scalar type. -/
def scalarWords (name : List Char) : List Word :=
  [(.keyword .scalar, "scalar".toList), (.name, name)]

theorem exists_derive_scalar {name : List Char} (hname : IsSpelling .name name) :
    ∃ word t : Token, [word.word, t.word] = scalarWords name ∧
      derive .document (spellOut (scalarWords name)) = .ok (exampleDerivation word t) := by
  have hspelling : ∀ w ∈ scalarWords name, IsSpelling w.1 w.2 := by
    simpa [scalarWords] using ⟨IsSpelling.keyword .scalar, hname⟩
  have hwords := map_word_tokensFrom .start (scalarWords name)
  have hreads := Input.readsAs_spellOut hspelling .start
  obtain ⟨word, tokens, htokens, hword, hrest⟩ := List.map_eq_cons_iff.mp hwords
  obtain ⟨t, rest, rfl, ht, hnil⟩ := List.map_eq_cons_iff.mp hrest
  obtain rfl := List.map_eq_nil_iff.mp hnil
  have hlexeme (t : Token) (w : Word) (hw : w ∈ scalarWords name) (ht : t.word = w) : t.IsLexeme :=
    Token.isLexeme_of_spelling (by
      have h := hspelling w hw
      rwa [← ht] at h)
  have hlexemes := And.intro (hlexeme word _ (by simp [scalarWords]) hword)
    (hlexeme t _ (by simp [scalarWords]) ht)
  exact ⟨word, t, by rw [hword, ht]; rfl, derive_complete
    (isOf_exampleDerivation (congrArg Prod.fst hword) (congrArg Prod.fst ht) hlexemes) rfl (by
      rw [htokens] at hreads
      exact hreads)⟩

theorem exists_derive_exampleText : ∃ word name : Token, [word.word, name.word] = exampleWords ∧
    derive .document exampleText = .ok (exampleDerivation word name) :=
  exists_derive_scalar (exampleWords_isSpelling _ (List.mem_cons_of_mem _ List.mem_cons_self))

theorem exists_parseTree_exampleText : ∃ t, parseTree .document exampleText = .ok t := by
  obtain ⟨word, name, -, hd⟩ := exists_derive_exampleText
  exact ⟨_, by rw [parseTree, hd]; rfl⟩

/-- The tree that the parser gives is a derivation of the tokens that the text splits into. -/
theorem parseTree_derives {start : Start} {text : List Char} {t : ParseTree}
    (h : parseTree start text = .ok t) : ∃ w, (Input.ofText text).SplitsInto w ∧
      Derives false (.nonterminal (.rule start.rule)) w [t] := by
  obtain ⟨d, hd, ht⟩ := parseTree_eq_ok h
  obtain ⟨hof, hsymbol⟩ := derive_sound hd
  have hderives := d.derives_of_isOf false hof
  rw [hsymbol, ht] at hderives
  exact ⟨d.tokens, derive_tokens hd, hderives⟩

theorem exampleText_derives : ∃ t w, parseTree .document exampleText = .ok t ∧
    (Input.ofText exampleText).SplitsInto w ∧ Derives false (.nonterminal (.rule .document)) w [t] := by
  obtain ⟨t, ht⟩ := exists_parseTree_exampleText
  obtain ⟨w, hw, hderives⟩ := parseTree_derives ht
  exact ⟨t, w, ht, hw, hderives⟩

end GraphQLDoc
