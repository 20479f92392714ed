import GraphQLDoc.Proofs.ParseTree.Derivation

/-!
The shape of parse trees, rule by rule. What derives a list of clauses falls into one part for each
clause, and the same holds of the trees that it leaves. Read from left to right this takes trees
apart, read from right to left it builds derivations.
-/
namespace GraphQLDoc

namespace Repetition

/-- The rule of the elements of a list. -/
def rule : Repetition → Rule
  | definitions => .definition | variableDefinitions => .variableDefinition
  | selections => .selection | values => .value | objectFields => .objectField
  | directives => .directive | arguments => .argument
  | rootOperationTypes => .rootOperationTypeDefinition | interfaces | unionMembers => .namedType
  | fields => .fieldDefinition | inputValues => .inputValueDefinition
  | enumValues => .enumValueDefinition | locations => .directiveLocation

/-- What stands in front of each element. -/
def separator : Repetition → Option Punctuator
  | interfaces => some .ampersand
  | unionMembers | locations => some .pipe
  | _ => none

theorem element_eq (r : Repetition) : r.element =
    (r.separator.toList.map fun p => .terminal (.punctuator p)) ++ [.nonterminal (.rule r.rule)] := by
  cases r <;> rfl

end Repetition

/-- The leaf that a token leaves where it is kept. -/
def Token.leaf (t : Token) : ParseTree := .token t.terminal.tag (String.ofList t.text) t.span

/-- Symbols derive the tokens `w` and leave the trees `ts` in the node above. -/
def Yields (g : Grammar) (keepsWords : Bool) (ss : List Symbol) (w : List Token)
    (ts : List ParseTree) : Prop :=
  ∃ ds, Derivation.AllOf g ds ∧ ds.map Derivation.symbol = ss ∧
    Derivation.tokensOfList ds = w ∧ (Derivation.treesOfList keepsWords ds).1 = ts

variable {g : Grammar} {keepsWords : Bool} {w : List Token} {ts : List ParseTree}

namespace Yields

theorem nil_iff : Yields g keepsWords [] w ts ↔ w = [] ∧ ts = [] := by
  constructor
  · rintro ⟨ds, -, hs, rfl, rfl⟩
    obtain rfl := List.map_eq_nil_iff.mp hs
    exact ⟨rfl, rfl⟩
  · rintro ⟨rfl, rfl⟩
    exact ⟨[], trivial, rfl, rfl, rfl⟩

theorem append {a b : List Symbol} {w₁ w₂ : List Token} {ts₁ ts₂ : List ParseTree}
    (ha : Yields g keepsWords a w₁ ts₁) (hb : Yields g keepsWords b w₂ ts₂) :
    Yields g keepsWords (a ++ b) (w₁ ++ w₂) (ts₁ ++ ts₂) := by
  obtain ⟨ds, hd, rfl, rfl, rfl⟩ := ha
  obtain ⟨es, he, rfl, rfl, rfl⟩ := hb
  have hall : Derivation.AllOf g (ds ++ es) := by
    simp only [Derivation.allOf_iff, List.mem_append] at hd he ⊢
    rintro d (h | h)
    · exact hd d h
    · exact he d h
  exact ⟨ds ++ es, hall, List.map_append, Derivation.tokensOfList_append ds es,
    Derivation.treesOfList_append keepsWords ds es⟩

theorem append_iff {a b : List Symbol} : Yields g keepsWords (a ++ b) w ts ↔
    ∃ w₁ w₂ ts₁ ts₂, w = w₁ ++ w₂ ∧ ts = ts₁ ++ ts₂ ∧ Yields g keepsWords a w₁ ts₁ ∧
      Yields g keepsWords b w₂ ts₂ := by
  constructor
  · rintro ⟨ds, hall, hs, rfl, rfl⟩
    obtain ⟨ds₁, ds₂, rfl, hs₁, hs₂⟩ := List.map_eq_append_iff.mp hs
    simp only [Derivation.allOf_iff, List.mem_append] at hall
    exact ⟨_, _, _, _, Derivation.tokensOfList_append ds₁ ds₂,
      Derivation.treesOfList_append keepsWords ds₁ ds₂,
      ⟨ds₁, Derivation.allOf_iff.mpr fun d hd => hall d (.inl hd), hs₁, rfl, rfl⟩,
      ⟨ds₂, Derivation.allOf_iff.mpr fun d hd => hall d (.inr hd), hs₂, rfl, rfl⟩⟩
  · rintro ⟨w₁, w₂, ts₁, ts₂, rfl, rfl, h₁, h₂⟩
    exact h₁.append h₂

theorem cons_iff {s : Symbol} {ss : List Symbol} : Yields g keepsWords (s :: ss) w ts ↔
    ∃ w₁ w₂ ts₁ ts₂, w = w₁ ++ w₂ ∧ ts = ts₁ ++ ts₂ ∧ Yields g keepsWords [s] w₁ ts₁ ∧
      Yields g keepsWords ss w₂ ts₂ :=
  append_iff (a := [s])

theorem terminal_iff {t : Terminal} : Yields g keepsWords [.terminal t] w ts ↔
    ∃ token, g.lexeme token ∧ token.terminal = t ∧ w = [token] ∧
      ts = if Derivation.Token.isKept keepsWords token then [token.leaf] else [] := by
  constructor
  · rintro ⟨ds, hall, hs, rfl, rfl⟩
    obtain ⟨d, rfl, hd⟩ := List.map_eq_singleton_iff.mp hs
    cases d with
    | leaf token =>
      obtain rfl := Symbol.terminal.inj hd
      exact ⟨token, hall.1, rfl, rfl, by simp [Derivation.treesOfList, Derivation.trees, Token.leaf]⟩
    | node p ds => simp [Derivation.symbol] at hd
  · rintro ⟨token, htoken, rfl, rfl, rfl⟩
    exact ⟨[.leaf token], ⟨htoken, trivial⟩, rfl, rfl,
      by simp [Derivation.treesOfList, Derivation.trees, Token.leaf]⟩

/-- A single symbol that is a nonterminal. -/
theorem nonterminal_iff {n : Nonterminal} : Yields g keepsWords [.nonterminal n] w ts ↔
    ∃ p children, p.head = n ∧ (Derivation.node p children).IsOf g ∧
      Derivation.tokensOfList children = w ∧
      ((Derivation.node p children).trees keepsWords).1 = ts := by
  constructor
  · rintro ⟨ds, hall, hs, rfl, rfl⟩
    obtain ⟨d, rfl, hd⟩ := List.map_eq_singleton_iff.mp hs
    cases d with
    | leaf token => simp [Derivation.symbol] at hd
    | node p ds =>
      obtain rfl := Symbol.nonterminal.inj hd
      refine ⟨p, ds, rfl, hall.1, ?_, ?_⟩
      · simp [Derivation.tokensOfList, Derivation.tokens]
      · simp [Derivation.treesOfList]
  · rintro ⟨p, children, rfl, hd, rfl, rfl⟩
    refine ⟨[.node p children], ⟨hd, trivial⟩, rfl, ?_, ?_⟩
    · simp [Derivation.tokensOfList, Derivation.tokens]
    · simp [Derivation.treesOfList]

end Yields

/-- What stands in a node of a rule. -/
def Inside (g : Grammar) (r : Rule) (w : List Token) (ts : List ParseTree) : Prop :=
  ∃ body, ⟨.rule r, body⟩ ∈ g.productions (.rule r) ∧ Yields g r.keepsWords body w ts

/-- The trees of a node do not depend on the node above. -/
theorem Yields.within {n : Nonterminal} (h : Yields g keepsWords [.nonterminal n] w ts)
    (keepsWords' : Bool) : Yields g keepsWords' [.nonterminal n] w ts := by
  obtain ⟨p, children, hn, hd, hw, hts⟩ := nonterminal_iff.mp h
  exact nonterminal_iff.mpr ⟨p, children, hn, hd, hw, hts⟩

/-- A tree of a rule with nodes of its own, or of the rules that an inlined rule stands for. -/
def IsTreeOf (g : Grammar) (r : Rule) (w : List Token) (t : ParseTree) : Prop :=
  Yields g false [.nonterminal (.rule r)] w [t]

theorem Yields.inside {r : Rule} (h : Yields g keepsWords [.nonterminal (.rule r)] w ts) :
    ∃ span inner, Inside g r w inner ∧
      ts = if r.inlined then inner else [.rule r.tag span inner] := by
  obtain ⟨⟨head, body⟩, children, rfl, ⟨hp, hbody, hall⟩, rfl, rfl⟩ := nonterminal_iff.mp h
  exact ⟨_, _, ⟨body, hp, children, hall, hbody, rfl, rfl⟩, rfl⟩

theorem Inside.yields {r : Rule} (h : Inside g r w ts) :
    ∃ span, Yields g false [.nonterminal (.rule r)] w
      (if r.inlined then ts else [.rule r.tag span ts]) := by
  obtain ⟨body, hp, children, hall, hbody, rfl, rfl⟩ := h
  exact ⟨_, Yields.nonterminal_iff.mpr
    ⟨⟨.rule r, body⟩, children, rfl, ⟨hp, hbody, hall⟩, rfl, rfl⟩⟩

theorem IsTreeOf.inside {r : Rule} {t : ParseTree} (h : IsTreeOf g r w t)
    (hr : r.inlined = false) : ∃ span inner, t = .rule r.tag span inner ∧ Inside g r w inner := by
  obtain ⟨span, inner, hinner, ht⟩ := Yields.inside h
  exact ⟨span, inner, by simpa [hr] using ht, hinner⟩

theorem Inside.isTreeOf {r : Rule} (h : Inside g r w ts) (hr : r.inlined = false) :
    ∃ span, IsTreeOf g r w (.rule r.tag span ts) := by
  obtain ⟨span, h⟩ := h.yields
  rw [hr] at h
  exact ⟨span, h⟩

def Clause.symbol : Clause → Symbol
  | one s | optional s => s
  | oneOrMore r | zeroOrMore r => .nonterminal (.repetition r)

/-- What a clause derives and leaves. -/
def Clause.Yields (g : Grammar) (keepsWords : Bool) (w : List Token) (ts : List ParseTree) :
    Clause → Prop
  | .one s => GraphQLDoc.Yields g keepsWords [s] w ts
  | .optional s => (w = [] ∧ ts = []) ∨ GraphQLDoc.Yields g keepsWords [s] w ts
  | .oneOrMore r => GraphQLDoc.Yields g keepsWords [.nonterminal (.repetition r)] w ts
  | .zeroOrMore r =>
    (w = [] ∧ ts = []) ∨ GraphQLDoc.Yields g keepsWords [.nonterminal (.repetition r)] w ts

/-- Clauses one after the other. -/
def Sequence (g : Grammar) (keepsWords : Bool) :
    List Clause → List Token → List ParseTree → Prop
  | [], w, ts => w = [] ∧ ts = []
  | c :: cs, w, ts => ∃ w₁ w₂ ts₁ ts₂, w = w₁ ++ w₂ ∧ ts = ts₁ ++ ts₂ ∧
      c.Yields g keepsWords w₁ ts₁ ∧ Sequence g keepsWords cs w₂ ts₂

theorem Sequence.one_iff {s : Symbol} :
    Sequence g keepsWords [.one s] w ts ↔ Yields g keepsWords [s] w ts := by
  constructor
  · rintro ⟨w₁, w₂, ts₁, ts₂, rfl, rfl, h, rfl, rfl⟩
    rw [List.append_nil, List.append_nil]
    exact h
  · intro h
    exact ⟨w, [], ts, [], (List.append_nil w).symm, (List.append_nil ts).symm, h, rfl, rfl⟩

theorem sequence_iff {cs : List Clause} : Sequence g keepsWords cs w ts ↔
    ∃ body ∈ Clause.expand cs, Yields g keepsWords body w ts := by
  induction cs generalizing w ts with
  | nil => simp [Sequence, Clause.expand, Yields.nil_iff]
  | cons c cs ih =>
    have hcons (s : Symbol) :
        (∃ body ∈ (Clause.expand cs).map (s :: ·), Yields g keepsWords body w ts) ↔
          ∃ w₁ w₂ ts₁ ts₂, w = w₁ ++ w₂ ∧ ts = ts₁ ++ ts₂ ∧ Yields g keepsWords [s] w₁ ts₁ ∧
            Sequence g keepsWords cs w₂ ts₂ := by
      constructor
      · rintro ⟨_, hbody, h⟩
        obtain ⟨body, hmem, rfl⟩ := List.mem_map.mp hbody
        obtain ⟨w₁, w₂, ts₁, ts₂, hw, hts, h₁, h₂⟩ := Yields.cons_iff.mp h
        exact ⟨w₁, w₂, ts₁, ts₂, hw, hts, h₁, ih.mpr ⟨body, hmem, h₂⟩⟩
      · rintro ⟨w₁, w₂, ts₁, ts₂, hw, hts, h₁, h₂⟩
        obtain ⟨body, hmem, h₂⟩ := ih.mp h₂
        exact ⟨_, List.mem_map_of_mem hmem,
          Yields.cons_iff.mpr ⟨w₁, w₂, ts₁, ts₂, hw, hts, h₁, h₂⟩⟩
    have hoptional (s : Symbol) :
        (∃ body ∈ (Clause.expand cs).map (s :: ·) ++ Clause.expand cs,
          Yields g keepsWords body w ts) ↔
          ∃ w₁ w₂ ts₁ ts₂, w = w₁ ++ w₂ ∧ ts = ts₁ ++ ts₂ ∧
            ((w₁ = [] ∧ ts₁ = []) ∨ Yields g keepsWords [s] w₁ ts₁) ∧
            Sequence g keepsWords cs w₂ ts₂ := by
      constructor
      · rintro ⟨body, hbody, h⟩
        rcases List.mem_append.mp hbody with hmem | hmem
        · obtain ⟨w₁, w₂, ts₁, ts₂, hw, hts, h₁, h₂⟩ := (hcons s).mp ⟨body, hmem, h⟩
          exact ⟨w₁, w₂, ts₁, ts₂, hw, hts, .inr h₁, h₂⟩
        · exact ⟨[], w, [], ts, rfl, rfl, .inl ⟨rfl, rfl⟩, ih.mpr ⟨body, hmem, h⟩⟩
      · rintro ⟨w₁, w₂, ts₁, ts₂, rfl, rfl, ⟨rfl, rfl⟩ | h₁, h₂⟩
        · obtain ⟨body, hmem, h⟩ := ih.mp h₂
          exact ⟨body, List.mem_append_right _ hmem, h⟩
        · obtain ⟨body, hmem, h⟩ := (hcons s).mpr ⟨w₁, w₂, ts₁, ts₂, rfl, rfl, h₁, h₂⟩
          exact ⟨body, List.mem_append_left _ hmem, h⟩
    cases c with
    | one s => exact (hcons s).symm
    | optional s => exact (hoptional s).symm
    | oneOrMore r => exact (hcons _).symm
    | zeroOrMore r => exact (hoptional _).symm

/-- A list of elements, each with its tokens and its tree. -/
def Items (g : Grammar) (r : Repetition) (w : List Token) (ts : List ParseTree) : Prop :=
  ∃ parts : List (List Token × ParseTree), w = parts.flatMap (·.1) ∧ ts = parts.map (·.2) ∧
    ∀ p ∈ parts, Yields g false r.element p.1 [p.2]

theorem Items.nil {r : Repetition} : Items g r [] [] := ⟨[], rfl, rfl, nofun⟩

theorem Items.concat {r : Repetition} {w' : List Token} {t : ParseTree}
    (h : Items g r w ts) (ht : Yields g false r.element w' [t]) :
    Items g r (w ++ w') (ts ++ [t]) := by
  obtain ⟨parts, rfl, rfl, hparts⟩ := h
  refine ⟨parts ++ [(w', t)], by simp, by simp, fun p hp => ?_⟩
  rcases List.mem_append.mp hp with hp | hp
  · exact hparts p hp
  · obtain rfl := List.mem_singleton.mp hp
    exact ht

theorem Items.cons {r : Repetition} {w' : List Token} {t : ParseTree}
    (ht : Yields g false r.element w' [t]) (h : Items g r w ts) :
    Items g r (w' ++ w) (t :: ts) := by
  obtain ⟨parts, rfl, rfl, hparts⟩ := h
  refine ⟨(w', t) :: parts, rfl, rfl, fun p hp => ?_⟩
  rcases List.mem_cons.mp hp with rfl | hp
  · exact ht
  · exact hparts p hp

/-- What separates the elements of a list leaves no tree. -/
theorem Yields.separator {p : Option Punctuator}
    (h : Yields g keepsWords (p.toList.map fun p => .terminal (.punctuator p)) w ts) : ts = [] := by
  cases p with
  | none => exact (nil_iff.mp h).2
  | some p =>
    obtain ⟨token, -, hp, -, rfl⟩ := terminal_iff.mp h
    simp [Derivation.Token.isKept, hp]

section IsUsual

variable [g.IsUsual]

theorem Inside.sequence {r : Rule} (h : Inside g r w ts) :
    ∃ cs ∈ r.alternatives, Sequence g r.keepsWords cs w ts := by
  obtain ⟨body, hbody, hyields⟩ := h
  have hbody := Grammar.IsUsual.subset hbody
  simp only [Nonterminal.productions, Rule.productions, List.mem_flatMap, List.mem_map] at hbody
  obtain ⟨cs, hcs, symbols, hsymbols, heq⟩ := hbody
  obtain ⟨-, rfl⟩ := Production.mk.inj heq
  exact ⟨cs, hcs, sequence_iff.mpr ⟨symbols, hsymbols, hyields⟩⟩

theorem Sequence.inside {r : Rule} {cs : List Clause} (h : Sequence g r.keepsWords cs w ts)
    (hcs : cs ∈ r.alternatives) (hr : r ≠ .operationDefinition) : Inside g r w ts := by
  obtain ⟨body, hbody, hyields⟩ := sequence_iff.mp h
  refine ⟨body, ?_, hyields⟩
  rw [Grammar.IsUsual.productions_eq fun h => hr (Nonterminal.rule.inj h)]
  exact List.mem_flatMap.mpr ⟨cs, hcs, List.mem_map_of_mem hbody⟩

/-- A node of a rule that has nothing but a token inside. -/
theorem Inside.token {r : Rule} (h : Inside g r w ts) (terminals : List Terminal)
    (hterminals : r.alternatives = terminals.map fun t => [.one (.terminal t)]) :
    ∃ token, g.lexeme token ∧ token.terminal ∈ terminals ∧ w = [token] ∧
      ts = if Derivation.Token.isKept r.keepsWords token then [token.leaf] else [] := by
  obtain ⟨cs, hcs, hsequence⟩ := h.sequence
  rw [hterminals] at hcs
  obtain ⟨t, ht, rfl⟩ := List.mem_map.mp hcs
  obtain ⟨token, htoken, rfl, hw, hts⟩ := Yields.terminal_iff.mp (Sequence.one_iff.mp hsequence)
  exact ⟨token, htoken, ht, hw, hts⟩

theorem Inside.of_token {r : Rule} {token : Token} (htoken : g.lexeme token)
    (hcs : [.one (.terminal token.terminal)] ∈ r.alternatives)
    (hr : r ≠ .operationDefinition) :
    Inside g r [token] (if Derivation.Token.isKept r.keepsWords token then [token.leaf] else []) :=
  (Sequence.one_iff.mpr (Yields.terminal_iff.mpr ⟨token, htoken, rfl, rfl, rfl⟩)).inside hcs hr

/-- How many inlined rules may stand above the node of a rule. -/
def Rule.inlining : Rule → Nat
  | .definition => 3
  | .executableDefinition | .typeSystemDefinition | .typeSystemExtension => 2
  | .typeDefinition | .typeExtension | .selection | .value | .anyType => 1
  | _ => 0

theorem Rule.alternatives_of_inlined {r : Rule} (hr : r.inlined = true) :
    r ≠ .operationDefinition ∧ ∃ rs, r.alternatives = Clause.oneOf rs ∧
      ∀ s ∈ rs, s.inlining < r.inlining := by
  cases r <;> first | exact ⟨nofun, _, rfl, by decide⟩ | cases hr

/-- An inlined rule stands for one of others. -/
theorem Inside.of_inlined {r : Rule} {rs : List Rule} (hr : r ≠ .operationDefinition)
    (hrs : r.alternatives = Clause.oneOf rs) :
    Inside g r w ts ↔ ∃ s ∈ rs, Yields g r.keepsWords [.nonterminal (.rule s)] w ts := by
  constructor
  · intro h
    obtain ⟨cs, hcs, hsequence⟩ := h.sequence
    rw [hrs] at hcs
    obtain ⟨s, hs, rfl⟩ := List.mem_map.mp hcs
    exact ⟨s, hs, Sequence.one_iff.mp hsequence⟩
  · rintro ⟨s, hs, h⟩
    exact (Sequence.one_iff.mpr h).inside (by rw [hrs]; exact List.mem_map_of_mem hs) hr

/-- A rule leaves one tree, be it a node of its own or not. -/
theorem Yields.isTreeOf {r : Rule} (h : Yields g keepsWords [.nonterminal (.rule r)] w ts) :
    ∃ t, ts = [t] ∧ IsTreeOf g r w t := by
  obtain ⟨t, rfl⟩ : ∃ t, ts = [t] := by
    induction hn : r.inlining using Nat.strongRecOn generalizing r keepsWords with
    | ind n ih =>
      obtain ⟨span, inner, hinner, hts⟩ := h.inside
      cases hr : r.inlined with
      | false => exact ⟨_, by simpa [hr] using hts⟩
      | true =>
        obtain ⟨hother, rs, hrs, hless⟩ := Rule.alternatives_of_inlined hr
        obtain ⟨s, hs, hyields⟩ := (Inside.of_inlined hother hrs).mp hinner
        have hts : ts = inner := by simpa [hr] using hts
        exact ih _ (hn ▸ hless s hs) (hts ▸ hyields) rfl
  exact ⟨t, rfl, h.within false⟩

theorem IsTreeOf.of_inlined {r : Rule} {rs : List Rule} {t : ParseTree}
    (hr : r.inlined = true) (hrs : r.alternatives = Clause.oneOf rs) :
    IsTreeOf g r w t ↔ ∃ s ∈ rs, IsTreeOf g s w t := by
  obtain ⟨hother, -⟩ := Rule.alternatives_of_inlined hr
  constructor
  · intro h
    obtain ⟨span, inner, hinner, ht⟩ := Yields.inside h
    obtain ⟨s, hs, hyields⟩ := (Inside.of_inlined hother hrs).mp hinner
    have ht : [t] = inner := by simpa [hr] using ht
    exact ⟨s, hs, (ht ▸ hyields).within false⟩
  · rintro ⟨s, hs, h⟩
    have hinside : Inside g r w [t] :=
      (Inside.of_inlined hother hrs).mpr ⟨s, hs, Yields.within h r.keepsWords⟩
    obtain ⟨span, hyields⟩ := hinside.yields
    rw [hr] at hyields
    exact hyields

/-- Each element of a repetition leaves one tree. -/
theorem Yields.element_iff {r : Repetition} : Yields g keepsWords r.element w ts ↔
    ∃ front back t, w = front ++ back ∧ ts = [t] ∧ IsTreeOf g r.rule back t ∧
      Yields g keepsWords (r.separator.toList.map fun p => .terminal (.punctuator p)) front [] := by
  rw [Repetition.element_eq]
  constructor
  · intro h
    obtain ⟨front, back, ts₁, ts₂, rfl, rfl, h₁, h₂⟩ := append_iff.mp h
    obtain ⟨t, rfl, ht⟩ := h₂.isTreeOf
    obtain rfl := h₁.separator
    exact ⟨front, back, t, rfl, rfl, ht, h₁⟩
  · rintro ⟨front, back, t, rfl, rfl, ht, h₁⟩
    exact h₁.append (Yields.within ht keepsWords)

theorem Yields.element {r : Repetition} (h : Yields g keepsWords r.element w ts) :
    ∃ t, ts = [t] := by
  obtain ⟨front, back, t, -, ht, -⟩ := element_iff.mp h
  exact ⟨t, ht⟩

theorem mem_productions_repetition {r : Repetition} {p : Production} :
    p ∈ g.productions (.repetition r) ↔ p = ⟨.repetition r, r.element⟩ ∨
      p = ⟨.repetition r, .nonterminal (.repetition r) :: r.element⟩ := by
  have hg : g.productions (.repetition r) = r.productions :=
    Grammar.IsUsual.productions_eq (n := .repetition r) nofun
  simp [hg, Repetition.productions]

/-- The list grows on the left, element by element. -/
theorem Derivation.items (keepsWords : Bool) (d : Derivation) (hd : d.IsOf g) {r : Repetition}
    (hr : d.symbol = .nonterminal (.repetition r)) :
    Items g r d.tokens (d.trees keepsWords).1 ∧ (d.trees keepsWords).1 ≠ [] := by
  match d, hd with
  | .leaf _, _ => simp [symbol] at hr
  | .node p children, ⟨hp, hbody, hall⟩ =>
    have hhead : p.head = .repetition r := Symbol.nonterminal.inj hr
    rw [hhead] at hp
    have htrees : ((node p children).trees keepsWords).1 = (treesOfList false children).1 := by
      simp [trees, hhead]
    rw [htrees, tokens]
    rcases mem_productions_repetition.mp hp with rfl | rfl
    · have h : Yields g false r.element _ _ := ⟨children, hall, hbody, rfl, rfl⟩
      obtain ⟨t, ht⟩ := h.element
      rw [ht] at h ⊢
      exact ⟨Items.nil.concat h, nofun⟩
    · match children, hall, hbody with
      | d :: ds, ⟨hd, hds⟩, hbody =>
        obtain ⟨hd', hbody⟩ := List.cons.inj hbody
        have h : Yields g false r.element _ _ := ⟨ds, hds, hbody, rfl, rfl⟩
        obtain ⟨t, ht⟩ := h.element
        rw [ht] at h
        have hfront := Derivation.items false d hd hd'
        simp only [tokensOfList, treesOfList, ht]
        exact ⟨hfront.1.concat h, by simp⟩

theorem Yields.repeat {r : Repetition} {parts : List (List Token × ParseTree)}
    (h : Yields g keepsWords [.nonterminal (.repetition r)] w ts)
    (hparts : ∀ p ∈ parts, Yields g false r.element p.1 [p.2]) :
    Yields g keepsWords [.nonterminal (.repetition r)] (w ++ parts.flatMap (·.1))
      (ts ++ parts.map (·.2)) := by
  induction parts generalizing w ts with
  | nil => simpa using h
  | cons p parts ih =>
    obtain ⟨hp, hparts⟩ := List.forall_mem_cons.mp hparts
    obtain ⟨ds, hall, hbody, hw, hts⟩ := (h.within false).append hp
    have hlonger : Yields g keepsWords [.nonterminal (.repetition r)] (w ++ p.1) (ts ++ [p.2]) :=
      nonterminal_iff.mpr ⟨⟨.repetition r, .nonterminal (.repetition r) :: r.element⟩, ds, rfl,
        ⟨mem_productions_repetition.mpr (.inr rfl), hbody, hall⟩, hw, hts⟩
    simpa using ih hlonger hparts

theorem Yields.repetition_iff {r : Repetition} :
    Yields g keepsWords [.nonterminal (.repetition r)] w ts ↔ Items g r w ts ∧ ts ≠ [] := by
  constructor
  · rintro ⟨ds, hall, hs, rfl, rfl⟩
    obtain ⟨d, rfl, hd⟩ := List.map_eq_singleton_iff.mp hs
    simpa [Derivation.tokensOfList, Derivation.treesOfList] using
      d.items keepsWords hall.1 hd
  · rintro ⟨⟨parts, rfl, rfl, hparts⟩, hne⟩
    cases parts with
    | nil => simp at hne
    | cons p parts =>
      obtain ⟨⟨ds, hall, hbody, hw, hts⟩, hparts⟩ := List.forall_mem_cons.mp hparts
      have hfirst : Yields g keepsWords [.nonterminal (.repetition r)] p.1 [p.2] :=
        nonterminal_iff.mpr ⟨⟨.repetition r, r.element⟩, ds, rfl,
          ⟨mem_productions_repetition.mpr (.inl rfl), hbody, hall⟩, hw, hts⟩
      exact hfirst.repeat hparts

end IsUsual

end GraphQLDoc
