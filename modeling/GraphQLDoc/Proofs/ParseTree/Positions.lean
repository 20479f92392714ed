import GraphQLDoc.Proofs.ParseTree.Alternatives
import GraphQLDoc.Proofs.Token.Place

/-!
Where the parts of a parse tree lie in the text. Each rule in a tree stands for a run of tokens, what
it derives with the tokens that were dropped, and its span goes from the first of them to the last.
The runs of the children of a node follow each other in its own, so that their spans lie in the span
of the node and do not overlap.
-/
namespace GraphQLDoc

namespace ParseTree

mutual

/-- A tree and all the trees in it. -/
def parts : ParseTree → List ParseTree
  | token tag text span => [token tag text span]
  | rule tag span children => rule tag span children :: partsOf children

def partsOf : List ParseTree → List ParseTree
  | [] => []
  | t :: ts => t.parts ++ partsOf ts

end

theorem mem_parts_self (t : ParseTree) : t ∈ t.parts := by
  cases t <;> simp [parts]

theorem mem_partsOf {u : ParseTree} {ts : List ParseTree} :
    u ∈ partsOf ts ↔ ∃ t ∈ ts, u ∈ t.parts := by
  induction ts with
  | nil => simp [partsOf]
  | cons t ts ih => simp [partsOf, ih]

theorem partsOf_append (ts us : List ParseTree) :
    partsOf (ts ++ us) = partsOf ts ++ partsOf us := by
  induction ts with
  | nil => rfl
  | cons t ts ih => rw [List.cons_append, partsOf, ih, partsOf, List.append_assoc]

/-- The tree is a kept token, or the node of what a rule derives from the tokens. -/
inductive StandsFor : ParseTree → List Token → Prop where
  | token {t : Token} : StandsFor t.leaf [t]
  | rule {r : Rule} {w : List Token} {ts : List ParseTree}
      (derives : Derives false (.nonterminal (.rule r)) w [.rule r.tag (Token.spanOf w) ts]) :
      StandsFor (.rule r.tag (Token.spanOf w) ts) w

mutual

/-- All the trees in a tree stand for runs of tokens. -/
inductive IsPlaced : ParseTree → List Token → Prop where
  | token {t : Token} : IsPlaced t.leaf [t]
  | rule {r : Rule} {w : List Token} {ts : List ParseTree} (nonempty : w ≠ [])
      (derives : Derives false (.nonterminal (.rule r)) w [.rule r.tag (Token.spanOf w) ts])
      (children : ArePlaced ts w) : IsPlaced (.rule r.tag (Token.spanOf w) ts) w

/-- The trees stand for runs of tokens one behind the other, with others around them. -/
inductive ArePlaced : List ParseTree → List Token → Prop where
  | nil {w : List Token} : ArePlaced [] w
  | cons {gap run rest : List Token} {t : ParseTree} {ts : List ParseTree} (first : IsPlaced t run)
      (more : ArePlaced ts rest) : ArePlaced (t :: ts) (gap ++ run ++ rest)

end

theorem ArePlaced.prepend {ts : List ParseTree} {w : List Token} (h : ArePlaced ts w)
    (front : List Token) : ArePlaced ts (front ++ w) := by
  cases h with
  | nil => exact .nil
  | @cons gap run rest t ts first more =>
    have hsplit : front ++ (gap ++ run ++ rest) = front ++ gap ++ run ++ rest := by
      simp only [List.append_assoc]
    rw [hsplit]
    exact .cons first more

theorem ArePlaced.append {ts ts' : List ParseTree} {w w' : List Token} (h : ArePlaced ts w)
    (h' : ArePlaced ts' w') : ArePlaced (ts ++ ts') (w ++ w') := by
  match h with
  | .nil => exact h'.prepend w
  | .cons first more =>
    rw [List.append_assoc]
    exact .cons first (more.append h')

theorem IsPlaced.alone {t : ParseTree} {w : List Token} (h : IsPlaced t w) : ArePlaced [t] w := by
  have hsplit : w = [] ++ w ++ [] := by simp
  rw [hsplit]
  exact .cons h .nil

end ParseTree

open ParseTree

/-- Every alternative has a clause that is not left out. -/
theorem Rule.exists_needed (r : Rule) :
    ∀ cs ∈ r.alternatives, ∃ c ∈ cs, c.mayBeAbsent = false := by
  cases r <;> decide

/-- An alternative that is one terminal leaves at most the token. -/
theorem DerivesAll.terminal {keepsWords : Bool} {s : Terminal} {w : List Token} {ts : List ParseTree}
    (h : DerivesAll keepsWords [.literal s] w ts) :
    ∃ t : Token, t.terminal = s ∧ ts = if Derivation.Token.isKept keepsWords t then [t.leaf] else [] := by
  cases h with
  | taken clause rest =>
    cases rest
    generalize hs : Clause.symbol _ = s' at clause
    cases clause with
    | @token _ t => exact ⟨t, (Symbol.terminal.inj hs).symm, List.append_nil _⟩
    | _ => cases hs
  | left absent rest => cases absent

mutual

/-- No symbol stands for nothing. -/
theorem Derives.ne_nil {keepsWords : Bool} {s : Symbol} {w : List Token} {ts : List ParseTree} :
    Derives keepsWords s w ts → w ≠ []
  | .token => List.cons_ne_nil _ _
  | .node (r := r) _ alternative body => body.ne_nil (r.exists_needed _ alternative)
  | .inlined (r := r) _ alternative body => body.ne_nil (r.exists_needed _ alternative)
  | .start whole => whole.ne_nil
  | .first (r := r) element => element.ne_nil (by
      rw [r.element_eq]
      exact ⟨.one (.nonterminal (.rule r.rule)), by simp, rfl⟩)
  | .more list element => by
      intro hnil
      exact list.ne_nil (List.append_eq_nil_iff.mp hnil).1

theorem DerivesAll.ne_nil {keepsWords : Bool} {cs : List Clause} {w : List Token}
    {ts : List ParseTree} :
    DerivesAll keepsWords cs w ts → (∃ c ∈ cs, c.mayBeAbsent = false) → w ≠ []
  | .nil => nofun
  | .taken clause rest => by
      intro _ hnil
      exact clause.ne_nil (List.append_eq_nil_iff.mp hnil).1
  | .left absent rest => by
      intro ⟨c, hc, hneeded⟩
      rcases List.mem_cons.mp hc with rfl | hc
      · exact nomatch hneeded.symm.trans absent
      · exact rest.ne_nil ⟨c, hc, hneeded⟩

end

mutual

/-- What a symbol stands for lies in place. -/
theorem Derives.arePlaced {keepsWords : Bool} {s : Symbol} {w : List Token} {ts : List ParseTree} :
    Derives keepsWords s w ts → ArePlaced ts w
  | .token => by
      split
      · exact IsPlaced.token.alone
      · exact .nil
  | .node own alternative body => by
      have hderives : Derives false _ _ _ := .node own alternative body
      exact (IsPlaced.rule hderives.ne_nil hderives body.arePlaced).alone
  | .inlined _ _ body => body.arePlaced
  | .start whole => whole.arePlaced
  | .first element => element.arePlaced
  | .more list element => list.arePlaced.append element.arePlaced

theorem DerivesAll.arePlaced {keepsWords : Bool} {cs : List Clause} {w : List Token}
    {ts : List ParseTree} : DerivesAll keepsWords cs w ts → ArePlaced ts w
  | .nil => .nil
  | .taken clause rest => clause.arePlaced.append rest.arePlaced
  | .left _ rest => rest.arePlaced

end

/-- A rule with nodes of its own lies in place as a whole. -/
theorem Derives.isPlaced {keepsWords : Bool} {r : Rule} {w : List Token} {t : ParseTree}
    (h : Derives keepsWords (.nonterminal (.rule r)) w [t]) (hr : r.inlined = false) :
    IsPlaced t w := by
  cases h with
  | node own alternative body =>
    have hderives : Derives false _ _ _ := .node own alternative body
    exact .rule hderives.ne_nil hderives body.arePlaced
  | inlined inlined alternative body => exact nomatch hr.symm.trans inlined

namespace ParseTree

mutual

/-- A part of a tree stands for a part of its tokens. -/
theorem IsPlaced.part {t u : ParseTree} {w : List Token} :
    IsPlaced t w → u ∈ t.parts → ∃ before run after, w = before ++ run ++ after ∧ IsPlaced u run
  | .token, hu => by
      obtain rfl : u = _ := List.mem_singleton.mp hu
      exact ⟨[], _, [], rfl, .token⟩
  | .rule nonempty derives children, hu => by
      rcases List.mem_cons.mp hu with rfl | hu
      · exact ⟨[], w, [], by simp, .rule nonempty derives children⟩
      · exact children.part hu

theorem ArePlaced.part {ts : List ParseTree} {u : ParseTree} {w : List Token} :
    ArePlaced ts w → u ∈ partsOf ts →
      ∃ before run after, w = before ++ run ++ after ∧ IsPlaced u run
  | .nil, hu => nomatch hu
  | @ArePlaced.cons gap front rest _ _ first more, hu => by
      rcases List.mem_append.mp hu with hu | hu
      · obtain ⟨before, run, after, rfl, hplaced⟩ := first.part hu
        exact ⟨gap ++ before, run, after ++ rest, by simp only [List.append_assoc], hplaced⟩
      · obtain ⟨before, run, after, rfl, hplaced⟩ := more.part hu
        exact ⟨gap ++ front ++ before, run, after, by simp only [List.append_assoc], hplaced⟩

end

/-- The span of a tree is that of its tokens. -/
theorem IsPlaced.span {t : ParseTree} {w : List Token} (h : IsPlaced t w) :
    ∃ s, Token.spanOf w = some s ∧ t.span? = some s := by
  cases h with
  | token => exact ⟨_, rfl, rfl⟩
  | rule nonempty derives children =>
    obtain ⟨a, w, rfl⟩ := List.exists_cons_of_ne_nil nonempty
    exact ⟨_, rfl, rfl⟩

end ParseTree

namespace Token

/-- Tokens of the text, one behind the other. -/
structure AreLaid (text : List Char) (w : List Token) : Prop where
  lie : ∀ t ∈ w, t.LiesIn text
  order : InOrder w

variable {text : List Char} {w : List Token} {s : Span}

theorem AreLaid.sublist {w' : List Token} (h : AreLaid text w) (hsub : w'.Sublist w) :
    AreLaid text w' :=
  ⟨fun t ht => h.lie t (hsub.subset ht), h.order.sublist hsub⟩

/-- Tokens are covered from the first to the last of them. -/
theorem spanOf_eq (h : spanOf w = some s) :
    ∃ a ∈ w, ∃ b ∈ w, s = ⟨a.span.first, b.span.last⟩ := by
  cases w with
  | nil => exact nomatch h
  | cons a w =>
    obtain rfl := Option.some.inj h
    exact ⟨a, List.mem_cons_self, _, List.getLast_mem (List.cons_ne_nil a w), rfl⟩

/-- All the tokens lie between the ends of their span. -/
theorem AreLaid.covered (h : AreLaid text w) (hs : spanOf w = some s) {t : Token} (ht : t ∈ w) :
    s.first.offset ≤ t.span.first.offset ∧ t.span.last.offset ≤ s.last.offset := by
  cases w with
  | nil => exact nomatch hs
  | cons a w =>
    obtain rfl := Option.some.inj hs
    constructor
    · rcases List.mem_cons.mp ht with rfl | ht
      · exact Nat.le_refl _
      · have hfirst := (h.lie a List.mem_cons_self).offset_le
        exact Nat.le_trans hfirst ((List.pairwise_cons.mp h.order).1 t ht)
    · have hlast := List.dropLast_concat_getLast (List.cons_ne_nil a w)
      generalize (a :: w).getLast (List.cons_ne_nil a w) = b at hlast
      rw [← hlast] at ht h
      rcases List.mem_append.mp ht with ht | ht
      · have hnext := (List.pairwise_append.mp h.order).2.2 t ht b (List.mem_singleton_self b)
        exact Nat.le_trans hnext (h.lie b (by simp)).offset_le
      · obtain rfl := List.mem_singleton.mp ht
        exact Nat.le_refl _

end Token

namespace ParseTree

variable {text : List Char}

/-- What is in place among tokens of the text covers a part of it between two of them. -/
theorem ArePlaced.span {ts : List ParseTree} {w : List Token} (h : ArePlaced ts w)
    (hw : Token.AreLaid text w) :
    ∀ t ∈ ts, ∃ a ∈ w, ∃ b ∈ w, t.span? = some ⟨a.span.first, b.span.last⟩ ∧
      a.span.first.offset ≤ b.span.last.offset := by
  match h with
  | .nil => exact nofun
  | @ArePlaced.cons gap run rest _ _ first more =>
    intro t ht
    rcases List.mem_cons.mp ht with rfl | ht
    · obtain ⟨s, hs, hspan⟩ := first.span
      have hrun : run.Sublist (gap ++ run ++ rest) :=
        (List.sublist_append_right gap run).trans (List.sublist_append_left _ rest)
      obtain ⟨a, ha, b, hb, rfl⟩ := Token.spanOf_eq hs
      have hcovered := (hw.sublist hrun).covered hs ha
      refine ⟨a, hrun.subset ha, b, hrun.subset hb, hspan, ?_⟩
      exact Nat.le_trans ((hw.sublist hrun).lie a ha).offset_le hcovered.2
    · have hrest : rest.Sublist (gap ++ run ++ rest) := List.sublist_append_right _ rest
      obtain ⟨a, ha, b, hb, hspan⟩ := more.span (hw.sublist hrest) t ht
      exact ⟨a, hrest.subset ha, b, hrest.subset hb, hspan⟩

/-- Each tree ends before the next one begins. -/
theorem ArePlaced.inOrder {ts : List ParseTree} {w : List Token} (h : ArePlaced ts w)
    (hw : Token.AreLaid text w) :
    (ts.filterMap span?).Pairwise fun s s' => s.last.offset ≤ s'.first.offset := by
  match h with
  | .nil => exact .nil
  | @ArePlaced.cons gap run rest _ _ first more =>
    obtain ⟨s, hs, hspan⟩ := first.span
    have hrest : rest.Sublist (gap ++ run ++ rest) := List.sublist_append_right _ rest
    rw [List.filterMap_cons_some hspan]
    refine List.pairwise_cons.mpr ⟨fun s' hs' => ?_, more.inOrder (hw.sublist hrest)⟩
    obtain ⟨u, hu, hspan'⟩ := List.mem_filterMap.mp hs'
    obtain ⟨c, hc, d, hd, hplaced, -⟩ := more.span (hw.sublist hrest) u hu
    obtain rfl := Option.some.inj (hspan'.symm.trans hplaced)
    obtain ⟨a, ha, b, hb, rfl⟩ := Token.spanOf_eq hs
    exact (List.pairwise_append.mp hw.order).2.2 b (List.mem_append_right gap hb) c hc

/-- Where a part of a tree lies, when the tree stands for the tokens `w` of the text. -/
structure IsExact (text : List Char) (w : List Token) (u : ParseTree) : Prop where
  span : ∃ before run after s, w = before ++ run ++ after ∧ u.StandsFor run ∧
    Token.spanOf run = some s ∧ u.span? = some s ∧ s.first.IsExact text ∧ s.last.IsExact text
  slice : ∀ tag value s, u = .token tag value s →
    (text.take s.last.offset).drop s.first.offset = value.toList
  inside : ∀ tag s children, u = .rule tag (some s) children → ∀ c ∈ children, ∃ s',
    c.span? = some s' ∧ s.first.offset ≤ s'.first.offset ∧ s'.first.offset ≤ s'.last.offset ∧
      s'.last.offset ≤ s.last.offset
  order : ∀ tag s children, u = .rule tag s children →
    (children.filterMap span?).Pairwise fun a b => a.last.offset ≤ b.first.offset

theorem IsPlaced.standsFor {t : ParseTree} {w : List Token} (h : IsPlaced t w) : t.StandsFor w := by
  cases h with
  | token => exact .token
  | rule nonempty derives children => exact .rule derives

/-- A token in a tree is one of those that the tree stands for. -/
theorem IsPlaced.exists_leaf {t : ParseTree} {tag value : String} {span : Span} {w : List Token}
    (h : IsPlaced t w) (hu : .token tag value span ∈ t.parts) :
    ∃ a ∈ w, .token tag value span = a.leaf := by
  obtain ⟨before, run, after, rfl, hplaced⟩ := h.part hu
  cases hplaced with
  | token => exact ⟨_, by simp, rfl⟩

theorem IsPlaced.of_rule {tag : String} {span : Option Span} {ts : List ParseTree} {w : List Token}
    (h : IsPlaced (.rule tag span ts) w) : span = Token.spanOf w ∧ ArePlaced ts w := by
  cases h with
  | rule nonempty derives children => exact ⟨rfl, children⟩

theorem IsPlaced.isExact {t u : ParseTree} {w : List Token} (h : IsPlaced t w)
    (hw : Token.AreLaid text w) (hu : u ∈ t.parts) : u.IsExact text w := by
  obtain ⟨before, run, after, hsplit, hplaced⟩ := h.part hu
  have hrun : Token.AreLaid text run := hw.sublist (by
    rw [hsplit]
    exact (List.sublist_append_right before run).trans (List.sublist_append_left _ after))
  constructor
  · obtain ⟨s, hs, hspan⟩ := hplaced.span
    obtain ⟨a, ha, b, hb, rfl⟩ := Token.spanOf_eq hs
    exact ⟨before, run, after, _, hsplit, hplaced.standsFor, hs, hspan,
      (hrun.lie a ha).first_isExact, (hrun.lie b hb).last_isExact⟩
  · intro tag value s htoken
    subst htoken
    cases hplaced with
    | token => exact (hrun.lie _ (List.mem_singleton_self _)).slice.trans (by simp)
  · intro tag s children hrule c hc
    subst hrule
    obtain ⟨hspan, hchildren⟩ := hplaced.of_rule
    obtain ⟨a, ha, b, hb, hplace, hle⟩ := hchildren.span hrun c hc
    exact ⟨_, hplace, (hrun.covered hspan.symm ha).1, hle, (hrun.covered hspan.symm hb).2⟩
  · intro tag s children hrule
    subst hrule
    exact hplaced.of_rule.2.inOrder hrun

end ParseTree

/-- The tree of a text is what its derivation stands for. -/
theorem parseTree_derivation {start : Start} {text : List Char} {t : ParseTree}
    (h : parseTree start text = .ok t) : ∃ d, derive start text = .ok d ∧ d.IsOf .full ∧
      Derives false (.nonterminal (.rule start.rule)) d.tokens [t] := by
  obtain ⟨d, hd, ht⟩ := parseTree_eq_ok h
  obtain ⟨hof, hsymbol⟩ := derive_sound hd
  have hderives := d.derives_of_isOf false hof
  rw [hsymbol, ht] at hderives
  exact ⟨d, hd, hof, hderives⟩

/-- Each part of the tree of a text lies exactly where its tokens are in the text. -/
theorem parseTree_positions {start : Start} {text : List Char} {t : ParseTree}
    (h : parseTree start text = .ok t) :
    ∃ w, (Input.ofText text).SplitsInto w ∧ ∀ u ∈ t.parts, u.IsExact text w := by
  obtain ⟨d, hd, -, hderives⟩ := parseTree_derivation h
  have hplaced : IsPlaced t d.tokens := hderives.isPlaced (by cases start <;> rfl)
  have hsplits := derive_tokens hd
  obtain ⟨hlie, horder⟩ := hsplits.lie
  exact ⟨d.tokens, hsplits, fun u hu => hplaced.isExact ⟨hlie, horder⟩ hu⟩

theorem exampleText_positions : ∃ t w, parseTree .document exampleText = .ok t ∧
    (Input.ofText exampleText).SplitsInto w ∧ ∀ u ∈ t.parts, u.IsExact exampleText w := by
  obtain ⟨t, ht⟩ := exists_parseTree_exampleText
  obtain ⟨w, hw, hexact⟩ := parseTree_positions ht
  exact ⟨t, w, ht, hw, hexact⟩

end GraphQLDoc
