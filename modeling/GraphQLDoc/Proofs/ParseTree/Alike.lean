import GraphQLDoc.Literal.Block
import GraphQLDoc.Proofs.ParseTree.Reading
import Mathlib.Data.List.Forall2

/-!
Texts that are read alike. Two tokens are alike if they have the same terminal and stand for the
same thing, wherever they are. What the parser does depends on the terminals only, so tokens that are
alike lead to derivations and trees that are alike.
-/
namespace GraphQLDoc

/-- The same text, or block strings with the same value. -/
def Token.Alike (t u : Token) : Prop :=
  t.terminal = u.terminal ∧
    (t.text = u.text ∨ t.terminal = .blockString ∧ Block.decode t.text = Block.decode u.text)

/-- The rules whose nodes hold the token of a name. -/
def Rule.ofNames : List Rule := [.name, .enumName, .fragmentName]

namespace ParseTree

def nameTags : List String := Rule.ofNames.map Rule.tag

/-- Trees that may differ in their spans and in how their block strings are written. -/
inductive Alike : ParseTree → ParseTree → Prop where
  | token (tag : String) {text text' : String} (span span' : Span)
      (h : text = text' ∨
        tag = "BLOCK_STRING" ∧ Block.decode text.toList = Block.decode text'.toList) :
      Alike (.token tag text span) (.token tag text' span')
  | rule (tag : String) (span span' : Option Span) {ts us : List ParseTree}
      (names : tag ∈ nameTags → ∀ t ∈ ts, t.tag ≠ "BLOCK_STRING") (h : List.Forall₂ Alike ts us) :
      Alike (.rule tag span ts) (.rule tag span' us)

theorem Alike.tag_eq {t u : ParseTree} (h : t.Alike u) : t.tag = u.tag := by
  cases h <;> rfl

end ParseTree

namespace Derivation

/-- Derivations by the same productions from tokens that are alike. -/
inductive Alike : Derivation → Derivation → Prop where
  | leaf {t u : Token} (h : t.Alike u) : Alike (.leaf t) (.leaf u)
  | node (p : Production) {ds es : List Derivation} (h : List.Forall₂ Alike ds es) :
      Alike (.node p ds) (.node p es)

mutual

theorem Alike.refl : (d : Derivation) → d.Alike d
  | .leaf _ => .leaf ⟨rfl, .inl rfl⟩
  | .node p ds => .node p (Alike.reflOfList ds)

theorem Alike.reflOfList : (ds : List Derivation) → List.Forall₂ Alike ds ds
  | [] => .nil
  | d :: ds => .cons (Alike.refl d) (Alike.reflOfList ds)

end

theorem mem_ofNames {r : Rule} (h : r.tag ∈ ParseTree.nameTags) : r ∈ Rule.ofNames := by
  revert h
  cases r <;> decide

/-- A node for a name derives one token, which is a name or a keyword. -/
theorem name_productions {r : Rule} {p : Production} (hr : r ∈ Rule.ofNames)
    (hp : p ∈ Nonterminal.productions (.rule r)) :
    ∃ t, p.body = [.terminal t] ∧ t.tag ≠ "BLOCK_STRING" := by
  have hall : ∀ r ∈ Rule.ofNames, ∀ p ∈ Nonterminal.productions (.rule r),
      ∃ t ∈ Terminal.all, p.body = [.terminal t] ∧ t.tag ≠ "BLOCK_STRING" := by
    decide
  obtain ⟨t, -, ht⟩ := hall r hr p hp
  exact ⟨t, ht⟩

theorem tag_of_name {r : Rule} {p : Production} {ds : List Derivation} {keepsWords : Bool}
    (hr : r.tag ∈ ParseTree.nameTags) (hp : p ∈ Nonterminal.productions (.rule r))
    (hbody : ds.map symbol = p.body) :
    ∀ t ∈ (treesOfList keepsWords ds).1, t.tag ≠ "BLOCK_STRING" := by
  obtain ⟨terminal, hterminal, htag⟩ := name_productions (mem_ofNames hr) hp
  obtain ⟨d, rfl, hd⟩ := List.map_eq_singleton_iff.mp (hbody.trans hterminal)
  cases d with
  | node q es => cases hd
  | leaf token =>
    obtain rfl := Symbol.terminal.inj hd
    intro t ht
    simp only [treesOfList, trees, List.append_nil, List.mem_ite_nil_right, List.mem_singleton] at ht
    rw [ht.2]
    exact htag

theorem Alike.leaf_trees {t u : Token} (h : t.Alike u) (keepsWords : Bool) :
    List.Forall₂ ParseTree.Alike ((Derivation.leaf t).trees keepsWords).1
      ((Derivation.leaf u).trees keepsWords).1 := by
  obtain ⟨terminal, text, span⟩ := t
  obtain ⟨terminal', text', span'⟩ := u
  obtain ⟨rfl, htext⟩ := h
  have hkept : Token.isKept keepsWords ⟨terminal, text', span'⟩ =
      Token.isKept keepsWords ⟨terminal, text, span⟩ := rfl
  simp only [Derivation.trees, hkept]
  split
  · refine .cons (.token _ _ _ ?_) .nil
    rcases htext with rfl | ⟨rfl, hvalue⟩
    · exact .inl rfl
    · exact .inr ⟨rfl, by simpa using hvalue⟩
  · exact .nil

mutual

/-- Derivations that are alike leave trees that are alike. -/
theorem Alike.trees (keepsWords : Bool) : (d : Derivation) → d.IsOf .full → ∀ e, d.Alike e →
    List.Forall₂ ParseTree.Alike (d.trees keepsWords).1 (e.trees keepsWords).1
  | .leaf t, _, _, h => by
    cases h with
    | leaf h => exact leaf_trees h keepsWords
  | .node p ds, ⟨hp, hbody, hall⟩, _, h => by
    cases h with
    | @node _ _ es h =>
      cases hhead : p.head with
      | rule r =>
        have hinner := Alike.treesOfList r.keepsWords ds hall es h
        simp only [Derivation.trees, hhead]
        split
        · exact hinner
        · rw [hhead] at hp
          exact .cons (.rule r.tag _ _ (fun hr => tag_of_name hr hp hbody) hinner) .nil
      | start s =>
        simp only [Derivation.trees, hhead]
        exact Alike.treesOfList false ds hall es h
      | repetition r =>
        simp only [Derivation.trees, hhead]
        exact Alike.treesOfList false ds hall es h

theorem Alike.treesOfList (keepsWords : Bool) : (ds : List Derivation) → AllOf .full ds →
    ∀ es, List.Forall₂ Alike ds es →
    List.Forall₂ ParseTree.Alike (treesOfList keepsWords ds).1 (treesOfList keepsWords es).1
  | [], _, _, .nil => .nil
  | d :: ds, ⟨hd, hds⟩, _ :: es, .cons h hs =>
    List.rel_append (Alike.trees keepsWords d hd _ h) (Alike.treesOfList keepsWords ds hds es hs)

end

end Derivation

/-- The parser holds pieces that are alike, in the same states. -/
def Frame.Alike (f g : Frame) : Prop := f.state = g.state ∧ f.derivation.Alike g.derivation

namespace Stack

structure Alike (s t : Stack) : Prop where
  start : s.start = t.start
  frames : List.Forall₂ Frame.Alike s.frames t.frames

namespace Alike

variable {s t : Stack}

theorem refl (s : Stack) : s.Alike s :=
  ⟨rfl, List.forall₂_same.mpr fun f _ => ⟨rfl, .refl f.derivation⟩⟩

theorem top_eq (h : s.Alike t) : s.top = t.top := by
  obtain ⟨start, fs⟩ := s
  obtain ⟨start', gs⟩ := t
  obtain ⟨rfl, hframes⟩ := h
  cases hframes with
  | nil => rfl
  | cons hf _ => exact congrArg Automaton.state hf.1

theorem wanted_eq (h : s.Alike t) : s.wanted = t.wanted := by
  rw [Stack.wanted, Stack.wanted, h.top_eq]

theorem push (h : s.Alike t) (q : Nat) {d e : Derivation} (hd : d.Alike e) :
    (s.push q d).Alike (t.push q e) :=
  ⟨h.start, .cons ⟨rfl, hd⟩ h.frames⟩

theorem drop (h : s.Alike t) (n : Nat) :
    Alike { s with frames := s.frames.drop n } { t with frames := t.frames.drop n } :=
  ⟨h.start, List.forall₂_drop n h.frames⟩

theorem reduce? (h : s.Alike t) (p : Production) :
    s.reduce? p = none ∧ t.reduce? p = none ∨
      ∃ s' t', s.reduce? p = some s' ∧ t.reduce? p = some t' ∧ s'.Alike t' := by
  have hbelow := h.drop p.body.length
  have hpieces : List.Forall₂ Derivation.Alike
      ((s.frames.take p.body.length).map (·.derivation)).reverse
      ((t.frames.take p.body.length).map (·.derivation)).reverse :=
    List.rel_reverse (List.rel_map (fun _ _ hf => hf.2) (List.forall₂_take _ h.frames))
  simp only [Stack.reduce?, h.frames.length_eq]
  split
  · exact .inl ⟨rfl, rfl⟩
  · rw [hbelow.top_eq]
    cases (Stack.top _).goto? _ with
    | none => exact .inl ⟨rfl, rfl⟩
    | some q => exact .inr ⟨_, _, rfl, rfl, hbelow.push q (.node p hpieces)⟩

theorem settle (l : Lookahead) (n : Nat) (h : s.Alike t) :
    (Stack.settle l n s).2 = (Stack.settle l n t).2 ∧
      (Stack.settle l n s).1.Alike (Stack.settle l n t).1 := by
  induction n generalizing s t with
  | zero => exact ⟨rfl, h⟩
  | succ n ih =>
    rw [Stack.settle, Stack.settle, h.top_eq]
    cases t.top.action? l with
    | none => exact ⟨rfl, h⟩
    | some action =>
      cases action with
      | shift q => exact ⟨rfl, h⟩
      | reduce p =>
        rcases h.reduce? p with ⟨hs, ht⟩ | ⟨s', t', hs, ht, h'⟩
        · simp only [hs, ht]
          exact ⟨trivial, h⟩
        · simp only [hs, ht]
          exact ih h'

theorem feed (h : s.Alike t) (l : Lookahead) :
    (s.feed l).2 = (t.feed l).2 ∧ (s.feed l).1.Alike (t.feed l).1 := by
  have hbound : s.reductionBound = t.reductionBound := by
    simp only [reductionBound, h.frames.length_eq]
  rw [Stack.feed, Stack.feed, hbound]
  exact h.settle l _

theorem read? (h : s.Alike t) {s' : Stack} {a b : Token} (hab : a.Alike b)
    (hread : s.read? a = some s') : ∃ t', t.read? b = some t' ∧ s'.Alike t' := by
  obtain ⟨settled, q, hfeed, rfl⟩ := read?_eq_some.mp hread
  obtain ⟨hq, hsettled⟩ := h.feed (some a.terminal)
  rw [hfeed] at hq hsettled
  refine ⟨_, read?_eq_some.mpr ⟨_, q, ?_, rfl⟩, hsettled.push q (.leaf hab)⟩
  rw [← hab.1]
  exact Prod.ext rfl hq.symm

theorem result? (h : s.Alike t) {d : Derivation} (hd : s.result? = some d) :
    ∃ e, t.result? = some e ∧ d.Alike e := by
  obtain ⟨start, fs⟩ := s
  obtain ⟨start', gs⟩ := t
  obtain ⟨rfl, hframes⟩ := h
  simp only [Stack.result?] at hd
  split at hd
  · rename_i q p ds
    obtain ⟨hhead, hd⟩ := Option.ite_none_right_eq_some.mp hd
    obtain rfl := Option.some.inj hd
    cases hframes with
    | cons hf hrest =>
      cases hrest
      rename_i g
      obtain ⟨q', e⟩ := g
      obtain ⟨-, hpieces⟩ := hf
      cases hpieces with
      | node _ hds => exact ⟨.node p _, if_pos hhead, .node p hds⟩
  · exact nomatch hd

end Alike

variable {d : Derivation} {s t : Stack} {i j : Input} {ts : List Token}

/-- If the inputs go on giving tokens that are alike, there is a run over the other input too. The
relation may depend on the tokens to come. -/
theorem Run.follow {R : Input → Input → List Token → Prop}
    (ends : ∀ {i j}, R i j [] → i.skipIgnored.text = [] → j.skipIgnored.text = [])
    (reads : ∀ {i j rest a ts wanted}, R i j (a :: ts) →
      i.skipIgnored.token? wanted = some (a, rest) →
      ∃ b rest', j.skipIgnored.token? wanted = some (b, rest') ∧ a.Alike b ∧ R rest rest' ts)
    (h : Run d s i ts) (hs : s.Alike t) (hi : R i j ts) :
    ∃ e us, Run e t j us ∧ d.Alike e := by
  induction h generalizing t j with
  | done hends result =>
    obtain ⟨e, he, hde⟩ := (hs.feed none).2.result? result
    exact ⟨e, [], .done (ends hi hends) he, hde⟩
  | next token read tail ih =>
    obtain ⟨b, rest', htoken, hab, hrest⟩ := reads hi token
    obtain ⟨t', hread, hs'⟩ := hs.read? hab read
    rw [hs.wanted_eq] at htoken
    obtain ⟨e, us, hrun, hde⟩ := ih hs' hrest
    exact ⟨e, b :: us, .next htoken hread hrun, hde⟩

end Stack

end GraphQLDoc
