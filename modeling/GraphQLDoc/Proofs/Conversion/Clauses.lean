import GraphQLDoc.Proofs.Conversion.Walk
import GraphQLDoc.Proofs.ParseTree.Shape

/-!
How walks follow the clauses of a rule. The tags that a clause can leave are read off the grammar,
so that whether one walk stops in front of the next is decided by computation.
-/
namespace GraphQLDoc

namespace Rule

/-- The rules whose nodes a rule stands for, at most `n` inlined rules down. -/
def shown : Nat → Rule → List Rule
  | 0, r => [r]
  | n + 1, r =>
    if r.inlined then
      r.alternatives.flatMap fun
        | [.one (.nonterminal (.rule s))] => shown n s
        | _ => []
    else [r]

/-- The tags of the trees of a rule. -/
def tags (r : Rule) : List String := (r.shown 3).map tag

theorem tags_eq {r : Rule} (hr : r.inlined = false) : r.tags = [r.tag] := by
  simp [tags, shown, hr]

end Rule

/-- The rule of the trees that a nonterminal leaves. -/
def Nonterminal.shown : Nonterminal → Rule
  | start s => s.rule
  | rule r => r
  | repetition r => r.rule

/-- The tags of the trees that a symbol leaves in a rule that drops its keywords. -/
def Symbol.tags : Symbol → List String
  | .terminal (.keyword _) | .terminal (.punctuator _) => []
  | .terminal t => [t.tag]
  | .nonterminal n => n.shown.tags

namespace Clause

/-- The tags of the trees that a clause leaves. -/
def tags (c : Clause) : List String := c.symbol.tags

/-- Whether a clause leaves trees of a rule only, and at least one of them. -/
def needs (r : Rule) : Clause → Bool
  | one (.nonterminal n) => n.shown = r
  | oneOrMore s => s.rule = r
  | _ => false

/-- Whether a clause leaves no trees but those of a rule. -/
def allows (r : Rule) (c : Clause) : Bool :=
  match c.symbol with
  | .nonterminal n => n.shown = r
  | s => s.tags.isEmpty

end Clause

/-- A rule whose nodes hold trees of another only. -/
def Rule.holdsOnly (r item : Rule) : Bool :=
  !r.keepsWords && r.alternatives.all fun cs => cs.all (Clause.allows item)

/-- A rule whose nodes hold a list of nodes of another, which is not empty. -/
def Rule.listsOnly (r item : Rule) : Bool :=
  r.holdsOnly item && !r.inlined && !item.inlined &&
    r.alternatives.all fun cs => cs.any (Clause.needs item)

theorem Rule.not_inlined_of_listsOnly {r item : Rule} (h : r.listsOnly item = true) :
    r.inlined = false ∧ item.inlined = false := by
  simp only [listsOnly, Bool.and_eq_true, Bool.not_eq_true'] at h
  exact ⟨h.1.1.2, h.1.2⟩

theorem Rule.holdsOnly_of_listsOnly {r item : Rule} (h : r.listsOnly item = true) :
    r.holdsOnly item = true := by
  simp only [listsOnly, Bool.and_eq_true] at h
  exact h.1.1.1

section

variable {g : Grammar} [g.IsUsual] {keepsWords : Bool} {w : List Token} {t : ParseTree} {ts : List ParseTree}

theorem Rule.mem_shown {r : Rule} {n : Nat} (h : IsTreeOf g r w t) (hn : r.inlining ≤ n) :
    ∃ s ∈ r.shown n, IsTreeOf g s w t ∧ t.tag = s.tag := by
  induction n generalizing r with
  | zero =>
    have hr : r.inlined = false := by
      cases hr : r.inlined with
      | false => rfl
      | true =>
        have hpos : 0 < r.inlining := by cases r <;> first | decide | cases hr
        omega
    have htree := h
    obtain ⟨span, inner, rfl, -⟩ := h.inside hr
    exact ⟨r, List.mem_singleton_self r, htree, rfl⟩
  | succ n ih =>
    cases hr : r.inlined with
    | false =>
      have htree := h
      obtain ⟨span, inner, rfl, -⟩ := h.inside hr
      exact ⟨r, by simp [shown, hr], htree, rfl⟩
    | true =>
      obtain ⟨-, rs, hrs, hless⟩ := Rule.alternatives_of_inlined hr
      obtain ⟨s, hs, htree⟩ := (IsTreeOf.of_inlined hr hrs).mp h
      obtain ⟨u, hu, htag⟩ := ih htree (by have := hless s hs; omega)
      refine ⟨u, ?_, htag⟩
      simp only [shown, hr, if_true, hrs, Clause.oneOf, List.mem_flatMap, List.mem_map]
      exact ⟨_, ⟨s, hs, rfl⟩, hu⟩

theorem IsTreeOf.tag_mem {r : Rule} (h : IsTreeOf g r w t) : t.tag ∈ r.tags := by
  obtain ⟨s, hs, -, htag⟩ := Rule.mem_shown h (show r.inlining ≤ 3 by cases r <;> decide)
  rw [htag]
  exact List.mem_map_of_mem hs

theorem IsTreeOf.tag_eq {r : Rule} (h : IsTreeOf g r w t) (hr : r.inlined = false) :
    t.tag = r.tag := by
  simpa [Rule.tags_eq hr] using h.tag_mem

theorem IsTreeOf.tag_ne {r : Rule} (h : IsTreeOf g r w t) {s : String}
    (hs : s ∉ r.tags) : t.tag ≠ s :=
  fun heq => hs (heq ▸ h.tag_mem)

omit [g.IsUsual] in
theorem Tagged.of_dropped (h : Tagged [] ts) : ts = [] :=
  List.eq_nil_iff_forall_not_mem.mpr fun t ht => by simpa using h t ht

theorem Yields.trees {n : Nonterminal} (h : Yields g keepsWords [.nonterminal n] w ts) :
    ts ≠ [] ∧ ∀ t ∈ ts, ∃ w, IsTreeOf g n.shown w t := by
  have hrule {r : Rule} {keepsWords : Bool}
      (h : Yields g keepsWords [.nonterminal (.rule r)] w ts) :
      ts ≠ [] ∧ ∀ t ∈ ts, ∃ w, IsTreeOf g r w t := by
    obtain ⟨t, rfl, htree⟩ := h.isTreeOf
    exact ⟨nofun, fun u hu => ⟨w, List.mem_singleton.mp hu ▸ htree⟩⟩
  cases n with
  | rule r => exact hrule h
  | repetition r =>
    obtain ⟨⟨parts, -, rfl, hparts⟩, hne⟩ := Yields.repetition_iff.mp h
    refine ⟨hne, fun u hu => ?_⟩
    obtain ⟨p, hp, rfl⟩ := List.mem_map.mp hu
    obtain ⟨front, back, t, -, ht, htree, -⟩ := Yields.element_iff.mp (hparts p hp)
    exact ⟨back, List.singleton_inj.mp ht ▸ htree⟩
  | start s =>
    obtain ⟨p, children, hp, ⟨hmem, hbody, hall⟩, rfl, rfl⟩ := Yields.nonterminal_iff.mp h
    rw [hp] at hmem
    obtain rfl : p = s.production := List.mem_singleton.mp (Grammar.IsUsual.subset hmem)
    simp only [Derivation.trees, hp]
    exact hrule ⟨children, hall, hbody, rfl, rfl⟩

theorem Yields.tagged {s : Symbol} (h : Yields g false [s] w ts) : Tagged s.tags ts := by
  cases s with
  | terminal t =>
    obtain ⟨token, -, rfl, -, rfl⟩ := Yields.terminal_iff.mp h
    intro u hu
    unfold Derivation.Token.isKept at hu
    cases hterminal : token.terminal <;> simp_all [ParseTree.tag, Token.leaf, Symbol.tags]
  | nonterminal n =>
    intro t ht
    obtain ⟨w, htree⟩ := h.trees.2 t ht
    exact htree.tag_mem

omit [g.IsUsual] in
theorem Clause.Yields.symbol {c : Clause} (h : c.Yields g keepsWords w ts) :
    ts = [] ∨ GraphQLDoc.Yields g keepsWords [c.symbol] w ts := by
  cases c with
  | one s => exact .inr h
  | optional s => exact h.imp_left (·.2)
  | oneOrMore r => exact .inr h
  | zeroOrMore r => exact h.imp_left (·.2)

theorem Clause.Yields.tagged {c : Clause} (h : c.Yields g false w ts) : Tagged c.tags ts := by
  rcases h.symbol with rfl | h
  · exact nofun
  · exact h.tagged

theorem Clause.Yields.allowed {c : Clause} {r : Rule} (h : c.Yields g false w ts)
    (hc : c.allows r = true) : ∀ t ∈ ts, ∃ w, IsTreeOf g r w t := by
  rcases h.symbol with rfl | hyields
  · exact nofun
  · unfold Clause.allows at hc
    split at hc
    · rename_i n hn
      rw [hn] at hyields
      exact of_decide_eq_true hc ▸ hyields.trees.2
    · intro t ht
      have htag := h.tagged t ht
      simp [Clause.tags, List.isEmpty_iff.mp hc] at htag

theorem Clause.Yields.needed {c : Clause} {r : Rule} (h : c.Yields g keepsWords w ts)
    (hc : c.needs r = true) : ts ≠ [] := by
  unfold Clause.needs at hc
  split at hc
  · exact (GraphQLDoc.Yields.trees h).1
  · exact (GraphQLDoc.Yields.trees h).1
  · exact nomatch hc

omit [g.IsUsual] in
theorem Sequence.mem_trees {cs : List Clause} (h : Sequence g keepsWords cs w ts) :
    (∀ t ∈ ts, ∃ c ∈ cs, ∃ w₁ ts₁, c.Yields g keepsWords w₁ ts₁ ∧ t ∈ ts₁) ∧
      ∀ c ∈ cs, ∃ w₁ ts₁, c.Yields g keepsWords w₁ ts₁ ∧ ∀ t ∈ ts₁, t ∈ ts := by
  induction cs generalizing w ts with
  | nil =>
    obtain ⟨-, rfl⟩ := h
    exact ⟨nofun, nofun⟩
  | cons c cs ih =>
    obtain ⟨w₁, w₂, ts₁, ts₂, -, rfl, h₁, h₂⟩ := h
    obtain ⟨hfrom, hto⟩ := ih h₂
    constructor
    · intro t ht
      rcases List.mem_append.mp ht with ht | ht
      · exact ⟨c, List.mem_cons_self, w₁, ts₁, h₁, ht⟩
      · obtain ⟨d, hd, h⟩ := hfrom t ht
        exact ⟨d, List.mem_cons_of_mem c hd, h⟩
    · refine List.forall_mem_cons.mpr ⟨⟨w₁, ts₁, h₁, fun t => List.mem_append_left _⟩, fun d hd => ?_⟩
      obtain ⟨w₃, ts₃, h₃, hsub⟩ := hto d hd
      exact ⟨w₃, ts₃, h₃, fun t ht => List.mem_append_right _ (hsub t ht)⟩

theorem Inside.held {r i : Rule} (hr : r.holdsOnly i = true) (h : Inside g r w ts) :
    ∀ t ∈ ts, ∃ w, IsTreeOf g i w t := by
  simp only [Rule.holdsOnly, Bool.and_eq_true, Bool.not_eq_true', List.all_eq_true] at hr
  obtain ⟨hwords, hall⟩ := hr
  obtain ⟨cs, hcs, hsequence⟩ := h.sequence
  rw [hwords] at hsequence
  intro t ht
  obtain ⟨d, hd, w₁, ts₁, hyields, ht⟩ := hsequence.mem_trees.1 t ht
  exact hyields.allowed (hall cs hcs d hd) t ht

theorem Inside.listed {r item : Rule} (hr : r.listsOnly item = true) (h : Inside g r w ts) :
    ts ≠ [] := by
  simp only [Rule.listsOnly, Bool.and_eq_true, List.all_eq_true, List.any_eq_true] at hr
  obtain ⟨cs, hcs, hsequence⟩ := h.sequence
  obtain ⟨c, hc, hneeded⟩ := hr.2 cs hcs
  rintro rfl
  obtain ⟨w₁, ts₁, hyields, hsub⟩ := hsequence.mem_trees.2 c hc
  exact hyields.needed hneeded (List.eq_nil_iff_forall_not_mem.mpr fun t ht => nomatch hsub t ht)

omit [g.IsUsual] in
theorem Sequence.nil (h : Sequence g keepsWords [] w ts) : ts = [] := h.2

theorem Sequence.use {r : Rule} {cs : List Clause}
    (h : Sequence g keepsWords (.use r :: cs) w ts) : ∃ w₁ w₂ t ts', ts = t :: ts' ∧
      IsTreeOf g r w₁ t ∧ Sequence g keepsWords cs w₂ ts' := by
  obtain ⟨w₁, w₂, ts₁, ts₂, -, rfl, h₁, h₂⟩ := h
  obtain ⟨t, rfl, ht⟩ := GraphQLDoc.Yields.isTreeOf h₁
  exact ⟨w₁, w₂, t, ts₂, rfl, ht, h₂⟩

theorem Sequence.skip {c : Clause} {cs : List Clause} (h : Sequence g false (c :: cs) w ts)
    (hc : c.tags = []) : ∃ w', Sequence g false cs w' ts := by
  obtain ⟨w₁, w₂, ts₁, ts₂, -, rfl, h₁, h₂⟩ := h
  have htagged := h₁.tagged
  rw [hc] at htagged
  obtain rfl := htagged.of_dropped
  exact ⟨w₂, h₂⟩

theorem Sequence.tagged {cs : List Clause} (h : Sequence g false cs w ts) :
    Tagged (cs.flatMap Clause.tags) ts := by
  induction cs generalizing w ts with
  | nil =>
    obtain ⟨-, rfl⟩ := h
    exact nofun
  | cons c cs ih =>
    obtain ⟨w₁, w₂, ts₁, ts₂, -, rfl, h₁, h₂⟩ := h
    exact h₁.tagged.append (ih h₂)

variable {E : ConversionError → Prop} {α β : Type} {a : Walk α} {k : α → Walk β}
  {c : Clause} {cs : List Clause} {P : List ParseTree → α → Prop} {Q : List ParseTree → β → Prop}

/-- The walk reads whatever the clause leaves. What it gives may depend on the trees. -/
def Clause.Feeds (g : Grammar) (E : ConversionError → Prop) (c : Clause) (a : Walk α)
    (P : List ParseTree → α → Prop) : Prop :=
  ∀ w ts, c.Yields g false w ts → a.Runs E c.tags ts (P ts)

/-- The walk reads whatever the clauses leave, and that is all. -/
def Feeds (g : Grammar) (E : ConversionError → Prop) (cs : List Clause) (a : Walk α)
    (P : List ParseTree → α → Prop) : Prop :=
  ∀ w ts, Sequence g false cs w ts → a.Ends E ts (P ts)

namespace Feeds

omit [g.IsUsual] in
theorem nil {b : β} (h : Q [] b) : Feeds g E [] (pure b) Q := by
  rintro w ts ⟨-, rfl⟩
  exact .pure h

theorem cons (hd : ∀ s ∈ cs.flatMap Clause.tags, s ∉ c.tags) (h : c.Feeds g E a P)
    (hk : ∀ ts x, P ts x → Feeds g E cs (k x) fun ts' => Q (ts ++ ts')) :
    Feeds g E (c :: cs) (a >>= k) Q := by
  rintro w ts ⟨w₁, w₂, ts₁, ts₂, -, rfl, h₁, h₂⟩
  exact (h w₁ ts₁ h₁).bind (fun x hx => hk ts₁ x hx w₂ ts₂ h₂) fun t ht => hd _ (h₂.tagged t ht)

/-- A clause that leaves no tree. -/
theorem skip (hc : c.tags = []) (h : Feeds g E cs a P) : Feeds g E (c :: cs) a P :=
  fun _ ts hts =>
    let ⟨w, hw⟩ := hts.skip hc
    h w ts hw

omit [g.IsUsual] in
/-- A clause that has been left out. -/
theorem absent (hc : c.Yields g false [] []) (h : Feeds g E (c :: cs) a P) :
    Feeds g E cs a P :=
  fun w ts hts => h w ts ⟨[], w, [], ts, rfl, rfl, hc, hts⟩

omit [g.IsUsual] in
theorem lift {r : Converted α} {P : α → Prop} (h : Gives E P r)
    (hk : ∀ x, P x → Feeds g E cs (k x) Q) : Feeds g E cs (Walk.lift r >>= k) Q :=
  fun w ts hs => .lift h fun x hx => hk x hx w ts hs

omit [g.IsUsual] in
theorem lifted {r : Converted α} (h : Gives E (P []) r) : Feeds g E [] (Walk.lift r) P := by
  rintro w ts ⟨-, rfl⟩
  exact .lifted h

omit [g.IsUsual] in
theorem mono {P' : List ParseTree → α → Prop} (h : Feeds g E cs a P)
    (hP : ∀ ts x, P ts x → P' ts x) : Feeds g E cs a P' :=
  fun w ts hts => (h w ts hts).mono (hP ts)

omit [g.IsUsual] in
/-- What is done behind the walk leaves the children alone. -/
theorem andThen {P' : β → Prop} (h : Feeds g E cs a P)
    (hk : ∀ ts x c, P ts x → Reaches E P' c (k x c)) :
    Feeds g E cs (a >>= k) fun _ => P' :=
  fun w ts hts c hc => (h w ts hts c hc).step fun x hx => hk ts x _ hx

/-- A walk whose first clause is the last that leaves trees. -/
theorem last (hcs : cs.flatMap Clause.tags = []) (h : c.Feeds g E a P) :
    Feeds g E (c :: cs) a P := by
  rintro w ts ⟨w₁, w₂, ts₁, ts₂, -, rfl, h₁, h₂⟩
  have htagged := h₂.tagged
  rw [hcs] at htagged
  obtain rfl := htagged.of_dropped
  rw [List.append_nil]
  exact (h w₁ ts₁ h₁).ends

end Feeds

namespace Clause

omit [g.IsUsual] in
theorem Feeds.mono {P' : List ParseTree → α → Prop} (h : c.Feeds g E a P)
    (hP : ∀ ts x, P ts x → P' ts x) : c.Feeds g E a P' :=
  fun w ts hts => (h w ts hts).mono (hP ts)

theorem feeds_use {r : Rule} (h : ∀ w t, IsTreeOf g r w t → a.Runs E r.tags [t] (P [t])) :
    (use r).Feeds g E a P := by
  intro w ts hts
  obtain ⟨t, rfl, htree⟩ := GraphQLDoc.Yields.isTreeOf hts
  exact h w t htree

theorem feeds_optionalUse {r : Rule} (hnone : a.Runs E r.tags [] (P []))
    (h : ∀ w t, IsTreeOf g r w t → a.Runs E r.tags [t] (P [t])) :
    (optionalUse r).Feeds g E a P := by
  rintro w ts (⟨-, rfl⟩ | hts)
  · exact hnone
  · exact feeds_use h w ts hts

/-- The next child is the tree of the rule. -/
theorem feeds_next {r : Rule} : (use r).Feeds g E (Walk.next r.tags)
    fun ts t => ts = [t] ∧ ∃ w, IsTreeOf g r w t :=
  feeds_use fun w _ h => (Walk.runs_next h.tag_mem).mono fun _ hu => ⟨by rw [hu], w, hu ▸ h⟩

/-- The next child is the tree of the rule, if it is there. -/
theorem feeds_optional {r : Rule} (hr : r.inlined = false) :
    (optionalUse r).Feeds g E (Walk.optional r.tag)
      fun ts o => ts = o.toList ∧ ∀ t ∈ o, ∃ w, IsTreeOf g r w t := by
  have htags := Rule.tags_eq hr
  refine feeds_optionalUse ?_ fun w t ht => ?_
  · rw [htags]
    exact (Walk.runs_optional (o := none) nofun).mono fun o ho => ho ▸ ⟨rfl, nofun⟩
  · rw [htags]
    refine (Walk.runs_optional (o := some t) fun u hu => ?_).mono fun o ho => ho ▸ ⟨rfl, ?_⟩
    · exact Option.some.inj hu ▸ ht.tag_eq hr
    · exact fun u hu => Option.some.inj hu ▸ ⟨w, ht⟩

omit [g.IsUsual] in
/-- The next child is the token of the terminal. -/
theorem feeds_literal {t : Terminal} {wanted : List String} (ht : t.tag ∈ wanted)
    (hkept : ∀ token : Token, token.terminal = t →
      Derivation.Token.isKept false token = true) : (literal t).Feeds g E (Walk.next wanted)
      fun ts u => ts = [u] ∧ ∃ token, g.lexeme token ∧ token.terminal = t ∧ u = token.leaf := by
  intro w ts hts
  obtain ⟨token, htoken, hterminal, -, rfl⟩ := GraphQLDoc.Yields.terminal_iff.mp hts
  have htag : token.leaf.tag ∈ wanted := by simpa [Token.leaf, ParseTree.tag, hterminal] using ht
  rw [hkept token hterminal, if_pos rfl]
  exact (Walk.runs_next htag).mono fun u hu => ⟨by rw [hu], token, htoken, hterminal, hu⟩

/-- All nodes of a repetition. -/
theorem feeds_repeated {r : Repetition} : (oneOrMore r).Feeds g E (Walk.repeated r.rule.tags)
    fun ts us => us = ts ∧ ts ≠ [] ∧ ∀ t ∈ ts, ∃ w, IsTreeOf g r.rule w t := by
  intro w ts hts
  have htrees := GraphQLDoc.Yields.trees hts
  exact (Walk.runs_repeated hts.tagged).mono fun us hus => ⟨hus, htrees⟩

theorem feeds_repeated? {r : Repetition} : (zeroOrMore r).Feeds g E (Walk.repeated r.rule.tags)
    fun ts us => us = ts ∧ ∀ t ∈ ts, ∃ w, IsTreeOf g r.rule w t := by
  rintro w ts (⟨-, rfl⟩ | hts)
  · have hnone : Tagged r.rule.tags [] := nofun
    exact (Walk.runs_repeated hnone).mono fun us hus => ⟨hus, nofun⟩
  · exact (feeds_repeated w ts hts).mono fun us hus => ⟨hus.1, hus.2.2⟩

/-- The conversion of a child of the rule, which would also do without one. -/
theorem feeds_node {r : Rule} {convert : ParseTree → Converted α} {P : α → Prop}
    (hr : r.inlined = false) (h : ∀ w t, IsTreeOf g r w t → Gives E P (convert t)) :
    (use r).Feeds g E (do
      match ← Walk.optional r.tag with
      | none => return none
      | some t =>
        let x ← Walk.lift (convert t)
        return some x) fun _ o => ∃ x, o = some x ∧ P x := by
  refine feeds_use fun w t ht => ?_
  rw [Rule.tags_eq hr]
  refine Walk.runs_node? (o := some t) nofun fun u hu => ?_
  obtain rfl := Option.some.inj hu
  exact ⟨ht.tag_eq hr, (h w t ht).mono fun x hx => ⟨x, rfl, hx⟩⟩

theorem feeds_node? {r : Rule} {convert : ParseTree → Converted α} {P : α → Prop}
    (hr : r.inlined = false) (h : ∀ w t, IsTreeOf g r w t → Gives E P (convert t)) :
    (optionalUse r).Feeds g E (do
      match ← Walk.optional r.tag with
      | none => return none
      | some t =>
        let x ← Walk.lift (convert t)
        return some x) fun _ o => ∀ x ∈ o, P x := by
  rintro w ts (⟨-, rfl⟩ | hts)
  · have htags : (optionalUse r).tags = [r.tag] := Rule.tags_eq hr
    rw [htags]
    exact Walk.runs_node? (o := none) (fun _ => nofun) nofun
  · refine (feeds_node hr h w ts hts).mono fun o ⟨x, ho, hx⟩ y hy => ?_
    obtain rfl := Option.some.inj (ho.symm.trans hy)
    exact hx

/-- A clause with a list, each item of which is converted. -/
theorem feeds_list {r i : Rule} {convert : ParseTree → Converted α} {P : α → Prop}
    (hr : r.listsOnly i = true) (h : ∀ w t, IsTreeOf g i w t → Gives E P (convert t)) :
    (use r).Feeds g E (Walk.clause r.tag i.tag convert)
      fun _ xs => xs ≠ [] ∧ ∀ x ∈ xs, P x := by
  obtain ⟨hinlined, hitem⟩ := Rule.not_inlined_of_listsOnly hr
  refine feeds_use fun w t ht => ?_
  rw [Rule.tags_eq hinlined]
  refine Walk.runs_clause (o := some t) nofun fun u hu => ?_
  obtain rfl := Option.some.inj hu
  obtain ⟨span, inner, rfl, hinner⟩ := ht.inside hinlined
  have hne := hinner.listed hr
  have htrees := hinner.held (Rule.holdsOnly_of_listsOnly hr)
  refine ⟨span, inner, rfl, fun t ht => ?_, ?_⟩
  · obtain ⟨w, htree⟩ := htrees t ht
    exact List.mem_singleton.mpr (htree.tag_eq hitem)
  · have hconvert : Gives E (fun xs => xs.length = inner.length ∧ ∀ x ∈ xs, P x)
        (inner.mapM convert) := Gives.mapM fun t ht =>
      let ⟨w, htree⟩ := htrees t ht
      h w t htree
    refine hconvert.mono fun xs hxs => ⟨?_, hxs.2⟩
    rintro rfl
    exact hne (List.length_eq_zero_iff.mp hxs.1.symm)

theorem feeds_list? {r i : Rule} {convert : ParseTree → Converted α} {P : α → Prop}
    (hr : r.listsOnly i = true) (h : ∀ w t, IsTreeOf g i w t → Gives E P (convert t)) :
    (optionalUse r).Feeds g E (Walk.clause r.tag i.tag convert)
      fun _ xs => ∀ x ∈ xs, P x := by
  rintro w ts (⟨-, rfl⟩ | hts)
  · have htags : (optionalUse r).tags = [r.tag] := Rule.tags_eq (Rule.not_inlined_of_listsOnly hr).1
    rw [htags]
    exact Walk.runs_clause (o := none) (fun _ => nofun) nofun
  · exact (feeds_list hr h w ts hts).mono fun xs hxs => hxs.2

end Clause

omit [g.IsUsual] in
/-- A walk over all children, which ends behind them. -/
theorem Feeds.reaches (rule : String) (span : Option Span) (h : Feeds g E cs a P)
    (hts : Sequence g false cs w ts) :
    Reaches E (P ts) ⟨rule, span, ts.length, []⟩ (a ⟨rule, span, 0, ts⟩) := by
  simpa [Cursor.past] using h w ts hts ⟨rule, span, 0, ts⟩ rfl

/-- A node with its children read by one walk. -/
theorem gives_node {r : Rule} {P : α → Prop} (h : IsTreeOf g r w t) (hr : r.inlined = false)
    (hwords : r.keepsWords = false) (hfeeds : ∀ cs ∈ r.alternatives, Feeds g E cs a fun _ => P) :
    Gives E P (t.whole r.tag a) := by
  obtain ⟨span, inner, rfl, hinner⟩ := h.inside hr
  obtain ⟨cs, hcs, hsequence⟩ := hinner.sequence
  rw [hwords] at hsequence
  exact gives_whole (hfeeds cs hcs w inner hsequence)

end

end GraphQLDoc
