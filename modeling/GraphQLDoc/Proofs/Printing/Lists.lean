import GraphQLDoc.Proofs.Printing.Walk

/-!
Lists that are printed are read back: between two marks, or with a mark in front of each item but
the first. A clause that would hold an empty list is left out, and the walk gives an empty list where
it finds no clause.
-/
namespace GraphQLDoc

variable {α : Type} {r : Rule} {convert : ParseTree → Converted α} {words : α → List Word}
  {ws : List Word} {xs : List α}

/-- The trees of the rule are converted to the values, one by one. -/
def Converts (r : Rule) (convert : ParseTree → Converted α) : List ParseTree → List α → Prop :=
  List.Forall₂ fun t x => t.tag ∈ r.tags ∧ convert t = .ok x

namespace Converts

variable {ts : List ParseTree}

theorem tagged (h : Converts r convert ts xs) : Tagged r.tags ts := by
  induction h with
  | nil => exact nofun
  | cons h _ ih => exact List.forall_mem_cons.mpr ⟨h.1, ih⟩

theorem mapM_eq_ok (h : Converts r convert ts xs) : ts.mapM convert = .ok xs := by
  induction h with
  | nil => rfl
  | cons h _ ih =>
    rw [List.mapM_cons, h.2, ih]
    rfl

end Converts

/-- Tokens of the words are what the clauses derive, which leave a tree of the rule for each value. -/
structure Lists (cs : List Clause) (r : Rule) (convert : ParseTree → Converted α) (ws : List Word)
    (xs : List α) : Prop where
  spelled : AreSpelled ws
  reads : ∀ w, w.map Token.word = ws →
    ∃ ts, Sequence .canonical false cs w ts ∧ Converts r convert ts xs

theorem areSpelled_flatMap (h : ∀ x ∈ xs, AreSpelled (words x)) : AreSpelled (xs.flatMap words) := by
  intro y hy
  obtain ⟨x, hx, hy⟩ := List.mem_flatMap.mp hy
  exact h x hx y hy

namespace Repetition

variable {l : Repetition}

/-- The separators in front of an item, as words. -/
def separatorWords (l : Repetition) : List Word := l.separator.toList.map Punctuator.spelled

theorem areSpelled_separatorWords : AreSpelled l.separatorWords := by
  intro x hx
  obtain ⟨p, -, rfl⟩ := List.mem_map.mp hx
  exact .punctuator p

theorem yields_separator {w : List Token} (hw : w.map Token.word = l.separatorWords) :
    Yields .canonical false (l.separator.toList.map fun p => .terminal (.punctuator p)) w [] := by
  have hlexemes := areSpelled_separatorWords.isLexeme hw
  unfold separatorWords at hw
  cases hp : l.separator with
  | none =>
    rw [hp] at hw
    exact Yields.nil_iff.mpr ⟨List.map_eq_nil_iff.mp hw, rfl⟩
  | some p =>
    rw [hp] at hw
    obtain ⟨token, rfl, htoken⟩ := List.map_eq_singleton_iff.mp hw
    have hterminal : token.terminal = .punctuator p := congrArg Prod.fst htoken
    refine Yields.terminal_iff.mpr ⟨token, hlexemes token (List.mem_singleton_self _), hterminal,
      rfl, ?_⟩
    simp [Derivation.Token.isKept, hterminal]

/-- Items that are read back one by one are read back as a list. -/
theorem exists_items (h : ∀ x ∈ xs, l.rule.ReadsBack convert (words x) (· = x)) {w : List Token}
    (hw : w.map Token.word = xs.flatMap fun x => l.separatorWords ++ words x) :
    ∃ ts, Items .canonical l w ts ∧ Converts l.rule convert ts xs := by
  induction xs generalizing w with
  | nil =>
    obtain rfl := List.map_eq_nil_iff.mp hw
    exact ⟨[], .nil, .nil⟩
  | cons x xs ih =>
    obtain ⟨hx, hxs⟩ := List.forall_mem_cons.mp h
    rw [List.flatMap_cons] at hw
    obtain ⟨w₁, w₂, rfl, hw₁, hw₂⟩ := List.map_eq_append_iff.mp hw
    obtain ⟨front, back, rfl, hfront, hback⟩ := List.map_eq_append_iff.mp hw₁
    obtain ⟨t, y, rfl, ht, hc⟩ := hx.reads back hback
    obtain ⟨ts, hitems, hconverts⟩ := ih hxs hw₂
    have helement : Yields .canonical false l.element (front ++ back) [t] :=
      Yields.element_iff.mpr ⟨front, back, t, rfl, rfl, ht, yields_separator hfront⟩
    exact ⟨t :: ts, .cons helement hitems, .cons ⟨ht.tag_mem, hc⟩ hconverts⟩

end Repetition

namespace Lists

variable {cs : List Clause} {c : Clause} {l : Repetition} {x : α}

theorem oneOrMore (hsep : l.separator = none) (hne : xs ≠ [])
    (h : ∀ x ∈ xs, l.rule.ReadsBack convert (words x) (· = x)) :
    Lists [.oneOrMore l] l.rule convert (xs.flatMap words) xs := by
  refine ⟨areSpelled_flatMap fun x hx => (h x hx).spelled, fun w hw => ?_⟩
  have hnone : l.separatorWords = [] := by rw [Repetition.separatorWords, hsep]; rfl
  obtain ⟨ts, hitems, hconverts⟩ := l.exists_items h (w := w) (by simpa [hnone] using hw)
  have hts : ts ≠ [] := by
    rintro rfl
    cases hconverts
    exact hne rfl
  refine ⟨ts, ?_, hconverts⟩
  exact ⟨w, [], ts, [], (List.append_nil w).symm, (List.append_nil ts).symm,
    Yields.repetition_iff.mpr ⟨hitems, hts⟩, rfl, rfl⟩

theorem zeroOrMore (hsep : l.separator = none)
    (h : ∀ x ∈ xs, l.rule.ReadsBack convert (words x) (· = x)) :
    Lists [.zeroOrMore l] l.rule convert (xs.flatMap words) xs := by
  cases xs with
  | nil =>
    refine ⟨.nil, fun w hw => ?_⟩
    obtain rfl := List.map_eq_nil_iff.mp hw
    exact ⟨[], ⟨[], [], [], [], rfl, rfl, .inl ⟨rfl, rfl⟩, rfl, rfl⟩, .nil⟩
  | cons x xs =>
    have hlists := oneOrMore hsep (List.cons_ne_nil x xs) h
    refine ⟨hlists.spelled, fun w hw => ?_⟩
    obtain ⟨ts, ⟨w₁, w₂, ts₁, ts₂, hw, hts, hyields, hnil⟩, hconverts⟩ := hlists.reads w hw
    exact ⟨ts, ⟨w₁, w₂, ts₁, ts₂, hw, hts, .inr hyields, hnil⟩, hconverts⟩

/-- One item, and others with a mark in front of each. -/
theorem separated {p : Punctuator} (hsep : l.separator = some p)
    (h : ∀ y ∈ x :: xs, l.rule.ReadsBack convert (words y) (· = y)) :
    Lists [.use l.rule, .zeroOrMore l] l.rule convert
      (words x ++ xs.flatMap fun y => p.spelled :: words y) (x :: xs) := by
  obtain ⟨hx, hxs⟩ := List.forall_mem_cons.mp h
  have hsome : l.separatorWords = [p.spelled] := by rw [Repetition.separatorWords, hsep]; rfl
  refine ⟨hx.spelled.append (areSpelled_flatMap fun y hy => .cons (.punctuator p) (hxs y hy).spelled),
    fun w hw => ?_⟩
  obtain ⟨w₁, w₂, rfl, hw₁, hw₂⟩ := List.map_eq_append_iff.mp hw
  obtain ⟨t, y, rfl, ht, hc⟩ := hx.reads w₁ hw₁
  obtain ⟨ts, hitems, hconverts⟩ := l.exists_items hxs (w := w₂) (by simpa [hsome] using hw₂)
  refine ⟨t :: ts, ⟨w₁, w₂, [t], ts, rfl, rfl, ht, w₂, [], ts, [], (List.append_nil w₂).symm,
    (List.append_nil ts).symm, ?_, rfl, rfl⟩, .cons ⟨ht.tag_mem, hc⟩ hconverts⟩
  cases ts with
  | nil =>
    obtain ⟨parts, rfl, hparts, -⟩ := hitems
    obtain rfl := List.map_eq_nil_iff.mp hparts.symm
    exact .inl ⟨rfl, rfl⟩
  | cons t ts => exact .inr (Yields.repetition_iff.mpr ⟨hitems, List.cons_ne_nil t ts⟩)

/-- A fixed word or a mark in front. -/
theorem skip {t : Terminal} {text : List Char} (hx : IsSpelling t text)
    (hdropped : (Clause.literal t).tags = []) (h : Lists cs r convert ws xs) :
    Lists (.literal t :: cs) r convert ((t, text) :: ws) xs := by
  refine ⟨.cons hx h.spelled, fun w hw => ?_⟩
  obtain ⟨token, w, rfl, htoken, hw⟩ := List.map_eq_cons_iff.mp hw
  obtain ⟨ts, hseq, hconverts⟩ := h.reads w hw
  have hyields := Clause.literal_yields hx hdropped htoken
  exact ⟨ts, ⟨[token], w, [], ts, rfl, rfl, hyields, hseq⟩, hconverts⟩

/-- A mark behind a single clause. -/
theorem closed {p : Punctuator} (h : Lists [c] r convert ws xs) :
    Lists [c, .mark p] r convert (ws ++ [p.spelled]) xs := by
  have hx : IsSpelling (.punctuator p) p.word.toList := .punctuator p
  refine ⟨h.spelled.append (.cons hx .nil), fun w hw => ?_⟩
  obtain ⟨front, back, rfl, hfront, hback⟩ := List.map_eq_append_iff.mp hw
  obtain ⟨token, rfl, htoken⟩ := List.map_eq_singleton_iff.mp hback
  obtain ⟨ts, ⟨w₁, w₂, ts₁, ts₂, rfl, rfl, hyields, rfl, rfl⟩, hconverts⟩ := h.reads front hfront
  have hmark := Clause.literal_yields hx rfl htoken
  refine ⟨_, ⟨w₁, [token], ts₁, [], ?_, rfl, hyields, [token], [], [], [], rfl, rfl, hmark, rfl, rfl⟩,
    hconverts⟩
  rw [List.append_nil]

theorem without (hc : c.Yields .canonical false [] []) (h : Lists cs r convert ws xs) :
    Lists (c :: cs) r convert ws xs := by
  refine ⟨h.spelled, fun w hw => ?_⟩
  obtain ⟨ts, hseq, hconverts⟩ := h.reads w hw
  exact ⟨ts, ⟨[], w, [], ts, rfl, rfl, hc, hseq⟩, hconverts⟩

/-- The node that holds the items. -/
theorem node {s : Rule} {w : List Token} (h : Lists cs s convert ws xs)
    (hw : w.map Token.word = ws) (hcs : cs ∈ r.alternatives) (hr : r.inlined = false)
    (hwords : r.keepsWords = false)
    (hlong : ∀ body ∈ Clause.expand cs, Automaton.isShorthand ⟨.rule r, body⟩ = false) :
    ∃ span ts, IsTreeOf .canonical r w (.rule r.tag span ts) ∧ Converts s convert ts xs := by
  obtain ⟨ts, hseq, hconverts⟩ := h.reads w hw
  rw [← hwords] at hseq
  obtain ⟨span, ht⟩ := (hseq.insideCanonical hcs hlong).isTreeOf hr
  exact ⟨span, ts, ht, hconverts⟩

/-- A block between two marks, which is not empty. -/
theorem block {p q : Punctuator} (hsep : l.separator = none) (hne : xs ≠ [])
    (h : ∀ x ∈ xs, l.rule.ReadsBack convert (words x) (· = x)) :
    Lists [.mark p, .oneOrMore l, .mark q] l.rule convert
      (Printing.block p q words xs) xs := by
  have hlists := (oneOrMore hsep hne h).closed (p := q)
  cases xs with
  | nil => exact absurd rfl hne
  | cons x xs => exact hlists.skip (.punctuator p) rfl

/-- Items behind a word with a mark between them. -/
theorem behind {t : Terminal} {text : List Char} {p : Punctuator} (hx : IsSpelling t text)
    (hdropped : (Clause.literal t).tags = []) (hsep : l.separator = some p) (hne : xs ≠ [])
    (h : ∀ x ∈ xs, l.rule.ReadsBack convert (words x) (· = x)) :
    Lists [.literal t, .optionalMark p, .use l.rule, .zeroOrMore l] l.rule convert
      (Printing.separated (t, text) p words xs) xs := by
  cases xs with
  | nil => exact absurd rfl hne
  | cons x xs => exact ((separated hsep h).without (c := .optionalMark p) (.inl ⟨rfl, rfl⟩)).skip hx hdropped

end Lists

namespace Clause.ReadsBack

variable {cs : List Clause} {s : Rule}

/-- A clause with a list. -/
theorem list (h : Lists cs s convert ws xs) (hcs : cs ∈ r.alternatives) (hr : r.inlined = false)
    (hs : s.inlined = false) (hwords : r.keepsWords = false)
    (hlong : ∀ body ∈ Clause.expand cs, Automaton.isShorthand ⟨.rule r, body⟩ = false) :
    (Clause.use r).ReadsBack (Walk.clause r.tag s.tag convert) ws (· = xs) := by
  refine ⟨h.spelled, fun w hw => ?_⟩
  obtain ⟨span, ts, ht, hconverts⟩ := h.node hw hcs hr hwords hlong
  refine ⟨[.rule r.tag span ts], xs, rfl, ht, ?_⟩
  have htags : (Clause.use r).tags = [r.tag] := Rule.tags_eq hr
  rw [htags]
  refine Walk.runs_clause (o := some _) nofun fun u hu => ?_
  obtain rfl := Option.some.inj hu
  have htagged := hconverts.tagged
  rw [Rule.tags_eq hs] at htagged
  refine ⟨span, ts, rfl, htagged, ?_⟩
  rw [hconverts.mapM_eq_ok]
  rfl

/-- A clause with a list, which is left out if the list is empty. -/
theorem list? {f : List α → List Word} (hnil : f [] = [])
    (h : xs ≠ [] → (Clause.use r).ReadsBack (Walk.clause r.tag s.tag convert) (f xs) (· = xs))
    (hr : r.inlined = false) :
    (Clause.optionalUse r).ReadsBack (Walk.clause r.tag s.tag convert) (f xs) (· = xs) := by
  cases xs with
  | cons x xs => exact (h (List.cons_ne_nil x xs)).optional
  | nil =>
    rw [hnil]
    refine absent rfl (.inl ⟨rfl, rfl⟩) ?_
    have htags : (Clause.optionalUse r).tags = [r.tag] := Rule.tags_eq hr
    rw [htags]
    exact Walk.runs_clause (o := none) (fun _ => rfl) nofun

variable {l : Repetition} {p q : Punctuator}

/-- A clause with a block. -/
theorem block (hne : xs ≠ []) (h : ∀ x ∈ xs, l.rule.ReadsBack convert (words x) (· = x))
    (hcs : [.mark p, .oneOrMore l, .mark q] ∈ r.alternatives)
    (hr : r.inlined = false) (hs : l.rule.inlined = false) (hwords : r.keepsWords = false)
    (hsep : l.separator = none)
    (hlong : ∀ body ∈ Clause.expand [.mark p, .oneOrMore l, .mark q],
      Automaton.isShorthand ⟨.rule r, body⟩ = false) :
    (Clause.use r).ReadsBack (Walk.clause r.tag l.rule.tag convert)
      (Printing.block p q words xs) (· = xs) :=
  list (Lists.block hsep hne h) hcs hr hs hwords hlong

/-- A clause with a block, which is left out if there are no items. -/
theorem block? (h : ∀ x ∈ xs, l.rule.ReadsBack convert (words x) (· = x))
    (hcs : [.mark p, .oneOrMore l, .mark q] ∈ r.alternatives)
    (hr : r.inlined = false) (hs : l.rule.inlined = false) (hwords : r.keepsWords = false)
    (hsep : l.separator = none)
    (hlong : ∀ body ∈ Clause.expand [.mark p, .oneOrMore l, .mark q],
      Automaton.isShorthand ⟨.rule r, body⟩ = false) :
    (Clause.optionalUse r).ReadsBack (Walk.clause r.tag l.rule.tag convert)
      (Printing.block p q words xs) (· = xs) :=
  list? (f := Printing.block p q words) rfl
    (fun hne => block hne h hcs hr hs hwords hsep hlong) hr

end Clause.ReadsBack

end GraphQLDoc
