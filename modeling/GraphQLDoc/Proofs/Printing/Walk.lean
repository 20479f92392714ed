import GraphQLDoc.Proofs.Printing.Basic

/-!
What is printed is read back. Whichever tokens have the printed words, they form a tree of the
grammar without shorthands, and what walks over its children ends with the value that was printed.
The lemmas follow the clauses of a rule, as those on what walks read do, but build the tree.
-/
namespace GraphQLDoc

/-- The words are spelled as their terminals are. -/
def AreSpelled (ws : List Word) : Prop := ∀ x ∈ ws, IsSpelling x.1 x.2

namespace AreSpelled

theorem nil : AreSpelled [] := nofun

theorem cons {x : Word} {ws : List Word} (hx : IsSpelling x.1 x.2) (h : AreSpelled ws) :
    AreSpelled (x :: ws) :=
  List.forall_mem_cons.mpr ⟨hx, h⟩

theorem append {ws ws' : List Word} (h : AreSpelled ws) (h' : AreSpelled ws') :
    AreSpelled (ws ++ ws') :=
  List.forall_mem_append.mpr ⟨h, h'⟩

/-- Tokens of words that are spelled are lexemes. -/
theorem isLexeme {ws : List Word} (h : AreSpelled ws) {w : List Token}
    (hw : w.map Token.word = ws) : ∀ t ∈ w, t.IsLexeme := by
  intro t ht
  refine Token.isLexeme_of_spelling (h t.word ?_)
  rw [← hw]
  exact List.mem_map_of_mem ht

end AreSpelled

variable {α β : Type} {ws ws' : List Word} {P : α → Prop} {Q : β → Prop}

/-- Tokens of the words form a tree of the rule, which is converted to such a value. -/
structure Rule.ReadsBack (r : Rule) (convert : ParseTree → Converted α) (ws : List Word)
    (P : α → Prop) : Prop where
  spelled : AreSpelled ws
  reads : ∀ w, w.map Token.word = ws →
    ∃ t x, P x ∧ IsTreeOf .canonical r w t ∧ convert t = .ok x

/-- Tokens of the words are what the clause derives, and the walk reads the trees that it leaves. -/
structure Clause.ReadsBack (c : Clause) (a : Walk α) (ws : List Word) (P : α → Prop) : Prop where
  spelled : AreSpelled ws
  reads : ∀ w, w.map Token.word = ws → ∃ ts x, P x ∧ c.Yields .canonical false w ts ∧
    a.Runs (fun _ => False) c.tags ts (· = x)

/-- Tokens of the words are what the clauses derive, and the walk reads all trees that they leave. -/
structure ReadsBack (cs : List Clause) (a : Walk α) (ws : List Word) (P : α → Prop) : Prop where
  spelled : AreSpelled ws
  reads : ∀ w, w.map Token.word = ws → ∃ ts x, P x ∧ Sequence .canonical false cs w ts ∧
    a.Ends (fun _ => False) ts (· = x)

namespace Rule.ReadsBack

variable {r : Rule} {convert : ParseTree → Converted α}

theorem congr {convert' : ParseTree → Converted α} (h : r.ReadsBack convert ws P)
    (hconvert : ∀ w t, IsTreeOf .canonical r w t → convert' t = convert t) :
    r.ReadsBack convert' ws P := by
  refine ⟨h.spelled, fun w hw => ?_⟩
  obtain ⟨t, x, hx, ht, hc⟩ := h.reads w hw
  exact ⟨t, x, hx, ht, (hconvert w t ht).trans hc⟩

/-- A conversion that gives whatever another one gives. -/
theorem of_ok {convert' : ParseTree → Converted α} (h : r.ReadsBack convert ws P)
    (hconvert : ∀ t x, convert t = .ok x → convert' t = .ok x) : r.ReadsBack convert' ws P := by
  refine ⟨h.spelled, fun w hw => ?_⟩
  obtain ⟨t, x, hx, ht, hc⟩ := h.reads w hw
  exact ⟨t, x, hx, ht, hconvert t x hc⟩

/-- There are tokens of the words, so that some value is read. -/
theorem exists_value (h : r.ReadsBack convert ws P) : ∃ x, P x := by
  obtain ⟨-, x, hx, -⟩ := h.reads _ (map_word_tokensFrom .start ws)
  exact ⟨x, hx⟩

/-- A conversion that goes on with what was read. -/
theorem bind {k : ParseTree → α → Converted β} (h : r.ReadsBack convert ws P)
    (hk : ∀ t x, P x → ∃ y, Q y ∧ k t x = .ok y) :
    r.ReadsBack (fun t => convert t >>= k t) ws Q := by
  refine ⟨h.spelled, fun w hw => ?_⟩
  obtain ⟨t, x, hx, ht, hc⟩ := h.reads w hw
  obtain ⟨y, hy, hky⟩ := hk t x hx
  exact ⟨t, y, hy, ht, by rw [hc]; exact hky⟩

theorem map {f : α → β} (h : r.ReadsBack convert ws P) (hf : ∀ x, P x → Q (f x)) :
    r.ReadsBack (fun t => (convert t).map f) ws Q := by
  refine ⟨h.spelled, fun w hw => ?_⟩
  obtain ⟨t, x, hx, ht, hc⟩ := h.reads w hw
  exact ⟨t, f x, hf x hx, ht, by rw [hc]; rfl⟩

/-- A rule without nodes of its own stands for others. -/
theorem inlined {s : Rule} {rs : List Rule} (h : s.ReadsBack convert ws P) (hs : s ∈ rs)
    (hr : r.inlined = true) (hrs : r.alternatives = Clause.oneOf rs) :
    r.ReadsBack convert ws P := by
  refine ⟨h.spelled, fun w hw => ?_⟩
  obtain ⟨t, x, hx, ht, hc⟩ := h.reads w hw
  exact ⟨t, x, hx, (IsTreeOf.of_inlined hr hrs).mpr ⟨s, hs, ht⟩, hc⟩

end Rule.ReadsBack

/-- The names of a node's fields pass their check. -/
theorem checked_eq_ok {fields : List (String × String)} {x : α}
    (h : ∀ f ∈ fields, isValidName f.2 = true) :
    (do checkNames fields; return x : Converted α) = .ok x := by
  have hcheck : Gives (fun _ => False) (· = ()) (checkNames fields) := gives_checkNames rfl h
  rw [hcheck.eq_ok]
  rfl

namespace Clause.ReadsBack

variable {c : Clause} {a : Walk α} {r : Rule}

theorem mono {P' : α → Prop} (h : c.ReadsBack a ws P) (hP : ∀ x, P x → P' x) :
    c.ReadsBack a ws P' := by
  refine ⟨h.spelled, fun w hw => ?_⟩
  obtain ⟨ts, x, hx, hyields, hruns⟩ := h.reads w hw
  exact ⟨ts, x, hP x hx, hyields, hruns⟩

theorem exists_value (h : c.ReadsBack a ws P) : ∃ x, P x := by
  obtain ⟨-, x, hx, -⟩ := h.reads _ (map_word_tokensFrom .start ws)
  exact ⟨x, hx⟩

/-- A clause that is left out. -/
theorem absent {x : α} (hx : P x) (hc : c.Yields .canonical false [] [])
    (h : a.Runs (fun _ => False) c.tags [] (· = x)) : c.ReadsBack a [] P := by
  refine ⟨.nil, fun w hw => ?_⟩
  obtain rfl := List.map_eq_nil_iff.mp hw
  exact ⟨[], x, hx, hc, h⟩

/-- A clause that is one tree of a rule. -/
theorem use {convert : ParseTree → Converted β} (h : r.ReadsBack convert ws Q)
    (ha : ∀ w t y, IsTreeOf .canonical r w t → convert t = .ok y → Q y →
      ∃ x, P x ∧ a.Runs (fun _ => False) r.tags [t] (· = x)) :
    (Clause.use r).ReadsBack a ws P := by
  refine ⟨h.spelled, fun w hw => ?_⟩
  obtain ⟨t, y, hy, ht, hc⟩ := h.reads w hw
  obtain ⟨x, hx, hruns⟩ := ha w t y ht hc hy
  exact ⟨[t], x, hx, ht, hruns⟩

/-- A walk that converts the next child. -/
theorem next {convert : ParseTree → Converted α} (h : r.ReadsBack convert ws P) :
    (Clause.use r).ReadsBack (do
      let t ← Walk.next r.tags
      Walk.lift (convert t)) ws P := by
  refine use h fun w t x ht hc hx => ⟨x, hx, (Walk.runs_next ht.tag_mem).andThen fun u c hu => .lift ?_⟩
  rw [hu, hc]
  rfl

/-- A clause that may be left out is there. -/
theorem optional (h : (Clause.use r).ReadsBack a ws P) : (optionalUse r).ReadsBack a ws P := by
  refine ⟨h.spelled, fun w hw => ?_⟩
  obtain ⟨ts, x, hx, hyields, hruns⟩ := h.reads w hw
  exact ⟨ts, x, hx, .inr hyields, hruns⟩

/-- The conversion of a child, for a walk that would also do without one. -/
theorem node {convert : ParseTree → Converted α} (hr : r.inlined = false)
    (h : r.ReadsBack convert ws P) :
    (Clause.use r).ReadsBack (do
      match ← Walk.optional r.tag with
      | none => return none
      | some t =>
        let x ← Walk.lift (convert t)
        return some x) ws fun o => ∃ x, o = some x ∧ P x := by
  refine use h fun w t x ht hc hx => ⟨some x, ⟨x, rfl, hx⟩, ?_⟩
  rw [Rule.tags_eq hr]
  refine Walk.runs_node? (o := some t) nofun fun u hu => ?_
  obtain rfl := Option.some.inj hu
  refine ⟨ht.tag_eq hr, ?_⟩
  rw [hc]
  rfl

theorem node? {convert : ParseTree → Converted α} {words : α → List Word} {o : Option α}
    (hr : r.inlined = false) (h : ∀ x ∈ o, r.ReadsBack convert (words x) (· = x)) :
    (optionalUse r).ReadsBack (do
      match ← Walk.optional r.tag with
      | none => return none
      | some t =>
        let x ← Walk.lift (convert t)
        return some x) (Printing.optional words o) (· = o) := by
  cases o with
  | none =>
    refine absent rfl (.inl ⟨rfl, rfl⟩) ?_
    have htags : (optionalUse r).tags = [r.tag] := Rule.tags_eq hr
    rw [htags]
    exact Walk.runs_node? (o := none) (fun _ => rfl) nofun
  | some x =>
    refine optional ((node hr (h x rfl)).mono fun o ho => ?_)
    obtain ⟨y, rfl, rfl⟩ := ho
    rfl

end Clause.ReadsBack

/-- A fixed word or a mark leaves no tree. -/
theorem Clause.literal_yields {t : Terminal} {x : List Char} {token : Token} (hx : IsSpelling t x)
    (hdropped : (Clause.literal t).tags = []) (htoken : token.word = (t, x)) :
    (Clause.literal t).Yields .canonical false [token] [] := by
  have hspelled : IsSpelling token.word.1 token.word.2 := htoken ▸ hx
  have hyields : (Clause.literal t).Yields .canonical false [token]
      (if Derivation.Token.isKept false token then [token.leaf] else []) :=
    Yields.terminal_iff.mpr ⟨token, Token.isLexeme_of_spelling hspelled, congrArg Prod.fst htoken,
      rfl, rfl⟩
  have htagged := hyields.tagged
  rw [hdropped] at htagged
  rwa [htagged.of_dropped] at hyields

namespace ReadsBack

variable {cs : List Clause} {c : Clause} {a : Walk α} {k : α → Walk β}

theorem of_eq (h : ReadsBack cs a ws P) (hws : ws' = ws) : ReadsBack cs a ws' P := hws ▸ h

theorem nil {x : α} (hx : P x) : ReadsBack [] (pure x : Walk α) [] P := by
  refine ⟨.nil, fun w hw => ?_⟩
  obtain rfl := List.map_eq_nil_iff.mp hw
  exact ⟨[], x, hx, ⟨rfl, rfl⟩, .pure rfl⟩

theorem cons (hd : ∀ s ∈ cs.flatMap Clause.tags, s ∉ c.tags) (h : c.ReadsBack a ws P)
    (hk : ∀ x, P x → ReadsBack cs (k x) ws' Q) : ReadsBack (c :: cs) (a >>= k) (ws ++ ws') Q := by
  obtain ⟨x, hx⟩ := h.exists_value
  refine ⟨h.spelled.append (hk x hx).spelled, fun w hw => ?_⟩
  obtain ⟨w₁, w₂, rfl, hw₁, hw₂⟩ := List.map_eq_append_iff.mp hw
  obtain ⟨ts₁, x, hx, hyields, hruns⟩ := h.reads w₁ hw₁
  obtain ⟨ts₂, y, hy, hseq, hends⟩ := (hk x hx).reads w₂ hw₂
  refine ⟨ts₁ ++ ts₂, y, hy, ⟨w₁, w₂, ts₁, ts₂, rfl, rfl, hyields, hseq⟩, ?_⟩
  refine hruns.bind (fun x' hx' => ?_) fun t ht => hd _ (hseq.tagged t ht)
  subst hx'
  exact hends

/-- A clause of one word. -/
theorem one {x : Word} (hd : ∀ s ∈ cs.flatMap Clause.tags, s ∉ c.tags) (h : c.ReadsBack a [x] P)
    (hk : ∀ y, P y → ReadsBack cs (k y) ws Q) : ReadsBack (c :: cs) (a >>= k) (x :: ws) Q :=
  cons hd h hk

/-- A fixed word or a mark in front. -/
theorem skip {t : Terminal} {x : List Char} (hx : IsSpelling t x)
    (hdropped : (Clause.literal t).tags = []) (h : ReadsBack cs a ws P) :
    ReadsBack (.literal t :: cs) a ((t, x) :: ws) P := by
  refine ⟨.cons hx h.spelled, fun w hw => ?_⟩
  obtain ⟨token, w, rfl, htoken, hw⟩ := List.map_eq_cons_iff.mp hw
  obtain ⟨ts, y, hy, hseq, hends⟩ := h.reads w hw
  have hyields := Clause.literal_yields hx hdropped htoken
  exact ⟨ts, y, hy, ⟨[token], w, [], ts, rfl, rfl, hyields, hseq⟩, hends⟩

theorem word {k : Keyword} (h : ReadsBack cs a ws P) :
    ReadsBack (.word k :: cs) a (k.spelled :: ws) P :=
  skip (.keyword k) rfl h

theorem mark {p : Punctuator} (h : ReadsBack cs a ws P) :
    ReadsBack (.mark p :: cs) a (p.spelled :: ws) P :=
  skip (.punctuator p) rfl h

/-- A clause that the walk looks for, but that is not among those of the alternative. -/
theorem beyond {x : α} (h : a.Runs (fun _ => False) c.tags [] (· = x))
    (hd : ∀ s ∈ cs.flatMap Clause.tags, s ∉ c.tags) (hk : ReadsBack cs (k x) ws Q) :
    ReadsBack cs (a >>= k) ws Q := by
  refine ⟨hk.spelled, fun w hw => ?_⟩
  obtain ⟨ts, y, hy, hseq, hends⟩ := hk.reads w hw
  refine ⟨ts, y, hy, hseq, ?_⟩
  refine h.bind (fun x' hx' => ?_) fun t ht => hd _ (hseq.tagged t ht)
  subst hx'
  exact hends

theorem lift {r : Converted α} {x : α} (hr : r = .ok x) (h : ReadsBack cs (k x) ws Q) :
    ReadsBack cs (Walk.lift r >>= k) ws Q := by
  refine ⟨h.spelled, fun w hw => ?_⟩
  obtain ⟨ts, y, hy, hseq, hends⟩ := h.reads w hw
  refine ⟨ts, y, hy, hseq, .lift (P := (· = x)) (by rw [hr]; rfl) fun x' hx' => ?_⟩
  subst hx'
  exact hends

/-- The next child, converted. -/
theorem next {r : Rule} {convert : ParseTree → Converted α}
    (hd : ∀ s ∈ cs.flatMap Clause.tags, s ∉ r.tags) (h : r.ReadsBack convert ws P)
    (hk : ∀ x, P x → ReadsBack cs (k x) ws' Q) :
    ReadsBack (.use r :: cs) (do
      let t ← Walk.next r.tags
      let x ← Walk.lift (convert t)
      k x) (ws ++ ws') Q := by
  obtain ⟨x, hx⟩ := h.exists_value
  refine ⟨h.spelled.append (hk x hx).spelled, fun w hw => ?_⟩
  obtain ⟨w₁, w₂, rfl, hw₁, hw₂⟩ := List.map_eq_append_iff.mp hw
  obtain ⟨t, x, hx, ht, hc⟩ := h.reads w₁ hw₁
  obtain ⟨ts, y, hy, hseq, hends⟩ := (hk x hx).reads w₂ hw₂
  refine ⟨[t] ++ ts, y, hy, ⟨w₁, w₂, [t], ts, rfl, rfl, ht, hseq⟩, ?_⟩
  refine (Walk.runs_next ht.tag_mem).bind (fun u hu => ?_) fun t ht => hd _ (hseq.tagged t ht)
  subst hu
  refine .lift (P := (· = x)) (by rw [hc]; rfl) fun x' hx' => ?_
  subst hx'
  exact hends

/-- The walk ends with the conversion of the next child. -/
theorem last {r : Rule} {convert : ParseTree → Converted α} (h : r.ReadsBack convert ws P) :
    ReadsBack [.use r] (do
      let t ← Walk.next r.tags
      Walk.lift (convert t)) ws P := by
  have hnext : ReadsBack [.use r] (Walk.next r.tags >>= fun t => Walk.lift (convert t) >>= pure)
      (ws ++ []) P := next (by nofun) h fun x hx => nil hx
  rw [List.append_nil] at hnext
  simpa using hnext

/-- What is made of the value in the end. -/
theorem map {f : α → β} (h : ReadsBack cs a ws P) (hf : ∀ x, P x → Q (f x)) :
    ReadsBack cs (do return f (← a)) ws Q := by
  refine ⟨h.spelled, fun w hw => ?_⟩
  obtain ⟨ts, x, hx, hseq, hends⟩ := h.reads w hw
  exact ⟨ts, f x, hf x hx, hseq, fun c hc => (hends c hc).step fun y hy => ⟨congrArg f hy, rfl⟩⟩

/-- The last clause, and what the walk does behind it. -/
theorem final (h : c.ReadsBack a ws P) (hk : ∀ x, P x → ReadsBack [] (k x) [] Q) :
    ReadsBack [c] (a >>= k) ws Q := by
  have hcons : ReadsBack [c] (a >>= k) (ws ++ []) Q := cons (by nofun) h hk
  exact hcons.of_eq (List.append_nil ws).symm

/-- A walk for one clause, the last one. -/
theorem single (h : c.ReadsBack a ws P) : ReadsBack [c] a ws P := by
  refine ⟨h.spelled, fun w hw => ?_⟩
  obtain ⟨ts, x, hx, hyields, hruns⟩ := h.reads w hw
  exact ⟨ts, x, hx, ⟨w, [], ts, [], (List.append_nil w).symm, (List.append_nil ts).symm, hyields,
    rfl, rfl⟩, hruns.ends⟩

/-- A walk for one clause, in front of a mark. -/
theorem closed {p : Punctuator} (h : c.ReadsBack a ws P) :
    ReadsBack [c, .mark p] a (ws ++ [p.spelled]) P := by
  have hcons : ReadsBack [c, .mark p] (a >>= pure) (ws ++ [p.spelled]) P :=
    cons (by nofun) h fun x hx => (nil hx).mark
  simpa using hcons

end ReadsBack

/-- The clauses of an alternative, none of which is a shorthand, fill a node of the rule. -/
theorem Sequence.insideCanonical {r : Rule} {cs : List Clause} {w : List Token}
    {ts : List ParseTree} (h : Sequence .canonical r.keepsWords cs w ts) (hcs : cs ∈ r.alternatives)
    (hlong : ∀ body ∈ Clause.expand cs, Automaton.isShorthand ⟨.rule r, body⟩ = false) :
    Inside .canonical r w ts := by
  obtain ⟨body, hbody, hyields⟩ := sequence_iff.mp h
  refine ⟨body, List.mem_filter.mpr ⟨?_, ?_⟩, hyields⟩
  · exact List.mem_flatMap.mpr ⟨cs, hcs, List.mem_map_of_mem hbody⟩
  · rw [hlong body hbody]
    rfl

/-- A node whose children are read by one walk. -/
theorem ReadsBack.node {r : Rule} {cs : List Clause} {a : Walk α} (h : ReadsBack cs a ws P)
    (hcs : cs ∈ r.alternatives) (hr : r.inlined = false) (hwords : r.keepsWords = false)
    (hlong : ∀ body ∈ Clause.expand cs, Automaton.isShorthand ⟨.rule r, body⟩ = false) :
    r.ReadsBack (·.whole r.tag a) ws P := by
  refine ⟨h.spelled, fun w hw => ?_⟩
  obtain ⟨ts, x, hx, hseq, hends⟩ := h.reads w hw
  rw [← hwords] at hseq
  obtain ⟨span, ht⟩ := (hseq.insideCanonical hcs hlong).isTreeOf hr
  exact ⟨_, x, hx, ht, (gives_whole hends).eq_ok⟩

/-- A node whose names pass their check behind the walk. -/
theorem ReadsBack.checkedNode {r : Rule} {cs : List Clause} {a : Walk α} {x : α}
    {f : α → List (String × String)} (h : ReadsBack cs a ws (· = x))
    (hws : ws' = ws) (hcs : cs ∈ r.alternatives) (hr : r.inlined = false)
    (hwords : r.keepsWords = false) (hnames : ∀ n ∈ f x, isValidName n.2 = true)
    (hlong : ∀ body ∈ Clause.expand cs, Automaton.isShorthand ⟨.rule r, body⟩ = false) :
    r.ReadsBack (fun t => do
      let y ← t.whole r.tag a
      checkNames (f y)
      return y) ws' (· = x) := by
  subst hws
  refine (h.node hcs hr hwords hlong).bind fun _ y hy => ⟨x, rfl, ?_⟩
  subst hy
  exact checked_eq_ok hnames

end GraphQLDoc
