import GraphQLDoc.Conversion.TypeSystem
import GraphQLDoc.Proofs.Conversion.Walk
import Mathlib.Data.List.TakeWhile

/-!
Conversions of trees that nobody parsed. A tree is regular if no token stands for a rule and no rule
for a terminal, and the tokens that are read for a number, a string or an operation can be read so;
which nodes stand where is left open. Walks over regular trees refuse them by declared errors only, as
long as the machine grants the calls. The walks are followed for any errors that cover what the tokens
of a tree lead to, so that they also say of all trees when calls are nested too deeply.
-/
namespace GraphQLDoc

/-! How deeply the calls nest that convert a tree. Only lists, objects and selection sets count, so that
types of any depth are converted where few calls are left. -/

namespace ParseTree

/-- The calls that a node takes around those of its children. -/
def callsOf (tag : String) : Nat :=
  if tag = "list_value" then Conversion.listCalls
  else if tag = "object_value" then Conversion.objectCalls
  else if tag = "selection_set" then Conversion.selectionCalls
  else 0

mutual

/-- How deeply the calls nest that convert a tree. -/
def calls : ParseTree → Nat
  | token _ _ _ => 0
  | rule tag _ children => callsOf tag + callsIn children

def callsIn : List ParseTree → Nat
  | [] => 0
  | t :: ts => max t.calls (callsIn ts)

end

theorem calls_le_callsIn {t : ParseTree} {ts : List ParseTree} (h : t ∈ ts) :
    t.calls ≤ callsIn ts := by
  induction ts with
  | nil => cases h
  | cons u us ih =>
    rw [callsIn]
    rcases List.mem_cons.mp h with rfl | h
    · exact Nat.le_max_left _ _
    · exact Nat.le_trans (ih h) (Nat.le_max_right _ _)

end ParseTree

/-- The errors that a conversion declares: a node of the wrong shape, a literal without meaning, and a
node whose fields are refused. -/
def ConversionError.isDeclared : ConversionError → Bool
  | .shape _ _ | .literal _ _ | .node _ => true
  | .mixUp _ | .text _ | .notString _ | .tooDeep => false

/-- Errors that cover those that conversions declare. -/
class CoversDeclared (E : ConversionError → Prop) : Prop where
  declared (e : ConversionError) (h : e.isDeclared = true) : E e

namespace CoversDeclared

variable {E : ConversionError → Prop} [CoversDeclared E]

theorem shape {p : ShapeProblem} {span : Option Span} : E (.shape p span) := declared _ rfl

theorem literal {p : LiteralProblem} {span : Option Span} : E (.literal p span) := declared _ rfl

theorem node {issues : List Issue} : E (.node issues) := declared _ rfl

end CoversDeclared

instance : CoversDeclared (·.isDeclared) := ⟨fun _ => id⟩

instance : CoversDeclared (· ≠ .tooDeep) := ⟨fun _ h he => by cases he; cases h⟩

namespace ParseTree

def ruleTags : List String := Rule.all.map Rule.tag

def terminalTags : List String := Terminal.all.map Terminal.tag

def operationTags : List String := ["QUERY", "MUTATION", "SUBSCRIPTION"]

/-- A token that can be read as what its tag says. -/
structure IsReadable (tag text : String) : Prop where
  integer : tag = "INT" → ∃ negative digits,
    Numeral.literalInt? text.toList = some (negative, digits) ∧ digits.length ≤ Json.maxIntegerDigits
  float : tag = "FLOAT" → ∃ x, Numeral.literalFloat? text.toList = some x
  string : tag = "STRING" → ∀ v, StringLiteral.decode text.toList ≠ .error (.notAString v)
  operation : tag ∈ operationTags → ∃ o, OperationType.ofWord? text = some o

/-- The other terminals may have any text. -/
theorem IsReadable.of_tag {tag text : String} (h : tag ∉ ["INT", "FLOAT", "STRING"] ++ operationTags) :
    IsReadable tag text := by
  simp only [List.mem_append, List.mem_cons, List.not_mem_nil, or_false, not_or] at h
  obtain ⟨⟨hint, hfloat, hstring⟩, hoperation⟩ := h
  exact ⟨fun h => absurd h hint, fun h => absurd h hfloat, fun h => absurd h hstring,
    fun h => absurd h hoperation⟩

/-- Tokens and rules are told apart by their tags, and all tokens can be read. -/
inductive IsRegular : ParseTree → Prop where
  | token {tag text : String} {span : Span} (noRule : tag ∉ ruleTags)
      (readable : IsReadable tag text) : IsRegular (.token tag text span)
  | rule {tag : String} {span : Option Span} {children : List ParseTree}
      (noTerminal : tag ∉ terminalTags) (inside : ∀ t ∈ children, IsRegular t) :
      IsRegular (.rule tag span children)

/-- The errors cover what a token leads to that is read as what its tag says, or for a rule. -/
structure CoversToken (E : ConversionError → Prop) (tag text : String) (span : Span) : Prop where
  noRule : tag ∈ ruleTags → E (.mixUp .tokenForRule)
  integer : tag = "INT" → Gives E (fun _ => True) (Conversion.integer (.token tag text span))
  float : tag = "FLOAT" → Gives E (fun _ => True) (Conversion.float (.token tag text span))
  string : tag = "STRING" → Gives E (fun _ => True) (Conversion.string (.token tag text span))
  operation : tag ∈ operationTags → OperationType.ofWord? text = none → E (.text (.operation text))

/-- The errors cover what the tokens of a tree lead to, and what rules do in the place of tokens. -/
inductive IsCovered (E : ConversionError → Prop) : ParseTree → Prop where
  | token {tag text : String} {span : Span} (covers : CoversToken E tag text span) :
      IsCovered E (.token tag text span)
  | rule {tag : String} {span : Option Span} {children : List ParseTree}
      (noTerminal : tag ∈ terminalTags → ∀ m, E (.mixUp m))
      (inside : ∀ t ∈ children, IsCovered E t) : IsCovered E (.rule tag span children)

/-- The declared errors cover what a regular tree leads to. -/
theorem IsRegular.isCovered {E : ConversionError → Prop} [CoversDeclared E] {t : ParseTree}
    (h : t.IsRegular) : t.IsCovered E := by
  induction h with
  | @token tag text span noRule readable =>
    refine .token ⟨fun h => absurd h noRule, fun h => ?_, fun h => ?_, fun h => ?_, fun h hnone => ?_⟩
    · obtain ⟨negative, digits, hdigits, hlength⟩ := readable.integer h
      simp only [Conversion.integer, hdigits, Nat.not_lt.mpr hlength, if_false]
      split <;> split <;> first | trivial | exact CoversDeclared.literal
    · obtain ⟨x, hx⟩ := readable.float h
      simp only [Conversion.float, hx]
      split <;> first | trivial | exact CoversDeclared.literal
    · have hstring := readable.string h
      subst h
      rw [Conversion.string]
      · cases hdecode : StringLiteral.decode text.toList with
        | ok s => trivial
        | error p =>
          cases p with
          | notAString v => exact absurd hdecode (hstring v)
          | _ => exact CoversDeclared.literal
      · exact fun h => absurd h (by decide)
    · obtain ⟨o, ho⟩ := readable.operation h
      cases hnone.symm.trans ho
  | rule noTerminal inside ih => exact .rule (fun h => absurd h noTerminal) ih

/-- A tree can lead to any error but to that of a nesting that is too deep. -/
theorem isCovered_ne_tooDeep (t : ParseTree) : t.IsCovered (· ≠ .tooDeep) := by
  cases t with
  | token tag text span =>
    refine .token ⟨fun _ he => ?_, fun _ => ?_, fun _ => ?_, fun _ => ?_, fun _ _ he => ?_⟩
    · cases he
    · simp only [Conversion.integer]
      repeat' split
      all_goals first | trivial | (intro he; cases he)
    · simp only [Conversion.float]
      repeat' split
      all_goals first | trivial | (intro he; cases he)
    · unfold Conversion.string
      repeat' split
      all_goals first | trivial | (intro he; cases he)
    · cases he
  | rule tag span children =>
    refine .rule (fun _ _ he => ?_) fun t _ => isCovered_ne_tooDeep t
    cases he

def IsNode (t : ParseTree) : Prop := ∃ tag span children, t = .rule tag span children

/-- A node, or a token in its place, which the errors cover. -/
def IsNodeOr (E : ConversionError → Prop) (t : ParseTree) : Prop :=
  t.IsNode ∨ E (.mixUp .tokenForRule)

theorem IsNodeOr.covered {E : ConversionError → Prop} {tag text : String} {span : Span}
    (h : (token tag text span).IsNodeOr E) : E (.mixUp .tokenForRule) :=
  h.elim (fun ⟨_, _, _, h⟩ => nomatch h) id

/-- The errors cover what a tree leads to, also where the machine does not grant the calls. -/
structure IsFit [Machine] (E : ConversionError → Prop) (t : ParseTree) : Prop where
  covered : t.IsCovered E
  shallow : E .tooDeep ∨ t.calls ≤ Machine.calls

variable {E : ConversionError → Prop}

namespace IsFit

variable {tag : String} {span : Option Span} {children : List ParseTree}

theorem token [Machine] {text : String} {span : Span} (h : (token tag text span).IsFit E) :
    CoversToken E tag text span := by
  obtain ⟨hcovered, -⟩ := h
  cases hcovered with
  | token covers => exact covers

theorem noTerminal [Machine] (h : (rule tag span children).IsFit E) :
    tag ∈ terminalTags → ∀ m, E (.mixUp m) := by
  obtain ⟨hcovered, -⟩ := h
  cases hcovered with
  | rule noTerminal => exact noTerminal

theorem inside [Machine] (h : (rule tag span children).IsFit E) : ∀ t ∈ children, t.IsFit E := by
  obtain ⟨hcovered, hshallow⟩ := h
  cases hcovered with
  | rule _ inside =>
    intro t ht
    have hle := calls_le_callsIn ht
    rw [calls] at hshallow
    exact ⟨inside t ht, hshallow.imp_right fun hcalls => by omega⟩

/-- Inside the calls of a node its children are still fit. -/
theorem nestedIn [Machine] {α : Type} {n : Nat} {convert : Machine → Converted α}
    (h : (rule tag span children).IsFit E) (hn : callsOf tag = n)
    (hinner : ∀ inner : Machine, (∀ t ∈ children, t.IsFit E) →
      Gives E (fun _ => True) (convert inner)) :
    Gives E (fun _ => True) (nestedIn n convert) := by
  have hshallow := h.shallow
  rw [calls, hn] at hshallow
  refine .nestedIn (fun hdeep => hshallow.resolve_right (by omega)) fun _ => hinner _ fun t ht => ?_
  have hle := calls_le_callsIn ht
  exact @IsFit.mk (_) _ _ (h.inside t ht).covered (hshallow.imp_right fun hcalls =>
    show t.calls ≤ Machine.calls - n by omega)

end IsFit

variable [Machine]

/-- A fit tree with one of the tags. -/
def IsFitIn (E : ConversionError → Prop) (tags : List String) (t : ParseTree) : Prop :=
  t.IsFit E ∧ t.tag ∈ tags

namespace IsFitIn

variable {tags : List String} {t : ParseTree}

theorem isNodeOr (h : t.IsFitIn E tags) (htags : tags ⊆ ruleTags) : t.IsNodeOr E := by
  obtain ⟨⟨hcovered, -⟩, htag⟩ := h
  cases hcovered with
  | token covers => exact .inr (covers.noRule (htags htag))
  | rule => exact .inl ⟨_, _, _, rfl⟩

/-- A token, or a rule in its place, which the errors cover. -/
theorem token_or (h : t.IsFitIn E tags) (htags : tags ⊆ terminalTags) :
    (∃ tag text span, t = .token tag text span ∧ tag ∈ tags) ∨
      (∃ tag span children, t = .rule tag span children) ∧ ∀ m, E (.mixUp m) := by
  obtain ⟨hfit, htag⟩ := h
  cases t with
  | token tag text span => exact .inl ⟨tag, text, span, rfl, htag⟩
  | rule tag span children => exact .inr ⟨⟨_, _, _, rfl⟩, hfit.noTerminal (htags htag)⟩

end IsFitIn

end ParseTree

section

variable {E : ConversionError → Prop} {α β : Type}

/-- Some value, or one of the errors. -/
abbrev Answers (E : ConversionError → Prop) (r : Converted α) : Prop := Gives E (fun _ => True) r

namespace Answers

theorem bind {r : Converted α} {k : α → Converted β} (h : Answers E r) (hk : ∀ a, Answers E (k a)) :
    Answers E (r >>= k) :=
  Gives.bind h fun a _ => hk a

theorem map {r : Converted α} (h : Answers E r) (f : α → β) : Answers E (r.map f) :=
  Gives.map h fun _ _ => trivial

theorem pure (a : α) : Answers E (Pure.pure a) := trivial

theorem mapM {convert : ParseTree → Converted α} {ts : List ParseTree}
    (h : ∀ t ∈ ts, Answers E (convert t)) : Answers E (ts.mapM convert) :=
  (Gives.mapM h).mono fun _ _ => trivial

theorem foldlM {f : α → ParseTree → Converted α} {ts : List ParseTree}
    (h : ∀ t ∈ ts, ∀ a, Answers E (f a t)) (a : α) : Answers E (ts.foldlM f a) := by
  induction ts generalizing a with
  | nil => exact pure a
  | cons t ts ih =>
    obtain ⟨ht, hts⟩ := List.forall_mem_cons.mp h
    rw [List.foldlM_cons]
    exact (ht a).bind fun b => ih hts b

theorem checkNames [CoversDeclared E] (fields : List (String × String)) :
    Answers E (checkNames fields) := by
  unfold GraphQLDoc.checkNames
  split
  · trivial
  · exact CoversDeclared.node

end Answers

variable [Machine]

/-- Between fit children: those in front have been read, the others are left. -/
structure Cursor.IsAmong (E : ConversionError → Prop) (children : List ParseTree)
    (c : Cursor) : Prop where
  fit : ∀ t ∈ children, t.IsFit E
  rest : c.rest = children.drop c.read

namespace Cursor.IsAmong

variable {children : List ParseTree} {c : Cursor}

theorem fit_rest (h : c.IsAmong E children) : ∀ t ∈ c.rest, t.IsFit E :=
  fun t ht => h.fit t (List.mem_of_mem_drop (h.rest ▸ ht))

/-- The child that comes next is the one with the number of those that have been read. -/
theorem step (h : c.IsAmong E children) {t : ParseTree} {rest : List ParseTree}
    (hrest : c.rest = t :: rest) :
    children[c.read]? = some t ∧
      ({ c with read := c.read + 1, rest := rest } : Cursor).IsAmong E children := by
  have hdrop : children.drop c.read = t :: rest := h.rest.symm.trans hrest
  refine ⟨?_, h.fit, ?_⟩
  · rw [← List.head?_drop, hdrop]
    rfl
  · show rest = children.drop (c.read + 1)
    rw [← List.drop_drop, hdrop]
    rfl

/-- In front of the children of a node. -/
theorem enter [CoversDeclared E] (h : ∀ t ∈ children, t.IsFit E) {tag rule : String} {span : Option Span} :
    Gives E (IsAmong E children) (Cursor.enter rule (.rule tag span children)) := by
  simp only [Cursor.enter]
  split
  · exact ⟨h, rfl⟩
  · exact CoversDeclared.shape

theorem next [CoversDeclared E] (h : c.IsAmong E children) (tags : List String) :
    Gives E (fun x => (x.1.IsFitIn E tags ∧ children[x.2.read - 1]? = some x.1) ∧
      x.2.IsAmong E children) (c.next tags) := by
  unfold Cursor.next
  split
  · exact CoversDeclared.shape
  · rename_i t rest hrest
    obtain ⟨hchild, hstep⟩ := h.step hrest
    split
    · rename_i htag
      have ht := h.fit_rest t (by rw [hrest]; exact List.mem_cons_self)
      exact ⟨⟨⟨ht, htag⟩, hchild⟩, hstep⟩
    · exact CoversDeclared.shape

theorem optional (h : c.IsAmong E children) (tag : String) :
    (∀ t ∈ (c.optional tag).1, t.IsFitIn E [tag] ∧
      children[(c.optional tag).2.read - 1]? = some t) ∧ (c.optional tag).2.IsAmong E children := by
  unfold Cursor.optional
  split
  · exact ⟨fun t ht => absurd ht (Option.not_mem_none t), h⟩
  · rename_i t rest hrest
    obtain ⟨hchild, hstep⟩ := h.step hrest
    split
    · rename_i htag
      refine ⟨fun u hu => ?_, hstep⟩
      obtain rfl := Option.some.inj hu
      have ht := h.fit_rest t (by rw [hrest]; exact List.mem_cons_self)
      exact ⟨⟨ht, List.mem_singleton.mpr htag⟩, hchild⟩
    · exact ⟨fun u hu => absurd hu (Option.not_mem_none u), h⟩

theorem repeated (h : c.IsAmong E children) (tags : List String) :
    (∀ t ∈ (c.repeated tags).1, t.IsFitIn E tags) ∧ (c.repeated tags).2.IsAmong E children := by
  refine ⟨fun t ht => ⟨h.fit_rest t (List.takeWhile_subset _ ht), ?_⟩, h.fit, ?_⟩
  · simpa using List.mem_takeWhile_imp ht
  · simp only [Cursor.repeated, h.rest, List.drop_drop]

omit [Machine] in
theorem finish [CoversDeclared E] (c : Cursor) : Answers E c.finish := by
  unfold Cursor.finish
  split
  · trivial
  · exact CoversDeclared.shape

end Cursor.IsAmong

namespace Walk

/-- Among fit children the walk comes to a value with a property, or to one of the errors. -/
def GivesAmong (E : ConversionError → Prop) (P : α → Prop) (w : Walk α) : Prop :=
  ∀ (children : List ParseTree) (c : Cursor), c.IsAmong E children →
    Gives E (fun x => P x.1 ∧ x.2.IsAmong E children) (w c)

abbrev Answers (E : ConversionError → Prop) (w : Walk α) : Prop := w.GivesAmong E fun _ => True

namespace GivesAmong

variable {P : α → Prop} {Q : β → Prop}

theorem bind {w : Walk α} {k : α → Walk β} (h : GivesAmong E P w) (hk : ∀ a, P a → GivesAmong E Q (k a)) :
    GivesAmong E Q (w >>= k) :=
  fun children c hc => (h children c hc).bind fun x hx => hk x.1 hx.1 children x.2 hx.2

theorem pure {a : α} (h : P a) : GivesAmong E P (Pure.pure a) := fun _ _ hc => ⟨h, hc⟩

theorem lift {r : Converted α} (h : Gives E P r) : GivesAmong E P (Walk.lift r) :=
  fun _ _ hc => h.map fun _ ha => ⟨ha, hc⟩

theorem next [CoversDeclared E] (tags : List String) :
    GivesAmong E (ParseTree.IsFitIn E tags) (Walk.next tags) :=
  fun _ _ hc => (hc.next tags).mono fun _ hx => ⟨hx.1.1, hx.2⟩

theorem repeated (tags : List String) :
    GivesAmong E (fun ts => ∀ t ∈ ts, t.IsFitIn E tags) (Walk.repeated tags) :=
  fun _ _ hc => hc.repeated tags

end GivesAmong

namespace Answers

theorem bind {w : Walk α} {k : α → Walk β} (h : w.Answers E) (hk : ∀ a, (k a).Answers E) :
    (w >>= k).Answers E :=
  GivesAmong.bind h fun a _ => hk a

theorem pure (a : α) : Answers E (Pure.pure a) := GivesAmong.pure trivial

theorem lift {r : Converted α} (h : GraphQLDoc.Answers E r) : Answers E (Walk.lift r) := GivesAmong.lift h

theorem next [CoversDeclared E] {tags : List String} {k : ParseTree → Walk β}
    (hk : ∀ t, t.IsFitIn E tags → (k t).Answers E) : (Walk.next tags >>= k).Answers E :=
  GivesAmong.bind (.next tags) hk

theorem finish [CoversDeclared E] : Walk.finish.Answers E :=
  fun _ c hc => Gives.map (Cursor.IsAmong.finish c) fun _ _ => ⟨trivial, hc⟩

/-- A walk that looks at what comes first. -/
theorem get {k : Cursor → Walk β} (hk : ∀ c, (k c).Answers E) : (get >>= k).Answers E :=
  fun children c hc => hk c children c hc

omit [Machine] in
/-- The token of a name is looked for in any tree. -/
theorem nameToken [CoversDeclared E] (t : ParseTree) (rule : String) :
    GraphQLDoc.Answers E (t.nameToken rule) := by
  unfold ParseTree.nameToken
  split
  · trivial
  · exact CoversDeclared.shape

theorem nameOf [CoversDeclared E] (rule : String) : (Walk.nameOf rule).Answers E :=
  next fun t _ => bind (lift (nameToken t rule)) fun _ => pure _

theorem name [CoversDeclared E] : Walk.name.Answers E := nameOf _

/-- A clause that may be left out. -/
theorem node? {tag : String} {k : Option ParseTree → Walk β} (hnone : (k none).Answers E)
    (hsome : ∀ t, t.IsFitIn E [tag] → (k (some t)).Answers E) : (Walk.optional tag >>= k).Answers E :=
  fun children c hc => by
    obtain ⟨hchild, hc⟩ := hc.optional tag
    show Gives E _ (k (c.optional tag).1 (c.optional tag).2)
    cases hoptional : (c.optional tag).1 with
    | none => exact hnone children _ hc
    | some t => exact hsome t (hchild t hoptional).1 children _ hc

end Answers

end Walk

variable [CoversDeclared E]

namespace ParseTree

variable {t : ParseTree} {P : α → Prop}

theorem IsNodeOr.whole (hnode : t.IsNodeOr E) (h : t.IsFit E) (rule : String) {w : Walk α}
    (hw : w.GivesAmong E P) : Gives E P (t.whole rule w) := by
  cases t with
  | token tag text span => exact hnode.covered
  | rule tag span children =>
    have hwalk := hw.bind fun a ha => Walk.GivesAmong.bind Walk.Answers.finish fun _ _ =>
      Walk.GivesAmong.pure ha
    exact (Cursor.IsAmong.enter h.inside).bind fun c hc =>
      (hwalk children c hc).bind fun x hx => hx.1

/-- A node that was found by its tag. -/
theorem IsFitIn.whole {tags : List String} (h : t.IsFitIn E tags) (htags : tags ⊆ ruleTags)
    (rule : String) {w : Walk α} (hw : w.GivesAmong E P) : Gives E P (t.whole rule w) :=
  (h.isNodeOr htags).whole h.1 rule hw

theorem IsNodeOr.answers (hnode : t.IsNodeOr E) (h : t.IsFit E) (rule : String) {w : Walk α}
    (hw : w.Answers E) : Answers E (t.whole rule w) :=
  hnode.whole h rule hw

theorem IsFitIn.answers {tags : List String} (h : t.IsFitIn E tags) (htags : tags ⊆ ruleTags)
    (rule : String) {w : Walk α} (hw : w.Answers E) : Answers E (t.whole rule w) :=
  h.whole htags rule hw

end ParseTree

/-- Each fit node is answered. -/
def AnswersNodes (E : ConversionError → Prop) (f : ParseTree → Converted α) : Prop :=
  ∀ t : ParseTree, t.IsNodeOr E → t.IsFit E → Answers E (f t)

namespace AnswersNodes

omit [CoversDeclared E] in
theorem of_tag {f : ParseTree → Converted α} (h : AnswersNodes E f) {tags : List String}
    (htags : tags ⊆ ParseTree.ruleTags) {t : ParseTree} (ht : t.IsFitIn E tags) :
    Answers E (f t) :=
  h t (ht.isNodeOr htags) ht.1

/-- A conversion of a node for itself, with a check of its result. -/
theorem whole {rule : String} {w : Walk α} {k : α → Converted β} (hw : w.Answers E)
    (hk : ∀ a, Answers E (k a)) : AnswersNodes E fun t => t.whole rule w >>= k :=
  fun _ hnode ht => (hnode.whole ht rule hw).bind fun a _ => hk a

omit [CoversDeclared E] in
theorem map {f : ParseTree → Converted α} (h : AnswersNodes E f) (g : α → β) :
    AnswersNodes E fun t => (f t).map g :=
  fun t hnode ht => (h t hnode ht).map g

end AnswersNodes

namespace Walk.Answers

theorem clause? {rule item : String} {convert : ParseTree → Converted α}
    (hrule : [rule] ⊆ ParseTree.ruleTags) (hitem : [item] ⊆ ParseTree.ruleTags)
    (h : AnswersNodes E convert) : (Walk.clause? rule item convert).Answers E :=
  node? (pure none) fun _ ht => bind (.lift (ht.whole hrule rule
    (GivesAmong.bind (.repeated [item]) fun _ hitems =>
      .lift (GraphQLDoc.Answers.mapM fun t ht => h.of_tag hitem (hitems t ht))))) fun _ => pure _

theorem clause {rule item : String} {convert : ParseTree → Converted α}
    (hrule : [rule] ⊆ ParseTree.ruleTags) (hitem : [item] ⊆ ParseTree.ruleTags)
    (h : AnswersNodes E convert) : (Walk.clause rule item convert).Answers E :=
  bind (clause? hrule hitem h) fun _ => pure _

end Walk.Answers

end

end GraphQLDoc
