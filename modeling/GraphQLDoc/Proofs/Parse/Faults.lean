import GraphQLDoc.Proofs.Faults.TypeSystem
import GraphQLDoc.Proofs.Literal.Surrogates
import GraphQLDoc.Proofs.Number.Overflow
import GraphQLDoc.Proofs.Parse.Integers

/-!
What documents are refused for once their syntax is accepted: numbers that are too large, strings
with a surrogate alone, operations that a schema block names twice, and names that are not allowed
where they stand. Wherever one of these is in the tree of a document, the document is refused for
one of them, and for nothing else.
-/
namespace GraphQLDoc

open ParseTree

namespace ParseTree

/-- Something in a tree that has no meaning, and where it is. -/
inductive IsWrong : ParseTree → LiteralProblem → Span → Prop where
  | integer {negative : Bool} {ds : List Char} {text : String} {span : Span}
      (written : text.toList = Pattern.signText negative ++ ds) (whole : Pattern.IsWhole ds)
      (outside : ¬(minInt64 ≤ signedNumber negative ds ∧ signedNumber negative ds ≤ maxInt64)) :
      IsWrong (.token "INT" text span) (.integer text) span
  | float {number : NumberText} {text : String} {span : Span} (written : text.toList = number.text)
      (isFloat : number.IsFloat) (large : Binary64.overflow ≤ number.decimal.toRat) :
      IsWrong (.token "FLOAT" text span) (.float text) span
  | string {body : List Char} {units : List Nat} {text : String} {span : Span}
      (written : text.toList = '"' :: body) (denotes : StringLiteral.Denotes body units)
      (unpaired : ¬ArePaired units) :
      IsWrong (.token "STRING" text span) (.string .unpairedSurrogate) span
  | root {tag : String} {nodeSpan : Option Span} {before behind : List ParseTree}
      {first entry : ParseTree} {o : OperationType} {span : Span} (block : tag ∈ schemaTags)
      (isBefore : first ∈ before) (same : first.rootOperation? = some o)
      (repeats : entry.rootOperation? = some o) (place : entry.span? = some span) :
      IsWrong (.rule tag nodeSpan (before ++ entry :: behind)) (.rootTwice o) span
  | location {nodeSpan : Option Span} {children : List ParseTree} {tag text : String} {span : Span}
      (child : .token tag text span ∈ children) (unknown : ∀ l : DirectiveLocation, l.word ≠ text) :
      IsWrong (.rule "directive_location" nodeSpan children) (.location text) span
  | enumValue {nodeSpan nameSpan : Option Span} {children : List ParseTree} {tag text : String}
      {span : Span} (child : .rule "name" nameSpan [.token tag text span] ∈ children)
      (reserved : text ∈ ["true", "false", "null"]) :
      IsWrong (.rule "enum_value_definition" nodeSpan children) (.enumValueName text) span
  | fragment {nodeSpan nameSpan : Option Span} {clauses : List ParseTree} {tag : String}
      {span : Span} :
      IsWrong (.rule "fragment_definition" nodeSpan
        (.rule "fragment_name" nameSpan [.token tag "on" span] :: clauses)) .fragmentName span

/-- The faults of a tree that are not those of a part of it. -/
def ownFaults : ParseTree → List TreeFault
  | token tag text span => tokenFaults (token tag text span)
  | rule tag _ children => ruleFaults tag children

/-- Nothing is wrong below a word. -/
def HasPlainWords (t : ParseTree) : Prop :=
  ∀ tag span children, rule tag span children ∈ t.parts → tag ∈ spelledTags →
    ∀ v ∈ (rule tag span children).parts, v.ownFaults = []

mutual

/-- The faults of a tree are those of its parts. -/
theorem mem_faults {f : TreeFault} : (t : ParseTree) → t.HasPlainWords →
    (f ∈ t.faults ↔ ∃ u ∈ t.parts, f ∈ u.ownFaults)
  | token tag text span, _ => by
    rw [faults]
    simp [parts, ownFaults]
  | rule tag span children, h => by
    by_cases hspelled : tag ∈ spelledTags
    · have hnone := h tag span children (mem_parts_self _) hspelled
      refine iff_of_false ?_ fun ⟨u, hu, hf⟩ => ?_
      · rw [faults_spelled hspelled]
        exact List.not_mem_nil
      · rw [hnone u hu] at hf
        exact List.not_mem_nil hf
    · have hchildren : ∀ t ∈ children, t.HasPlainWords := fun t ht tag' span' children' hmem =>
        h tag' span' children' (List.mem_cons_of_mem _ (mem_partsOf.mpr ⟨t, ht, hmem⟩))
      rw [faults_rule hspelled, List.mem_append, mem_faultsIn children hchildren, parts,
        List.exists_mem_cons_iff]
      rfl

theorem mem_faultsIn {f : TreeFault} : (ts : List ParseTree) → (∀ t ∈ ts, t.HasPlainWords) →
    (f ∈ faultsIn ts ↔ ∃ u ∈ partsOf ts, f ∈ u.ownFaults)
  | [], _ => by simp [partsOf]
  | t :: ts, h => by
    obtain ⟨ht, hts⟩ := List.forall_mem_cons.mp h
    rw [faultsIn_cons, List.mem_append, mem_faults t ht, mem_faultsIn ts hts]
    simp only [partsOf, List.mem_append, or_and_right, exists_or]

end

/-- The entry repeats one of those before it or of the operations seen, which is its fault. -/
def Repeats (seen : List OperationType) (f : TreeFault) (before : List ParseTree) (entry : ParseTree) :
    Prop :=
  ∃ o, entry.rootOperation? = some o ∧ (o ∈ seen ∨ ∃ e ∈ before, e.rootOperation? = some o) ∧
    f = (.rootTwice o, entry.span?)

/-- A tree among others with something said of it and those before it. -/
def Has (ts : List ParseTree) (P : List ParseTree → ParseTree → Prop) : Prop :=
  ∃ before entry behind, ts = before ++ entry :: behind ∧ P before entry

theorem has_cons {t : ParseTree} {ts : List ParseTree} {P : List ParseTree → ParseTree → Prop} :
    Has (t :: ts) P ↔ P [] t ∨ Has ts fun before => P (t :: before) := by
  constructor
  · rintro ⟨before, entry, behind, hts, h⟩
    cases before with
    | nil =>
      obtain ⟨rfl, rfl⟩ := List.cons.inj hts
      exact .inl h
    | cons u before =>
      obtain ⟨rfl, rfl⟩ := List.cons.inj hts
      exact .inr ⟨before, entry, behind, rfl, h⟩
  · rintro (h | ⟨before, entry, behind, rfl, h⟩)
    · exact ⟨[], t, ts, rfl, h⟩
    · exact ⟨t :: before, entry, behind, rfl, h⟩

theorem mem_repeatedRoots {seen : List OperationType} {ts : List ParseTree} {f : TreeFault} :
    f ∈ repeatedRoots seen ts ↔ Has ts (Repeats seen f) := by
  induction ts generalizing seen with
  | nil => simp [repeatedRoots, Has]
  | cons t ts ih =>
    rw [has_cons, repeatedRoots]
    cases hroot : t.rootOperation? with
    | none =>
      have hself : ¬Repeats seen f [] t := by simp [Repeats, hroot]
      have hmore (before : List ParseTree) (entry : ParseTree) :
          Repeats seen f (t :: before) entry ↔ Repeats seen f before entry := by
        simp [Repeats, hroot]
      simp only [hself, false_or, Has, hmore]
      exact ih
    | some p =>
      dsimp only
      split
      · rename_i hp
        have hself : Repeats seen f [] t ↔ f = (.rootTwice p, t.span?) := by
          simp [Repeats, hroot, hp]
        have hmore (before : List ParseTree) (entry : ParseTree) :
            Repeats seen f (t :: before) entry ↔ Repeats seen f before entry := by
          refine exists_congr fun o => and_congr_right fun _ => and_congr_left fun _ => ?_
          rw [List.exists_mem_cons_iff, hroot, Option.some.injEq]
          exact ⟨fun h => h.elim .inl fun h => h.elim (fun h => .inl (h ▸ hp)) .inr,
            fun h => h.imp_right .inr⟩
        simp only [List.mem_cons, hself, Has, hmore, ih]
      · rename_i hp
        have hself : ¬Repeats seen f [] t := by
          rintro ⟨o, ho, h | ⟨e, he, -⟩, -⟩
          · exact hp (Option.some.inj (hroot.symm.trans ho) ▸ h)
          · exact List.not_mem_nil he
        have hmore (before : List ParseTree) (entry : ParseTree) :
            Repeats seen f (t :: before) entry ↔ Repeats (p :: seen) f before entry := by
          refine exists_congr fun o => and_congr_right fun _ => and_congr_left fun _ => ?_
          rw [List.exists_mem_cons_iff, hroot, Option.some.injEq, List.mem_cons]
          exact ⟨fun h => h.elim (.inl ∘ .inr) fun h => h.imp_left fun h => .inl h.symm,
            fun h => h.elim (fun h => h.elim (fun h => .inr (.inl h.symm)) .inl) (.inr ∘ .inr)⟩
        simp only [hself, false_or, Has, hmore]
        exact ih

variable {p : LiteralProblem} {place : Option Span} {tag text : String} {span : Span}

/-- What can be wrong with a token. -/
theorem IsWrong.token {s : Span} (h : IsWrong (.token tag text s) p span) : span = s ∧
    ((tag = "INT" ∧ p = .integer text ∧ ∃ negative ds,
        text.toList = Pattern.signText negative ++ ds ∧ Pattern.IsWhole ds ∧
        ¬(minInt64 ≤ signedNumber negative ds ∧ signedNumber negative ds ≤ maxInt64)) ∨
      (tag = "FLOAT" ∧ p = .float text ∧ ∃ number : NumberText, text.toList = number.text ∧
        number.IsFloat ∧ Binary64.overflow ≤ number.decimal.toRat) ∨
      (tag = "STRING" ∧ p = .string .unpairedSurrogate ∧ ∃ body units, text.toList = '"' :: body ∧
        StringLiteral.Denotes body units ∧ ¬ArePaired units)) := by
  cases h with
  | integer written whole outside =>
    exact ⟨rfl, .inl ⟨rfl, rfl, _, _, written, whole, outside⟩⟩
  | float written isFloat large =>
    exact ⟨rfl, .inr (.inl ⟨rfl, rfl, _, written, isFloat, large⟩)⟩
  | string written denotes unpaired =>
    exact ⟨rfl, .inr (.inr ⟨rfl, rfl, _, _, written, denotes, unpaired⟩)⟩

theorem mem_integerFaults {a : Token} (h : a.IsLexeme) (hint : a.terminal = .int)
    (hshort : a.digitCount ≤ Json.maxIntegerDigits) :
    (p, place) ∈ a.leaf.tokenFaults ↔ ∃ span, place = some span ∧ IsWrong a.leaf p span := by
  have hleaf : a.leaf = .token "INT" (String.ofList a.text) a.span := by
    rw [Token.leaf, hint]
    rfl
  have hfaults {negative : Bool} {ds : List Char} (htext : a.text = Pattern.signText negative ++ ds)
      (hds : Pattern.IsWhole ds) : a.leaf.tokenFaults =
        if minInt64 ≤ signedNumber negative ds ∧ signedNumber negative ds ≤ maxInt64 then []
        else [(.integer (String.ofList a.text), some a.span)] := by
    have hlength : ¬Json.maxIntegerDigits < ds.length := by
      rw [← Token.digitCount_eq htext hds]
      omega
    rw [hleaf]
    show reportedFault (Conversion.integer _) = _
    rw [integer_token hds (String.toList_ofList.trans htext), if_neg hlength]
    split <;> rfl
  constructor
  · intro hf
    obtain ⟨negative, ds, htext, hds⟩ := h.written_int hint
    rw [hfaults htext hds] at hf
    split at hf
    · cases hf
    · rename_i houtside
      obtain ⟨rfl, rfl⟩ := Prod.mk.inj (List.mem_singleton.mp hf)
      rw [hleaf]
      exact ⟨_, rfl, .integer (String.toList_ofList.trans htext) hds houtside⟩
  · rintro ⟨span, rfl, hwrong⟩
    rw [hleaf] at hwrong
    obtain ⟨rfl, ⟨-, rfl, negative, ds, hwritten, hds, houtside⟩ | ⟨htag, -⟩ | ⟨htag, -⟩⟩ :=
      hwrong.token
    · rw [hfaults (String.toList_ofList.symm.trans hwritten) hds, if_neg houtside]
      exact List.mem_singleton_self _
    · exact absurd htag (by decide)
    · exact absurd htag (by decide)

theorem mem_floatFaults {a : Token} (h : a.IsLexeme) (hfloat : a.terminal = .float) :
    (p, place) ∈ a.leaf.tokenFaults ↔ ∃ span, place = some span ∧ IsWrong a.leaf p span := by
  have hleaf : a.leaf = .token "FLOAT" (String.ofList a.text) a.span := by
    rw [Token.leaf, hfloat]
    rfl
  have hfaults {number : NumberText} (htext : a.text = number.text) (hnumber : number.IsFloat) :
      a.leaf.tokenFaults = if number.decimal.toRat < Binary64.overflow then []
        else [(.float (String.ofList a.text), some a.span)] := by
    rw [hleaf]
    show reportedFault (Conversion.float _) = _
    simp only [Conversion.float, String.toList_ofList, htext, hnumber.literalFloat?_eq,
      ← number.value_isFinite]
    split <;> rfl
  constructor
  · intro hf
    obtain ⟨number, htext, hnumber⟩ := h.written_float hfloat
    rw [hfaults htext hnumber] at hf
    split at hf
    · cases hf
    · rename_i hlarge
      obtain ⟨rfl, rfl⟩ := Prod.mk.inj (List.mem_singleton.mp hf)
      rw [hleaf]
      exact ⟨_, rfl, .float (String.toList_ofList.trans htext) hnumber (not_lt.mp hlarge)⟩
  · rintro ⟨span, rfl, hwrong⟩
    rw [hleaf] at hwrong
    obtain ⟨rfl, ⟨htag, -⟩ | ⟨-, rfl, number, hwritten, hnumber, hlarge⟩ | ⟨htag, -⟩⟩ :=
      hwrong.token
    · exact absurd htag (by decide)
    · rw [hfaults (String.toList_ofList.symm.trans hwritten) hnumber, if_neg (not_lt.mpr hlarge)]
      exact List.mem_singleton_self _
    · exact absurd htag (by decide)

theorem mem_stringFaults {a : Token} (h : a.IsLexeme) (hstring : a.terminal = .string) :
    (p, place) ∈ a.leaf.tokenFaults ↔ ∃ span, place = some span ∧ IsWrong a.leaf p span := by
  have hleaf : a.leaf = .token "STRING" (String.ofList a.text) a.span := by
    rw [Token.leaf, hstring]
    rfl
  have hfaults {body : List Char} {units : List Nat} (htext : a.text = '"' :: body)
      (hunits : StringLiteral.Denotes body units) : (ArePaired units ∧ a.leaf.tokenFaults = []) ∨
        (¬ArePaired units ∧ a.leaf.tokenFaults = [(.string .unpairedSurrogate, some a.span)]) := by
    have hconvert : a.leaf.tokenFaults = reportedFault (Conversion.string a.leaf) := by
      rw [hleaf]
      rfl
    rw [hconvert, hleaf, Conversion.string, String.toList_ofList, htext]
    · rcases StringLiteral.decode_of_denotes hunits with ⟨hpaired, s, hs, -⟩ | ⟨hpaired, hs⟩
      · exact .inl ⟨hpaired, by rw [hs]; rfl⟩
      · exact .inr ⟨hpaired, by rw [hs]; rfl⟩
    · exact fun h => absurd h (by decide)
  constructor
  · intro hf
    obtain ⟨body, htext, hbody⟩ := h.written_string hstring
    obtain ⟨units, hunits⟩ := StringLiteral.exists_denotes hbody
    rcases hfaults htext hunits with ⟨-, hnone⟩ | ⟨hunpaired, hone⟩
    · rw [hnone] at hf
      cases hf
    · rw [hone] at hf
      obtain ⟨rfl, rfl⟩ := Prod.mk.inj (List.mem_singleton.mp hf)
      rw [hleaf]
      exact ⟨_, rfl, .string (String.toList_ofList.trans htext) hunits hunpaired⟩
  · rintro ⟨span, rfl, hwrong⟩
    rw [hleaf] at hwrong
    obtain ⟨rfl, ⟨htag, -⟩ | ⟨htag, -⟩ | ⟨-, rfl, body, units, hwritten, hunits, hunpaired⟩⟩ :=
      hwrong.token
    · exact absurd htag (by decide)
    · exact absurd htag (by decide)
    · rcases hfaults (String.toList_ofList.symm.trans hwritten) hunits with h | h
      · exact absurd h.1 hunpaired
      · rw [h.2]
        exact List.mem_singleton_self _

/-- The terminals whose tokens are literals that can be wrong. -/
theorem Terminal.isLiteral_iff (s : Terminal) :
    s.tag ∈ ["INT", "FLOAT", "STRING"] ↔ s = .int ∨ s = .float ∨ s = .string := by
  have hall : ∀ s ∈ Terminal.all,
      s.tag ∈ ["INT", "FLOAT", "STRING"] ↔ s = .int ∨ s = .float ∨ s = .string := by
    decide
  exact hall s s.mem_all

theorem mem_tokenFaults {a : Token} (h : a.IsLexeme)
    (hshort : a.terminal = .int → a.digitCount ≤ Json.maxIntegerDigits) :
    (p, place) ∈ a.leaf.tokenFaults ↔ ∃ span, place = some span ∧ IsWrong a.leaf p span := by
  by_cases hliteral : a.terminal.tag ∈ ["INT", "FLOAT", "STRING"]
  · rcases (Terminal.isLiteral_iff a.terminal).mp hliteral with hint | hfloat | hstring
    · exact mem_integerFaults h hint (hshort hint)
    · exact mem_floatFaults h hfloat
    · exact mem_stringFaults h hstring
  · have hnone : a.leaf.tokenFaults = [] := tokenFaults_eq_nil hliteral
    rw [hnone]
    refine iff_of_false List.not_mem_nil ?_
    rintro ⟨span, -, hwrong⟩
    simp only [List.mem_cons, List.not_mem_nil, or_false, not_or] at hliteral
    rcases hwrong.token.2 with ⟨htag, -⟩ | ⟨htag, -⟩ | ⟨htag, -⟩
    · exact hliteral.1 htag
    · exact hliteral.2.1 htag
    · exact hliteral.2.2 htag

theorem mem_enumValueFaults {t : ParseTree} : (p, place) ∈ t.enumValueFaults ↔
    ∃ nameSpan tag text span, t = .rule "name" nameSpan [.token tag text span] ∧
      text ∈ Conversion.enumValueNames ∧ p = .enumValueName text ∧ place = some span := by
  unfold enumValueFaults
  split
  · rename_i nameSpan tag text span
    split
    · rename_i hreserved
      simp [hreserved]
    · rename_i hreserved
      simp [hreserved]
  · rename_i hother
    refine iff_of_false List.not_mem_nil ?_
    rintro ⟨nameSpan, tag, text, span, rfl, -⟩
    exact hother _ _ _ _ rfl

theorem mem_fragmentFaults {ts : List ParseTree} : (p, place) ∈ fragmentFaults ts ↔
    ∃ nameSpan tag span clauses,
      ts = .rule "fragment_name" nameSpan [.token tag "on" span] :: clauses ∧
        p = .fragmentName ∧ place = some span := by
  unfold fragmentFaults
  split
  · rename_i nameSpan tag text span clauses
    split
    · rename_i hon
      simp [hon]
    · rename_i hon
      simp [hon]
  · rename_i hother
    refine iff_of_false List.not_mem_nil ?_
    rintro ⟨nameSpan, tag, span, clauses, rfl, -⟩
    exact hother _ _ _ _ _ rfl

theorem ofWord?_eq_none : DirectiveLocation.ofWord? text = none ↔
    ∀ l : DirectiveLocation, l.word ≠ text := by
  have hall (l : DirectiveLocation) : l ∈ DirectiveLocation.all := by cases l <;> decide
  simp only [DirectiveLocation.ofWord?, List.find?_eq_none, beq_iff_eq]
  exact ⟨fun h l => h l (hall l), fun h l _ => h l⟩

theorem mem_locationFaults {t : ParseTree} : (p, place) ∈ t.locationFaults ↔
    ∃ tag text span, t = .token tag text span ∧ (∀ l : DirectiveLocation, l.word ≠ text) ∧
      p = .location text ∧ place = some span := by
  unfold locationFaults
  split
  · rename_i tag text span
    split
    · rename_i hunknown
      rw [Option.isNone_iff_eq_none, ofWord?_eq_none] at hunknown
      simp [hunknown]
    · rename_i hknown
      rw [Option.isNone_iff_eq_none, ofWord?_eq_none] at hknown
      simp [hknown]
  · simp

theorem mem_ruleFaults {nodeSpan : Option Span} {children : List ParseTree}
    (h : ∀ c ∈ children, c.span?.isSome = true) :
    (p, place) ∈ ruleFaults tag children ↔
      ∃ span, place = some span ∧ IsWrong (.rule tag nodeSpan children) p span := by
  constructor
  · intro hf
    unfold ruleFaults at hf
    split at hf
    · rename_i hblock
      obtain ⟨before, entry, behind, rfl, o, ho, hseen, heq⟩ := mem_repeatedRoots.mp hf
      obtain ⟨rfl, rfl⟩ := Prod.mk.inj heq
      obtain ⟨first, hfirst, hsame⟩ := hseen.resolve_left List.not_mem_nil
      obtain ⟨span, hspan⟩ := Option.isSome_iff_exists.mp (h entry (by simp))
      exact ⟨span, hspan, .root hblock hfirst hsame ho hspan⟩
    split at hf
    · rename_i htag
      subst htag
      obtain ⟨t, ht, hf⟩ := List.mem_flatMap.mp hf
      obtain ⟨nameSpan, tag, text, span, rfl, hreserved, rfl, rfl⟩ := mem_enumValueFaults.mp hf
      exact ⟨span, rfl, .enumValue ht hreserved⟩
    split at hf
    · rename_i htag
      subst htag
      obtain ⟨nameSpan, tag, span, clauses, rfl, rfl, rfl⟩ := mem_fragmentFaults.mp hf
      exact ⟨span, rfl, .fragment⟩
    split at hf
    · rename_i htag
      subst htag
      obtain ⟨t, ht, hf⟩ := List.mem_flatMap.mp hf
      obtain ⟨tag, text, span, rfl, hunknown, rfl, rfl⟩ := mem_locationFaults.mp hf
      exact ⟨span, rfl, .location ht hunknown⟩
    · exact nomatch hf
  · rintro ⟨span, rfl, hwrong⟩
    cases hwrong with
    | root block isBefore same repeats place =>
      rw [ruleFaults, if_pos block]
      exact mem_repeatedRoots.mpr
        ⟨_, _, _, rfl, _, repeats, .inr ⟨_, isBefore, same⟩, by rw [place]⟩
    | location child unknown =>
      rw [ruleFaults, if_neg (by decide), if_neg (by decide), if_neg (by decide), if_pos rfl]
      exact List.mem_flatMap.mpr ⟨_, child, mem_locationFaults.mpr ⟨_, _, _, rfl, unknown, rfl, rfl⟩⟩
    | enumValue child reserved =>
      rw [ruleFaults, if_neg (by decide), if_pos rfl]
      exact List.mem_flatMap.mpr
        ⟨_, child, mem_enumValueFaults.mpr ⟨_, _, _, _, rfl, reserved, rfl, rfl⟩⟩
    | fragment =>
      rw [ruleFaults, if_neg (by decide), if_neg (by decide), if_pos rfl]
      exact mem_fragmentFaults.mpr ⟨_, _, _, _, rfl, rfl, rfl⟩

end ParseTree

/-! The trees of texts. -/

/-- The words are terminals of their own. -/
theorem Rule.spelled (r : Rule) : r.tag ∈ spelledTags → ∀ cs ∈ r.alternatives,
    ∃ s ∈ Terminal.all, cs = [.literal s] ∧ s.tag ∉ ["INT", "FLOAT", "STRING"] := by
  cases r <;> decide

theorem Rule.inlined_of_spelled (r : Rule) : r.tag ∈ spelledTags → r.inlined = false := by
  cases r <;> decide

namespace ParseTree.IsPlaced

variable {t u : ParseTree} {w : List Token}

/-- Words are single tokens, and not those of literals. -/
theorem hasPlainWords (h : IsPlaced t w) : t.HasPlainWords := by
  intro tag span children hmem hspelled
  obtain ⟨before, run, after, -, hplaced⟩ := h.part hmem
  cases hplaced with
  | @rule r _ _ nonempty derives _ =>
    have hruleFaults : (ParseTree.rule r.tag (Token.spanOf run) children).ownFaults = [] := by
      have hnone : ∀ tag ∈ spelledTags, tag ∉ faultyTags := by decide
      have hnone := hnone _ hspelled
      simp only [faultyTags, List.mem_append, List.mem_cons, List.not_mem_nil, or_false,
        not_or] at hnone
      obtain ⟨hschema, henum, hfragment, hlocation⟩ := hnone
      rw [ownFaults, ruleFaults, if_neg hschema, if_neg henum, if_neg hfragment, if_neg hlocation]
    have hchild : ∀ v ∈ partsOf children, v.ownFaults = [] := by
      cases derives with
      | inlined inlined => simp [r.inlined_of_spelled hspelled] at inlined
      | node _ alternative body =>
        obtain ⟨s, -, rfl, hs⟩ := r.spelled hspelled _ alternative
        obtain ⟨a, rfl, rfl⟩ := body.terminal
        intro v hv
        split at hv
        · rw [partsOf_leaf.mp hv]
          exact tokenFaults_eq_nil hs
        · cases hv
    intro v hv
    rcases List.mem_cons.mp hv with rfl | hv
    · exact hruleFaults
    · exact hchild v hv

theorem span_isSome (h : IsPlaced t w) : t.span?.isSome = true := by
  obtain ⟨s, -, hspan⟩ := h.span
  rw [hspan]
  rfl

/-- A part of a tree has a fault of its own exactly if something is wrong with it. -/
theorem mem_ownFaults (h : IsPlaced t w) (hlexemes : ∀ a ∈ w, a.IsLexeme)
    (hshort : ∀ a ∈ w, a.terminal = .int → a.digitCount ≤ Json.maxIntegerDigits)
    (hu : u ∈ t.parts) {p : LiteralProblem} {place : Option Span} :
    (p, place) ∈ u.ownFaults ↔ ∃ span, place = some span ∧ u.IsWrong p span := by
  obtain ⟨before, run, after, rfl, hplaced⟩ := h.part hu
  cases hplaced with
  | @token a =>
    have ha : a ∈ before ++ [a] ++ after := by simp
    exact mem_tokenFaults (hlexemes a ha) (hshort a ha)
  | @rule r _ ts nonempty derives children =>
    refine mem_ruleFaults fun c hc => ?_
    obtain ⟨-, run', -, -, hplaced⟩ := children.part (mem_partsOf.mpr ⟨c, hc, mem_parts_self c⟩)
    exact hplaced.span_isSome

end ParseTree.IsPlaced

/-- A document that is not nested too deeply is refused for a literal or a name exactly if something in
its tree is wrong, and for one of the things that are. -/
theorem parseDocument_faults [Machine] {text : List Char} {t : ParseTree}
    (ht : parseTree .document text = .ok t) (hshort : HasShortIntegers .document text) :
    (t.calls ≤ Machine.calls →
      ((∃ p span, parseDocument text = .error (.conversion (.literal p span))) ↔
        ∃ u ∈ t.parts, ∃ p span, u.IsWrong p span)) ∧
    ∀ e, parseDocument text = .error e →
      (∃ u ∈ t.parts, ∃ p span, u.IsWrong p span ∧ e = .conversion (.literal p (some span))) ∨
        e = .conversion .tooDeep ∧ Machine.calls < t.calls := by
  obtain ⟨d, hd, -, hderives⟩ := parseTree_derivation ht
  have hplaced : IsPlaced t d.tokens := hderives.isPlaced rfl
  have hfault (p : LiteralProblem) (place : Option Span) : (p, place) ∈ t.faults ↔
      ∃ u ∈ t.parts, ∃ span, place = some span ∧ u.IsWrong p span := by
    rw [mem_faults t hplaced.hasPlainWords]
    exact exists_congr fun u => and_congr_right fun hu =>
      hplaced.mem_ownFaults (derive_tokens hd).isLexeme (hshort d hd) hu
  have hfinds := Conversion.finds_document (t := t)
  obtain ⟨d', hd', htree⟩ := parseTree_isTreeOf ht
  have hliterals := Conversion.gives_document Allows.literals (htree _ (hshort d' hd'))
  unfold parseDocument parseWith
  rw [ht]
  dsimp only
  cases hc : Conversion.document t with
  | ok doc =>
    rw [hc] at hfinds
    have hnone : t.faults = [] := hfinds
    refine ⟨fun _ => iff_of_false nofun ?_, nofun⟩
    rintro ⟨u, hu, p, span, hwrong⟩
    have hmem := (hfault p (some span)).mpr ⟨u, hu, span, rfl, hwrong⟩
    rw [hnone] at hmem
    exact List.not_mem_nil hmem
  | error e =>
    rw [hc] at hfinds hliterals
    rcases hliterals with ⟨p, place, rfl⟩ | rfl
    · obtain ⟨u, hu, span, rfl, hwrong⟩ := (hfault p place).mp (hfinds p place rfl)
      refine ⟨fun _ => iff_of_true ⟨p, some span, rfl⟩ ⟨u, hu, p, span, hwrong⟩, fun e he => ?_⟩
      cases he
      exact .inl ⟨u, hu, p, span, hwrong, rfl⟩
    · have hdeep : Machine.calls < t.calls :=
        Nat.lt_of_not_le fun hcalls => (Conversion.ne_tooDeep hcalls).2.1 hc
      refine ⟨fun hcalls => absurd hdeep hcalls.not_gt, fun e he => ?_⟩
      cases he
      exact .inr ⟨rfl, hdeep⟩

/-! The document `enum A { true }`. -/

def reservedWords : List Word :=
  [(.keyword .enum, "enum".toList), (.name, "A".toList), (.punctuator .braceLeft, ['{']),
    (.keyword .trueValue, "true".toList), (.punctuator .braceRight, ['}'])]

theorem reservedWords_isSpelling : ∀ w ∈ reservedWords, IsSpelling w.1 w.2 := by
  have hname : IsSpelling .name "A".toList := .name (by decide) fun k => by cases k <;> decide
  simpa [reservedWords] using ⟨.keyword .enum, hname, .punctuator .braceLeft,
    .keyword .trueValue, .punctuator .braceRight⟩

/-- Its derivation: an enumeration type whose one value has the name of a Boolean. -/
def reservedDerivation (s₁ s₂ s₃ s₄ s₅ : Span) : Derivation :=
  let rule (r : Rule) (children : List Derivation) : Derivation :=
    .node ⟨.rule r, children.map Derivation.symbol⟩ children
  let name (t : Terminal) (text : String) (s : Span) := rule .name [.leaf ⟨t, text.toList, s⟩]
  let entry := rule .enumValueDefinition [name (.keyword .trueValue) "true" s₄]
  let entries := .node ⟨.repetition .enumValues, [.nonterminal (.rule .enumValueDefinition)]⟩ [entry]
  let block := rule .enumValuesDefinition [.leaf ⟨.punctuator .braceLeft, ['{'], s₃⟩, entries,
    .leaf ⟨.punctuator .braceRight, ['}'], s₅⟩]
  let type := rule .enumTypeDefinition [.leaf ⟨.keyword .enum, "enum".toList, s₁⟩,
    name .name "A" s₂, block]
  let definition := rule .definition [rule .typeSystemDefinition [rule .typeDefinition [type]]]
  rule .document [.node ⟨.repetition .definitions, [.nonterminal (.rule .definition)]⟩ [definition]]

theorem exists_derive_reserved : ∃ s₁ s₂ s₃ s₄ s₅,
    derive .document (spellOut reservedWords) = .ok (reservedDerivation s₁ s₂ s₃ s₄ s₅) := by
  obtain ⟨s₁, s₂, s₃, s₄, s₅, htokens⟩ : ∃ s₁ s₂ s₃ s₄ s₅,
      tokensFrom .start reservedWords = (reservedDerivation s₁ s₂ s₃ s₄ s₅).tokens :=
    ⟨_, _, _, _, _, rfl⟩
  have hlexemes : ∀ a ∈ (reservedDerivation s₁ s₂ s₃ s₄ s₅).tokens, a.IsLexeme := by
    intro a ha
    refine Token.isLexeme_of_spelling (reservedWords_isSpelling a.word ?_)
    rw [← map_word_tokensFrom .start reservedWords, htokens]
    exact List.mem_map_of_mem ha
  obtain ⟨hword, hname, hleft, hvalue, hright⟩ : _ ∧ _ ∧ _ ∧ _ ∧ _ := by
    simpa [reservedDerivation, Derivation.tokens, Derivation.tokensOfList] using hlexemes
  have hof : (reservedDerivation s₁ s₂ s₃ s₄ s₅).IsOf .canonical := by
    simp only [reservedDerivation, Derivation.IsOf, Derivation.AllOf, Derivation.symbol,
      List.map_cons, List.map_nil, and_true, true_and]
    exact ⟨by decide, by decide, by decide, by decide, by decide, by decide, hword,
      ⟨by decide, hname⟩, by decide, hleft, ⟨by decide, by decide, by decide, hvalue⟩, hright⟩
  refine ⟨s₁, s₂, s₃, s₄, s₅, derive_complete hof rfl ?_⟩
  rw [← htokens]
  exact Input.readsAs_spellOut reservedWords_isSpelling .start

theorem exists_parseTree_reserved : ∃ t, parseTree .document (spellOut reservedWords) = .ok t ∧
    t.calls = 0 ∧ ∃ u ∈ t.parts, ∃ p span, u.IsWrong p span := by
  obtain ⟨_, s, _, s', _, hderive⟩ := exists_derive_reserved
  obtain ⟨s₁, s₂, s₃, s₄, s₅, s₆, htree⟩ : ∃ s₁ s₂ s₃ s₄ s₅ s₆,
      parseTree .document (spellOut reservedWords) = .ok (.rule "document" s₁
        [.rule "enum_type_definition" s₂ [.rule "name" s₃ [.token "NAME" (.ofList "A".toList) s],
          .rule "enum_values_definition" s₄ [.rule "enum_value_definition" s₅
            [.rule "name" s₆ [.token "TRUE" (.ofList "true".toList) s']]]]]) := by
    rw [parseTree, hderive]
    exact ⟨_, _, _, _, _, _, rfl⟩
  refine ⟨_, htree, rfl, .rule "enum_value_definition" s₅ [.rule "name" s₆ [.token "TRUE" "true" s']],
    by simp [ParseTree.parts, ParseTree.partsOf], _, s', .enumValue List.mem_cons_self ?_⟩
  exact List.mem_cons_self

/-- The name `true` is not that of a value. -/
theorem reservedWords_faults : ∃ t, parseTree .document (spellOut reservedWords) = .ok t ∧
    HasShortIntegers .document (spellOut reservedWords) ∧ t.calls ≤ @Machine.calls .usual ∧
    ∃ p span, @parseDocument .usual (spellOut reservedWords) =
      .error (.conversion (.literal p span)) := by
  obtain ⟨t, ht, hcalls, hwrong⟩ := exists_parseTree_reserved
  have hshort : HasShortIntegers .document (spellOut reservedWords) :=
    .of_length_le (by decide)
  have hcalls : t.calls ≤ @Machine.calls .usual := hcalls ▸ Nat.zero_le _
  exact ⟨t, ht, hshort, hcalls, ((@parseDocument_faults .usual _ _ ht hshort).1 hcalls).mpr hwrong⟩

end GraphQLDoc
