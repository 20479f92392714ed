import GraphQLDoc.Proofs.ParseTree.Blocks
import GraphQLDoc.Proofs.Token.Place

/-!
Three quotes where a token begins. A block string is wanted wherever a string is, and it is tried
first, so that three quotes open a block string whenever three quotes follow them to close it. A
string that is directly followed by a quote is one that is not empty, since strings need no separator
between them.
-/
namespace GraphQLDoc

theorem Terminal.kind_eq_quoted {t : Terminal} (h : t.kind = .quoted) :
    t = .string ∨ t = .blockString := by
  cases t with
  | string => exact .inl rfl
  | blockString => exact .inr rfl
  | _ => exact nomatch h

namespace Pattern

/-- A terminal matches only what begins as its kind does. -/
theorem kind_of {t : Terminal} {c : Char} {cs : List Char} {n : Nat}
    (h : Pattern.of t (c :: cs) = some n) : t.kind = .of c := by
  refine Decidable.byContradiction fun hne => ?_
  have hnone : Match.one? [] (c :: cs) t = none := Match.one?_eq_none (Ne.symm hne)
  cases t <;> simp_all [Match.one?, Pattern.of]

/-- Three quotes are a block string when three quotes follow. -/
theorem exists_blockString {rest : List Char} (h : HasQuotes rest) :
    ∃ n, blockString (Block.quotes ++ rest) = some n := by
  obtain ⟨n, -, hn⟩ := @blockBody_of_quotes 3 none rest h
  exact ⟨n, hn⟩

end Pattern

namespace Match

/-- A string is matched where no block string is. -/
theorem first?_string {wanted : List Terminal} {text : List Char} {n : Nat}
    (hwanted : .string ∈ wanted) (h : Pattern.string text = some n)
    (hblock : Pattern.blockString text = none) : first? wanted text = some ⟨.string, n⟩ := by
  have hstring : one? wanted text .string = some ⟨.string, n⟩ := by
    rw [one?, h]
    rfl
  obtain ⟨c, cs, rfl⟩ : ∃ c cs, text = c :: cs := by
    cases text with
    | nil => cases h
    | cons c cs => exact ⟨c, cs, rfl⟩
  have hquoted : Terminal.string.kind = .of c := Pattern.kind_of h
  refine first?_eq (fun t _ => ?_) ⟨_, hwanted, hstring⟩
  by_cases ht : .of c = t.kind
  · rcases Terminal.kind_eq_quoted (ht.symm.trans hquoted.symm) with rfl | rfl
    · exact .inr hstring
    · exact .inl (by rw [one?, hblock]; rfl)
  · exact .inl (one?_eq_none ht)

end Match

theorem Stack.blockString_mem_wanted {s : Stack} (h : .string ∈ s.wanted) :
    .blockString ∈ s.wanted := by
  obtain ⟨l, hl, rfl⟩ := List.mem_filterMap.mp h
  exact List.mem_filterMap.mpr ⟨_, Automaton.blockString_mem_lookaheads hl, rfl⟩

/-- A token that begins with three quotes, behind which three quotes follow, is a block string. -/
theorem derive_quotes {start : Start} {text rest : List Char} {d : Derivation}
    (h : derive start text = .ok d) {t : Token} (ht : t ∈ d.tokens)
    (hopen : text.drop t.span.first.offset = Block.quotes ++ rest) (hclosed : HasQuotes rest) :
    t.terminal = .blockString := by
  obtain ⟨before, after, htokens⟩ := List.append_of_mem ht
  have hrun := derive_eq_ok_iff.mp h
  rw [htokens] at hrun
  obtain ⟨s, j, behind, -, hj, htoken, hwanted⟩ :=
    hrun.exists_stack (show (Input.ofText text).IsRestOf text from rfl)
  obtain ⟨-, hspan, -, hmatch⟩ := Input.token?_spec htoken
  have htext : j.text = Block.quotes ++ rest := by
    rw [← hopen, hspan]
    exact hj
  rw [htext] at hmatch
  have hblock : .blockString ∈ s.wanted := by
    rcases Terminal.kind_eq_quoted (Pattern.kind_of hmatch) with hstring | hblock
    · exact Stack.blockString_mem_wanted (hstring ▸ hwanted)
    · exact hblock ▸ hwanted
  obtain ⟨n, hn⟩ := Pattern.exists_blockString hclosed
  have hfirst := Match.first?_blockString hblock hn
  rw [← htext, Input.first?_of_token? htoken] at hfirst
  exact congrArg Match.terminal (Option.some.inj hfirst)

/-- The derivation of a list of two strings. -/
def pairDerivation (left first second right : Token) : Derivation :=
  let rule (r : Rule) (children : List Derivation) : Derivation :=
    .node ⟨.rule r, children.map Derivation.symbol⟩ children
  let value (t : Token) := rule .value [rule .stringValue [.leaf t]]
  let values : Derivation :=
    .node ⟨.repetition .values, [.nonterminal (.repetition .values), .nonterminal (.rule .value)]⟩
      [.node ⟨.repetition .values, [.nonterminal (.rule .value)]⟩ [value first], value second]
  rule .valueLiteral [rule .value [rule .listValue [.leaf left, values, .leaf right]]]

theorem isOf_pairDerivation {left first second right : Token}
    (hterminals : left.terminal = .punctuator .bracketLeft ∧ first.terminal = .string ∧
      second.terminal = .string ∧ right.terminal = .punctuator .bracketRight)
    (hlexemes : ∀ t ∈ [left, first, second, right], t.IsLexeme) :
    (pairDerivation left first second right).IsOf .canonical := by
  have hall : ∀ t ∈ [left, first, second, right], Grammar.canonical.lexeme t := hlexemes
  simp only [List.mem_cons, List.not_mem_nil, or_false, forall_eq_or_imp, forall_eq] at hall
  obtain ⟨hleft, hfirst, hsecond, hright⟩ := hterminals
  simp only [pairDerivation, Derivation.IsOf, Derivation.AllOf, Derivation.symbol, List.map_cons,
    List.map_nil, hleft, hfirst, hsecond, hright, hall, and_true, true_and]
  decide

/-- A string that is not the front of a block string is read as such, with no break behind it. -/
theorem Input.readsAs_string {x rest : List Char} (h : Pattern.string (x ++ rest) = some x.length)
    (hblock : Pattern.blockString (x ++ rest) = none) (p : Position) {ts : List Token}
    (tail : (⟨p.after x, rest⟩ : Input).ReadsAs ts) :
    (⟨p, x ++ rest⟩ : Input).ReadsAs (⟨.string, x, ⟨p, p.after x⟩⟩ :: ts) := by
  have hx : x ≠ [] := List.length_pos_iff.mp (Pattern.of_spec (t := .string) h).1
  have hignored : ignoredLength false (x ++ rest) = 0 := by
    unfold Pattern.string at h
    split at h
    · rename_i tail heq
      rw [heq]
      rfl
    · cases h
  exact readsAs_of_first? hx hignored (fun _ ht => Match.first?_string ht h hblock) p tail

theorem Input.readsAs_punctuator (q : Punctuator) {rest : List Char} (p : Position)
    {ts : List Token} (tail : (⟨p.after q.word.toList, rest⟩ : Input).ReadsAs ts) :
    (⟨p, q.word.toList ++ rest⟩ : Input).ReadsAs
      (⟨.punctuator q, q.word.toList, ⟨p, p.after q.word.toList⟩⟩ :: ts) :=
  readsAs_of_spelling (.punctuator q) (fun hmark => absurd rfl hmark) p tail

/-- Two strings in a list need no separator. -/
theorem derive_pair {x y : List Char} (hx : Pattern.string (x ++ (y ++ [']'])) = some x.length)
    (hblock : Pattern.blockString (x ++ (y ++ [']'])) = none)
    (hy : Pattern.string (y ++ [']']) = some y.length)
    (hblock' : Pattern.blockString (y ++ [']']) = none) :
    ∃ d t, derive .value ('[' :: (x ++ (y ++ [']']))) = .ok d ∧ t ∈ d.tokens ∧
      t.terminal = .string ∧ t.text = x ∧ t.span.last.offset = x.length + 1 := by
  let p : Position := Position.start.after ['[']
  let left : Token := ⟨.punctuator .bracketLeft, ['['], ⟨.start, p⟩⟩
  let first : Token := ⟨.string, x, ⟨p, p.after x⟩⟩
  let second : Token := ⟨.string, y, ⟨p.after x, (p.after x).after y⟩⟩
  let last : Position := (p.after x).after y
  let right : Token := ⟨.punctuator .bracketRight, [']'], ⟨last, last.after [']']⟩⟩
  have hlexemes : ∀ t ∈ [left, first, second, right], t.IsLexeme := by
    simp only [List.mem_cons, List.not_mem_nil, or_false, forall_eq_or_imp, forall_eq]
    exact ⟨Token.isLexeme_of_spelling (.punctuator .bracketLeft), ⟨_, _, hx, by simp [first]⟩,
      ⟨_, _, hy, by simp [second]⟩, Token.isLexeme_of_spelling (.punctuator .bracketRight)⟩
  have hreads : (Input.ofText ('[' :: (x ++ (y ++ [']'])))).ReadsAs [left, first, second, right] :=
    Input.readsAs_punctuator .bracketLeft .start (Input.readsAs_string hx hblock p
      (Input.readsAs_string hy hblock' (p.after x)
        (Input.readsAs_punctuator .bracketRight last (.done rfl))))
  refine ⟨pairDerivation left first second right, first,
    derive_complete (isOf_pairDerivation ⟨rfl, rfl, rfl, rfl⟩ hlexemes) rfl hreads, ?_, rfl, rfl, ?_⟩
  · exact List.mem_cons_of_mem _ List.mem_cons_self
  · show (p.after x).offset = _
    rw [Position.after_offset]
    exact Nat.add_comm 1 _

/-- A string of a text that is derived, directly followed by a quote, is not the empty one that the
first two of three quotes make, unless no three quotes follow to close what these open. -/
theorem derive_strings {start : Start} {text rest : List Char} {d : Derivation}
    (h : derive start text = .ok d) {t : Token} (ht : t ∈ d.tokens) (hstring : t.terminal = .string)
    (hquote : text.drop t.span.last.offset = '"' :: rest) :
    t.text ≠ ['"', '"'] ∨ ¬ HasQuotes rest := by
  refine Decidable.or_iff_not_imp_left.mpr fun hempty hclosed => ?_
  have hempty : t.text = ['"', '"'] := Decidable.not_not.mp hempty
  have hlies := (derive_tokens h).lie.1 t ht
  have hopen : text.drop t.span.first.offset = Block.quotes ++ rest := by
    rw [hlies.drop_first, hempty, hquote]
    rfl
  exact nomatch hstring.symm.trans (derive_quotes h ht hopen hclosed)

/-- Directly behind a string another one may begin, and so it may behind two quotes that open a block
string without an end. -/
theorem pairedTexts_strings :
    (∃ d t rest, derive .value "[\"a\"\"b\"]".toList = .ok d ∧ t ∈ d.tokens ∧ t.terminal = .string ∧
      "[\"a\"\"b\"]".toList.drop t.span.last.offset = '"' :: rest) ∧
    ∃ d t rest, derive .value "[\"\"\"\"]".toList = .ok d ∧ t ∈ d.tokens ∧ t.terminal = .string ∧
      "[\"\"\"\"]".toList.drop t.span.last.offset = '"' :: rest := by
  obtain ⟨d, t, hd, ht, hstring, -, hlast⟩ :=
    derive_pair (x := "\"a\"".toList) (y := "\"b\"".toList) rfl rfl rfl rfl
  obtain ⟨d', t', hd', ht', hstring', -, hlast'⟩ :=
    derive_pair (x := "\"\"".toList) (y := "\"\"".toList) rfl rfl rfl rfl
  exact ⟨⟨d, t, _, hd, ht, hstring, by rw [hlast]; rfl⟩,
    ⟨d', t', _, hd', ht', hstring', by rw [hlast']; rfl⟩⟩

/-- The string `"a"` directly in front of another is not empty. -/
theorem pairedText_strings : ∃ d t rest, derive .value "[\"a\"\"b\"]".toList = .ok d ∧
    t ∈ d.tokens ∧ t.terminal = .string ∧
    "[\"a\"\"b\"]".toList.drop t.span.last.offset = '"' :: rest ∧
    (t.text ≠ ['"', '"'] ∨ ¬ HasQuotes rest) := by
  obtain ⟨d, t, hd, ht, hstring, -, hlast⟩ :=
    derive_pair (x := "\"a\"".toList) (y := "\"b\"".toList) rfl rfl rfl rfl
  have hquote : "[\"a\"\"b\"]".toList.drop t.span.last.offset = '"' :: ['b', '"', ']'] := by
    rw [hlast]
    rfl
  exact ⟨d, t, _, hd, ht, hstring, hquote, derive_strings hd ht hstring hquote⟩

end GraphQLDoc
