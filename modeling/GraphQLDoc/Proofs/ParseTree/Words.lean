import GraphQLDoc.Proofs.ParseTree.Alternatives
import GraphQLDoc.Proofs.ParseTree.Reading

/-!
Where words end. A word is a name or a keyword. Wherever a name may stand, a word is read up to its
last letter. Elsewhere a keyword is read without regard to what follows, so that it may run into the
next word: `scalarA` is read as `scalar A`.
-/
namespace GraphQLDoc

def Terminal.isWord (t : Terminal) : Bool := t = .name || t.isKeyword

/-- No letter, digit or underscore follows the token in the text. -/
def Token.IsWhole (text : List Char) (t : Token) : Prop :=
  ∀ c ∈ (text.drop t.span.last.offset).head?, isNameRest c = false

/-- A name is matched up to its last letter. -/
theorem Pattern.name_ends {cs : List Char} {n : Nat} (h : name cs = some n) :
    ∀ c ∈ (cs.drop n).head?, isNameRest c = false := by
  cases cs with
  | nil => cases h
  | cons a cs =>
    simp only [name, Option.ite_none_right_eq_some, Option.some.injEq] at h
    obtain ⟨-, rfl⟩ := h
    have hrest : cs.drop (cs.takeWhile isNameRest).length = cs.dropWhile isNameRest := by
      have hleft := @List.drop_left _ (cs.takeWhile isNameRest) (cs.dropWhile isNameRest)
      rwa [List.takeWhile_append_dropWhile] at hleft
    rw [Nat.add_comm, List.drop_succ_cons, hrest]
    intro c hc
    have hhead := List.head?_dropWhile_not isNameRest cs
    rw [Option.mem_def.mp hc] at hhead
    simpa using hhead

/-- Where a name is wanted, words are matched as names are. -/
theorem Match.name_of_first? {wanted : List Terminal} {text : List Char} {m : Match}
    (h : first? wanted text = some m) (hword : m.terminal.isWord = true) (hname : .name ∈ wanted) :
    Pattern.name text = some m.length := by
  obtain ⟨u, -, hu⟩ := List.exists_of_findSome?_eq_some h
  cases u with
  | name =>
    obtain ⟨n, hn, rfl⟩ := Option.map_eq_some_iff.mp hu
    exact hn
  | keyword k =>
    rw [one?, if_pos hname] at hu
    cases hu
  | _ =>
    obtain ⟨n, -, rfl⟩ := Option.map_eq_some_iff.mp hu
    cases hword

/-- Where no name is wanted, a keyword is matched without regard to what follows it. -/
theorem Match.first?_keyword {wanted : List Terminal} {k : Keyword} (hk : .keyword k ∈ wanted)
    (hname : .name ∉ wanted) (rest : List Char) :
    first? wanted (k.word.toList ++ rest) = some ⟨.keyword k, k.word.toList.length⟩ := by
  have hword (j : Keyword) : one? wanted (k.word.toList ++ rest) (.keyword j) =
      if j = k then some ⟨.keyword k, k.word.toList.length⟩ else none := by
    by_cases hj : j = k
    · subst hj
      simp [one?, hname, Pattern.word]
    · have hfront : ¬ j.word.toList <+: k.word.toList ++ rest := fun hfront =>
        hj ((List.prefix_or_prefix_of_prefix hfront (List.prefix_append _ rest)).elim
          Keyword.eq_of_prefix fun h => (Keyword.eq_of_prefix h).symm)
      simp [one?, hname, Pattern.word, hfront, hj]
  obtain ⟨c, cs, hspelling, hkind⟩ := (IsSpelling.keyword k).kind_eq
  refine first?_eq (fun t ht => ?_) ⟨_, hk, by rw [hword, if_pos rfl]⟩
  cases t with
  | name => exact absurd ht hname
  | keyword j =>
    rw [hword]
    split
    · exact .inr rfl
    · exact .inl rfl
  | _ =>
    rw [hspelling]
    exact .inl (one?_eq_none (by simp [hkind, Terminal.kind]))

namespace Input

theorem token?_keyword {wanted : List Terminal} {k : Keyword} (hk : .keyword k ∈ wanted)
    (hname : .name ∉ wanted) (p : Position) {rest : List Char} :
    token? wanted ⟨p, k.word.toList ++ rest⟩ =
      some (⟨.keyword k, k.word.toList, ⟨p, p.after k.word.toList⟩⟩,
        ⟨p.after k.word.toList, rest⟩) := by
  simp only [token?, Match.first?_keyword hk hname rest, Option.map_some, drop, List.take_left,
    List.drop_left]

/-- The input is the rest of a text from its position on. -/
def IsRestOf (i : Input) (text : List Char) : Prop := i.text = text.drop i.position.offset

variable {text : List Char} {i : Input}

theorem IsRestOf.drop (h : i.IsRestOf text) (n : Nat) : (i.drop n).IsRestOf text := by
  show i.text.drop n = text.drop (i.position.after (i.text.take n)).offset
  rw [Position.after_offset, List.length_take, h, List.drop_drop, ← List.drop_drop, ← h]
  rcases Nat.le_total n i.text.length with hn | hn
  · rw [Nat.min_eq_left hn, ← List.drop_drop, ← h]
  · rw [Nat.min_eq_right hn, ← List.drop_drop, ← h, List.drop_eq_nil_of_le hn, List.drop_length]

theorem IsRestOf.token? {wanted : List Terminal} {rest : Input} {t : Token} (h : i.IsRestOf text)
    (ht : i.token? wanted = some (t, rest)) : rest.IsRestOf text := by
  obtain ⟨m, -, heq⟩ := Option.map_eq_some_iff.mp ht
  obtain ⟨-, rfl⟩ := Prod.mk.inj heq
  exact h.drop m.length

/-- Where a name is wanted, a word is read as a whole. -/
theorem IsRestOf.isWhole {wanted : List Terminal} {rest : Input} {t : Token} (h : i.IsRestOf text)
    (ht : i.token? wanted = some (t, rest)) (hword : t.terminal.isWord = true)
    (hname : .name ∈ wanted) : t.IsWhole text := by
  obtain ⟨hsplit, hspan, -, -⟩ := token?_spec ht
  have hrest : rest.text = text.drop t.span.last.offset := by
    rw [hspan]
    exact h.token? ht
  obtain ⟨m, hm, heq⟩ := Option.map_eq_some_iff.mp ht
  obtain ⟨rfl, rfl⟩ := Prod.mk.inj heq
  rw [Token.IsWhole, ← hrest]
  exact Pattern.name_ends (Match.name_of_first? hm hword hname)

end Input

namespace Stack

/-- The stack behind some tokens. -/
def readAll? (s : Stack) (ts : List Token) : Option Stack := ts.foldlM read? s

theorem name_mem_wanted {s : Stack} {k : Keyword} (hk : k ∈ Automaton.valueWords)
    (h : .keyword k ∈ s.wanted) : .name ∈ s.wanted := by
  obtain ⟨l, hl, rfl⟩ := List.mem_filterMap.mp h
  exact List.mem_filterMap.mpr ⟨_, Automaton.name_mem_lookaheads hk hl, rfl⟩

theorem terminal_mem_wanted {s s' : Stack} {t : Token} (h : s.read? t = some s') :
    t.terminal ∈ s.wanted := by
  obtain ⟨settled, q, hfeed, -⟩ := read?_eq_some.mp h
  cases ha : s.top.action? (some t.terminal) with
  | none =>
    rw [feed_of_none ha] at hfeed
    cases hfeed
  | some a => exact mem_wanted ha

theorem Reads.uncons {d : Derivation} {s : Stack} {t : Token} {ts : List Token}
    (h : Reads d s (t :: ts)) :
    t.terminal ∈ s.wanted ∧ ∃ s', s.read? t = some s' ∧ Reads d s' ts := by
  cases h with
  | next wanted feed rest => exact ⟨wanted, _, read?_eq_some.mpr ⟨_, _, feed, rfl⟩, rest⟩

theorem Reads.result {d : Derivation} {s : Stack} (h : Reads d s []) :
    (s.feed none).1.result? = some d := by
  cases h with
  | done result => exact result

/-- Each token of a run is read where the tokens before it have led. -/
theorem Run.exists_stack {d : Derivation} {s : Stack} {i : Input} {text : List Char}
    {before after : List Token} {t : Token} (h : Run d s i (before ++ t :: after))
    (hi : i.IsRestOf text) :
    ∃ (s' : Stack) (j rest : Input), s.readAll? before = some s' ∧ j.IsRestOf text ∧
      j.token? s'.wanted = some (t, rest) ∧ t.terminal ∈ s'.wanted := by
  induction before generalizing s i with
  | nil =>
    cases h with
    | next token read tail =>
      exact ⟨s, i.skipIgnored, _, rfl, hi.drop _, token, terminal_mem_wanted read⟩
  | cons u before ih =>
    cases h with
    | @next _ s' _ rest _ _ token read tail =>
      obtain ⟨s'', j, rest', hall, hj⟩ := ih tail ((hi.drop _).token? token)
      refine ⟨s'', j, rest', ?_, hj⟩
      rw [readAll?, List.foldlM_cons, read]
      exact hall

end Stack

/-- Each word of a text that is derived is read as a whole if a name could stand in its place, which
is so for names and for the words `true`, `false` and `null`. -/
theorem derive_words {start : Start} {text : List Char} {d : Derivation}
    (h : derive start text = .ok d) {before after : List Token} {t : Token}
    (htokens : d.tokens = before ++ t :: after) (hword : t.terminal.isWord = true) :
    ∃ s, Stack.readAll? ⟨start, []⟩ before = some s ∧ t.terminal ∈ s.wanted ∧
      (.name ∈ s.wanted → t.IsWhole text) ∧
      (t.terminal = .name ∨ t.terminal ∈ Automaton.valueWords.map .keyword → .name ∈ s.wanted) := by
  have hrun := derive_eq_ok_iff.mp h
  rw [htokens] at hrun
  obtain ⟨s, j, rest, hall, hj, htoken, hwanted⟩ :=
    hrun.exists_stack (show (Input.ofText text).IsRestOf text from rfl)
  refine ⟨s, hall, hwanted, hj.isWhole htoken hword, ?_⟩
  rintro (hname | hvalue)
  · exact hname ▸ hwanted
  · obtain ⟨k, hk, hterminal⟩ := List.mem_map.mp hvalue
    exact Stack.name_mem_wanted hk (hterminal ▸ hwanted)

/-- In `scalarA` the keyword runs into the name. -/
theorem joinedText_words : ∃ d before t after, derive .document "scalarA".toList = .ok d ∧
    d.tokens = before ++ t :: after ∧ t.terminal.isWord = true ∧ ¬ t.IsWhole "scalarA".toList := by
  let middle : Position := .after .start "scalar".toList
  let word : Token := ⟨.keyword .scalar, "scalar".toList, ⟨.start, middle⟩⟩
  let name : Token := ⟨.name, "A".toList, ⟨middle, middle.after "A".toList⟩⟩
  have hname : IsSpelling .name "A".toList := .name (by decide) fun k => by cases k <;> decide
  have hlexemes : word.IsLexeme ∧ name.IsLexeme :=
    ⟨Token.isLexeme_of_spelling (.keyword .scalar), Token.isLexeme_of_spelling hname⟩
  have hstart : .name ∉ Stack.wanted ⟨.document, []⟩ := fun h => by
    obtain ⟨l, hl, rfl⟩ := List.mem_filterMap.mp h
    exact Automaton.name_notMem_start hl
  have hreads : Stack.Reads (exampleDerivation word name) ⟨.document, []⟩ [word, name] :=
    Stack.reads_of_isOf (isOf_exampleDerivation rfl rfl hlexemes) rfl
  obtain ⟨hwanted, s, hs, hreads⟩ := hreads.uncons
  obtain ⟨hwanted', s', hs', hreads⟩ := hreads.uncons
  have hfirst : (Input.skipIgnored ⟨.start, Keyword.scalar.word.toList ++ "A".toList⟩).token?
      (Stack.wanted ⟨.document, []⟩) = some (word, ⟨middle, "A".toList ++ []⟩) := by
    rw [Input.skipIgnored_of_spelling (.keyword .scalar)]
    exact Input.token?_keyword hwanted hstart .start
  have hsecond : (Input.skipIgnored ⟨middle, "A".toList ++ []⟩).token? s.wanted =
      some (name, ⟨middle.after "A".toList, []⟩) := by
    rw [Input.skipIgnored_of_spelling hname]
    exact Input.token?_of_spelling hname .nil middle hwanted'
  have hrun : Stack.Run (exampleDerivation word name) ⟨.document, []⟩ (.ofText "scalarA".toList)
      [word, name] :=
    .next hfirst hs (.next hsecond hs' (.done rfl hreads.result))
  refine ⟨exampleDerivation word name, [], word, [name], derive_eq_ok_iff.mpr hrun, rfl, rfl, ?_⟩
  intro h
  exact absurd (h 'A' rfl) (by decide)

/-- In `scalar A` the name is read as a whole. -/
theorem exampleText_words : ∃ d before t after s, derive .document exampleText = .ok d ∧
    d.tokens = before ++ t :: after ∧ t.terminal.isWord = true ∧
    Stack.readAll? ⟨.document, []⟩ before = some s ∧ .name ∈ s.wanted ∧ t.IsWhole exampleText := by
  obtain ⟨word, name, hwords, hd⟩ := exists_derive_exampleText
  have htokens : (exampleDerivation word name).tokens = [word] ++ name :: [] := rfl
  have hname : name.terminal = .name := by
    simp only [exampleWords, Token.word, List.cons.injEq, Prod.mk.injEq] at hwords
    exact hwords.2.1.1
  have hword : name.terminal.isWord = true := by rw [hname]; rfl
  obtain ⟨s, hall, -, hwhole, hwanted⟩ := derive_words hd htokens hword
  exact ⟨_, _, _, _, s, hd, htokens, hword, hall, hwanted (.inl hname), hwhole (hwanted (.inl hname))⟩

end GraphQLDoc
