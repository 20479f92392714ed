import GraphQLDoc.Proofs.ParseTree.Soundness
import GraphQLDoc.Proofs.Token.Split

/-!
The parser uses up the text token by token: the tokens of the pieces on its stack are those that it
has read, in their order, and the rest of the text splits into those that it is going to read. So the
runs that derive a text take the token at the front of the input, among the terminals that the stack
wants, one by one.
-/
namespace GraphQLDoc

namespace Input

theorem take_skipIgnored (i : Input) :
    ∃ gap, IsIgnored gap ∧ i.text = gap ++ i.skipIgnored.text ∧
      i.skipIgnored.position = i.position.after gap :=
  ⟨_, (ignoredLength_spec i.text).1, (List.take_append_drop _ i.text).symm, rfl⟩

/-- What is read as a token is a match of its terminal at its place. -/
theorem token?_spec {wanted : List Terminal} {i rest : Input} {t : Token}
    (h : i.token? wanted = some (t, rest)) :
    i.text = t.text ++ rest.text ∧ t.span = ⟨i.position, rest.position⟩ ∧
      rest.position = i.position.after t.text ∧
      Pattern.of t.terminal i.text = some t.text.length := by
  obtain ⟨m, hm, heq⟩ := Option.map_eq_some_iff.mp h
  obtain ⟨rfl, rfl⟩ := Prod.mk.inj heq
  obtain ⟨u, -, hu⟩ := List.exists_of_findSome?_eq_some hm
  have hmatch := Match.one?_spec hu
  have hlength : (i.text.take m.length).length = m.length :=
    List.length_take_of_le (Pattern.of_spec hmatch).2
  exact ⟨(List.take_append_drop m.length i.text).symm, rfl, rfl, by rw [hlength]; exact hmatch⟩

theorem first?_of_token? {wanted : List Terminal} {i rest : Input} {t : Token}
    (h : i.token? wanted = some (t, rest)) :
    Match.first? wanted i.text = some ⟨t.terminal, t.text.length⟩ := by
  obtain ⟨m, hm, heq⟩ := Option.map_eq_some_iff.mp h
  obtain ⟨rfl, rfl⟩ := Prod.mk.inj heq
  obtain ⟨u, -, hu⟩ := List.exists_of_findSome?_eq_some hm
  rw [hm, List.length_take_of_le (Pattern.of_spec (Match.one?_spec hu)).2]

theorem token?_of_first? {wanted : List Terminal} {i : Input} {t : Terminal} {x rest : List Char}
    (htext : i.text = x ++ rest) (h : Match.first? wanted i.text = some ⟨t, x.length⟩) :
    i.token? wanted = some (⟨t, x, ⟨i.position, i.position.after x⟩⟩, ⟨i.position.after x, rest⟩) := by
  obtain ⟨p, text⟩ := i
  obtain rfl : text = x ++ rest := htext
  simp only [token?, h, Option.map_some, drop, List.take_left, List.drop_left]

/-- What is read as a token behind ignored text. -/
theorem token?_skipIgnored {i rest : Input} {wanted : List Terminal} {t : Token}
    (h : i.skipIgnored.token? wanted = some (t, rest)) :
    ∃ gap, IsIgnored gap ∧ i.text = gap ++ (t.text ++ rest.text) ∧
      t.span = ⟨i.position.after gap, rest.position⟩ ∧ rest.position = t.span.first.after t.text ∧
      Pattern.of t.terminal (t.text ++ rest.text) = some t.text.length := by
  obtain ⟨gap, hgap, htext, hposition⟩ := i.take_skipIgnored
  obtain ⟨hsplit, hspan, hrest, hmatch⟩ := token?_spec h
  rw [hposition] at hspan hrest
  rw [hsplit] at htext hmatch
  exact ⟨gap, hgap, htext, hspan, by rw [hspan]; exact hrest, hmatch⟩

theorem SplitsInto.skip {i rest : Input} {wanted : List Terminal} {t : Token} {ts : List Token}
    (h : i.skipIgnored.token? wanted = some (t, rest)) (tail : rest.SplitsInto ts) :
    i.SplitsInto (t :: ts) := by
  obtain ⟨gap, hgap, htext, hspan, hrest, hmatch⟩ := token?_skipIgnored h
  exact .next hgap htext hspan hrest hmatch tail

end Input

namespace Stack

/-- The tokens that have been read. -/
def tokens (s : Stack) : List Token :=
  Derivation.tokensOfList (s.frames.map (·.derivation)).reverse

theorem tokens_push (s : Stack) (q : Nat) (d : Derivation) :
    (s.push q d).tokens = s.tokens ++ d.tokens := by
  simp [tokens, push, Derivation.tokensOfList_append, Derivation.tokensOfList]

theorem tokens_reduce? {s t : Stack} {p : Production} (h : s.reduce? p = some t) :
    t.tokens = s.tokens := by
  simp only [reduce?] at h
  split at h
  · cases h
  · obtain ⟨q, -, rfl⟩ := Option.map_eq_some_iff.mp h
    rw [tokens_push, Derivation.tokens, tokens, tokens, ← Derivation.tokensOfList_append,
      ← List.reverse_append, ← List.map_append, List.take_append_drop]

theorem tokens_settle (l : Lookahead) (n : Nat) (s : Stack) :
    (Stack.settle l n s).1.tokens = s.tokens := by
  induction n generalizing s with
  | zero => rfl
  | succ n ih =>
    unfold Stack.settle
    split
    case h_1 => rfl
    case h_2 => rfl
    case h_3 p ha =>
      split
      case h_1 => rfl
      case h_2 t hr => rw [ih, tokens_reduce? hr]

theorem tokens_feed {s t : Stack} {l : Lookahead} {q? : Option Nat} (h : s.feed l = (t, q?)) :
    t.tokens = s.tokens := by
  rw [show t = (s.feed l).1 from (congrArg Prod.fst h).symm]
  exact tokens_settle l _ s

theorem tokens_result? {s : Stack} {d : Derivation} (h : s.result? = some d) :
    d.tokens = s.tokens := by
  unfold result? at h
  split at h
  · rename_i hframes
    obtain rfl := Option.some.inj (Option.ite_none_right_eq_some.mp h).2
    simp [tokens, hframes, Derivation.tokensOfList]
  · exact nomatch h

end Stack

namespace Parse

variable {text : List Char} {stack next : Stack} {input rest : Input} {d : Derivation}

/-- The token that a step reads. -/
theorem token?_of_more (h : step text stack input = .ok (.more next rest)) :
    ∃ t, next.tokens = stack.tokens ++ [t] ∧
      input.skipIgnored.token? stack.wanted = some (t, rest) := by
  simp only [step] at h
  split at h
  · split at h <;> simp at h
  · split at h
    · rename_i token rest' htoken
      split at h
      · rename_i settled q hfeed
        obtain ⟨rfl, rfl⟩ := by simpa using h
        refine ⟨token, ?_, htoken⟩
        rw [Stack.tokens_push, Stack.tokens_feed hfeed, Derivation.tokens]
      · simp at h
    · split at h <;> simp at h

theorem tokens_of_done (h : step text stack input = .ok (.done d)) :
    d.tokens = stack.tokens ∧ input.SplitsInto [] := by
  simp only [step] at h
  split at h
  · rename_i hnil
    split at h
    · rename_i hresult
      obtain rfl := by simpa using h
      obtain ⟨gap, hgap, htext, -⟩ := input.take_skipIgnored
      rw [hnil, List.append_nil] at htext
      refine ⟨?_, .done (htext ▸ hgap)⟩
      exact (Stack.tokens_result? hresult).trans (Stack.tokens_settle none _ stack)
    · simp at h
  · split at h
    · split at h <;> simp at h
    · split at h <;> simp at h

theorem loop_tokens {fuel : Nat} (h : loop text fuel stack input = .ok d) :
    ∃ ts, d.tokens = stack.tokens ++ ts ∧ input.SplitsInto ts := by
  induction fuel generalizing stack input with
  | zero => simp [loop] at h
  | succ n ih =>
    unfold loop at h
    split at h
    · simp at h
    · rename_i hstep
      obtain rfl := Except.ok.inj h
      obtain ⟨htokens, hsplit⟩ := tokens_of_done hstep
      exact ⟨[], by rw [htokens, List.append_nil], hsplit⟩
    · rename_i hstep
      obtain ⟨t, hnext, htoken⟩ := token?_of_more hstep
      obtain ⟨ts, htokens, hts⟩ := ih h
      exact ⟨t :: ts, by rw [htokens, hnext, List.append_assoc]; rfl, .skip htoken hts⟩

end Parse

/-- The text splits into the tokens of its derivation. -/
theorem derive_tokens {start : Start} {text : List Char} {d : Derivation}
    (h : derive start text = .ok d) : (Input.ofText text).SplitsInto d.tokens := by
  obtain ⟨ts, htokens, hsplit⟩ := Parse.loop_tokens h
  have hempty : Stack.tokens ⟨start, []⟩ = [] := rfl
  rw [hempty, List.nil_append] at htokens
  rw [htokens]
  exact hsplit

/-! Runs of the parser. -/

namespace Stack

/-- The stack behind one more token. -/
def read? (s : Stack) (t : Token) : Option Stack :=
  match s.feed (some t.terminal) with
  | (settled, some q) => some (settled.push q (.leaf t))
  | (_, none) => none

/-- The parser reads the tokens up to the end of the input, and has derived `d` then. -/
inductive Run (d : Derivation) : Stack → Input → List Token → Prop where
  | done {s : Stack} {i : Input} (ends : i.skipIgnored.text = [])
      (result : (s.feed none).1.result? = some d) : Run d s i []
  | next {s s' : Stack} {i rest : Input} {t : Token} {ts : List Token}
      (token : i.skipIgnored.token? s.wanted = some (t, rest)) (read : s.read? t = some s')
      (tail : Run d s' rest ts) : Run d s i (t :: ts)

theorem read?_eq_some {s s' : Stack} {t : Token} :
    s.read? t = some s' ↔
      ∃ settled q, s.feed (some t.terminal) = (settled, some q) ∧ s' = settled.push q (.leaf t) := by
  unfold read?
  split <;> grind

theorem tokens_read? {s s' : Stack} {t : Token} (h : s.read? t = some s') :
    s'.tokens = s.tokens ++ [t] := by
  obtain ⟨settled, q, hfeed, rfl⟩ := read?_eq_some.mp h
  rw [tokens_push, tokens_feed hfeed, Derivation.tokens]

namespace Run

variable {d : Derivation} {s : Stack} {i : Input} {ts : List Token}

/-- A run reads the tokens of what it derives. -/
theorem tokens_eq (h : Run d s i ts) : d.tokens = s.tokens ++ ts := by
  induction h with
  | done _ result =>
    rw [List.append_nil, tokens_result? result]
    exact tokens_settle none _ _
  | next _ read _ ih => rw [ih, tokens_read? read, List.append_assoc, List.singleton_append]

/-- Every token takes a character at least. -/
theorem length_le (h : Run d s i ts) : ts.length ≤ i.text.length := by
  induction h with
  | done => exact Nat.zero_le _
  | @next s s' i rest t ts token read tail ih =>
    obtain ⟨hsplit, -, -, hmatch⟩ := Input.token?_spec token
    obtain ⟨gap, -, htext, -⟩ := i.take_skipIgnored
    have hpos := (Pattern.of_spec hmatch).1
    have hlength := congrArg List.length (htext.trans (congrArg (gap ++ ·) hsplit))
    simp only [List.length_append] at hlength
    simp only [List.length_cons]
    omega

theorem loop_eq_ok {text : List Char} {fuel : Nat} (h : Run d s i ts) (hfuel : ts.length < fuel) :
    Parse.loop text fuel s i = .ok d := by
  induction h generalizing fuel with
  | done ends result =>
    obtain ⟨n, rfl⟩ := Nat.exists_eq_add_of_lt hfuel
    simp [Parse.loop, Parse.step, ends, result]
  | @next s s' i rest t ts token read tail ih =>
    cases fuel with
    | zero => exact absurd hfuel (Nat.not_lt_zero _)
    | succ n =>
      obtain ⟨settled, q, hfeed, rfl⟩ := read?_eq_some.mp read
      have hstep : Parse.step text s i = .ok (.more (settled.push q (.leaf t)) rest) := by
        simp only [Parse.step]
        split
        · rename_i hnil
          obtain ⟨hsplit, -, -, hmatch⟩ := Input.token?_spec token
          have hpos := Pattern.of_spec hmatch
          rw [hnil, List.length_nil] at hpos
          omega
        · simp only [token, hfeed]
      rw [Parse.loop, hstep]
      exact ih (Nat.lt_of_succ_lt_succ hfuel)

end Run

theorem exists_run {text : List Char} {fuel : Nat} {s : Stack} {i : Input} {d : Derivation}
    (h : Parse.loop text fuel s i = .ok d) : ∃ ts, Run d s i ts := by
  induction fuel generalizing s i with
  | zero => cases h
  | succ n ih =>
    rw [Parse.loop, Parse.step] at h
    dsimp only at h
    cases hhere : i.skipIgnored.text with
    | nil =>
      cases hresult : (s.feed none).1.result? with
      | none => simp [hhere, hresult] at h
      | some d' =>
        simp only [hhere, hresult, Except.ok.injEq] at h
        exact ⟨[], .done hhere (h ▸ hresult)⟩
    | cons c cs =>
      cases htoken : i.skipIgnored.token? s.wanted with
      | none =>
        cases hany : i.skipIgnored.token? Terminal.all <;> simp [hhere, htoken, hany] at h
      | some found =>
        obtain ⟨t, rest⟩ := found
        cases hfeed : s.feed (some t.terminal) with
        | mk settled q? =>
          cases q? with
          | none => simp [hhere, htoken, hfeed] at h
          | some q =>
            simp only [hhere, htoken, hfeed] at h
            obtain ⟨ts, hrun⟩ := ih h
            exact ⟨t :: ts, .next htoken (read?_eq_some.mpr ⟨settled, q, hfeed, rfl⟩) hrun⟩

end Stack

/-- A text is derived by a run that reads the tokens of its derivation. -/
theorem derive_eq_ok_iff {start : Start} {text : List Char} {d : Derivation} :
    derive start text = .ok d ↔ Stack.Run d ⟨start, []⟩ (.ofText text) d.tokens := by
  constructor
  · intro h
    obtain ⟨ts, hrun⟩ := Stack.exists_run h
    have htokens : d.tokens = ts := hrun.tokens_eq
    rwa [htokens]
  · exact fun h => h.loop_eq_ok (Nat.lt_succ_of_le h.length_le)

end GraphQLDoc
