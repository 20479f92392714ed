import GraphQLDoc.Proofs.ParseTree.Reading
import GraphQLDoc.Proofs.Token.Place
import Mathlib.Data.List.TakeWhile

/-!
Where syntax errors point. The parser takes tokens until a step fails. In front of the place of the
error stand the tokens that it has taken, and ignored text; the error shows the line of its place.
There is fuel for every step, so the error is always that of a step.
-/
namespace GraphQLDoc

/-- From one place of a text to another stand ignored text and the tokens by turns. -/
inductive Input.PassesOver : Input → List Token → Input → Prop where
  | done {i j : Input} {gap : List Char} (ignored : IsIgnored gap) (text : i.text = gap ++ j.text)
      (position : j.position = i.position.after gap) : PassesOver i [] j
  | next {i rest j : Input} {t : Token} {ts : List Token} {gap : List Char}
      (ignored : IsIgnored gap) (text : i.text = gap ++ (t.text ++ rest.text))
      (span : t.span = ⟨i.position.after gap, rest.position⟩)
      (position : rest.position = t.span.first.after t.text)
      (isMatch : Pattern.of t.terminal (t.text ++ rest.text) = some t.text.length)
      (tail : PassesOver rest ts j) : PassesOver i (t :: ts) j

/-- The context shows the line that the position lies in, without the carriage returns at its end,
and below it a caret under the column. Only line feeds end lines. -/
structure IsContext (text : List Char) (p : Position) (context : String)
    (before line returns behind : List Char) : Prop where
  split : text = before ++ (line ++ returns) ++ behind
  begins : ∀ c ∈ before.getLast?, c = '\n'
  ends : ∀ c ∈ behind.head?, c = '\n'
  whole : '\n' ∉ line ++ returns
  inside : before.length ≤ p.offset ∧ p.offset ≤ (before ++ (line ++ returns)).length
  returns : ∀ c ∈ returns, c = '\r'
  trimmed : ∀ c ∈ line.getLast?, c ≠ '\r'
  shown : context = String.ofList (line ++ '\n' :: List.replicate (p.column - 1) ' ' ++ ['^'])

/-- The error lies in the text behind the tokens `w` and shows the line that it begins in. -/
structure SyntaxError.PointsInto (text : List Char) (w : List Token) (e : SyntaxError) : Prop where
  first : e.span.first.IsExact text
  last : e.span.last.IsExact text
  order : e.span.first.offset ≤ e.span.last.offset
  before : (Input.ofText text).PassesOver w ⟨e.span.first, text.drop e.span.first.offset⟩
  context : ∃ before line returns behind,
    IsContext text e.span.first e.context before line returns behind

/-! Places of the text. -/

namespace Input

/-- The input is the rest of the text from its position on. -/
def IsIn (text : List Char) (i : Input) : Prop :=
  ∃ front, text = front ++ i.text ∧ i.position = .after .start front

namespace IsIn

variable {text : List Char} {i j : Input}

theorem ofText : (Input.ofText text).IsIn text := ⟨[], rfl, rfl⟩

theorem past (h : i.IsIn text) {cs : List Char} (htext : i.text = cs ++ j.text)
    (hposition : j.position = i.position.after cs) : j.IsIn text := by
  obtain ⟨front, rfl, hfront⟩ := h
  exact ⟨front ++ cs, by rw [htext, List.append_assoc],
    by rw [hposition, hfront, Position.after_append]⟩

theorem skipIgnored (h : i.IsIn text) : i.skipIgnored.IsIn text := by
  obtain ⟨gap, -, htext, hposition⟩ := i.take_skipIgnored
  exact h.past htext hposition

theorem token? (h : i.IsIn text) {wanted : List Terminal} {t : Token}
    (ht : i.token? wanted = some (t, j)) : j.IsIn text := by
  obtain ⟨htext, -, hposition, -⟩ := token?_spec ht
  exact h.past htext hposition

theorem isExact (h : i.IsIn text) : i.position.IsExact text := by
  obtain ⟨front, rfl, hfront⟩ := h
  rw [hfront]
  exact Position.after_isExact _ _

theorem offset_eq (h : i.IsIn text) : ∃ front, text = front ++ i.text ∧
    i.position.offset = front.length := by
  obtain ⟨front, htext, hfront⟩ := h
  exact ⟨front, htext, by rw [hfront, Position.after_offset]; exact Nat.zero_add _⟩

theorem eq_drop (h : i.IsIn text) : i = ⟨i.position, text.drop i.position.offset⟩ := by
  obtain ⟨front, rfl, hoffset⟩ := h.offset_eq
  rw [hoffset, List.drop_left]

end IsIn

end Input

/-! The line of a position. -/

theorem exists_split_end (p : Char → Bool) (l : List Char) :
    ∃ front back, l = front ++ back ∧ l.reverse.dropWhile p = front.reverse ∧
      l.reverse.takeWhile p = back.reverse ∧ (∀ c ∈ back, p c = true) ∧
      ∀ c ∈ front.getLast?, p c = false := by
  refine ⟨(l.reverse.dropWhile p).reverse, (l.reverse.takeWhile p).reverse, ?_, by simp, by simp,
    ?_, ?_⟩
  · rw [← List.reverse_append, List.takeWhile_append_dropWhile, List.reverse_reverse]
  · exact fun c hc => List.mem_takeWhile_imp (List.mem_reverse.mp hc)
  · intro c hc
    rw [List.getLast?_reverse] at hc
    have hhead := List.head?_dropWhile_not p l.reverse
    rwa [hc] at hhead

/-- What stands on both sides of a place in its line, and in front of the line and behind it. -/
theorem exists_line {text : List Char} {p : Position} (hp : p.offset ≤ text.length) :
    ∃ before back ahead behind, text = before ++ (back ++ ahead) ++ behind ∧
      lineAt text p = back ++ ahead ∧ p.offset = (before ++ back).length ∧
      '\n' ∉ back ++ ahead ∧ (∀ c ∈ before.getLast?, c = '\n') ∧ ∀ c ∈ behind.head?, c = '\n' := by
  obtain ⟨before, back, hfront, -, hback, hplain, hbefore⟩ :=
    exists_split_end (· != '\n') (text.take p.offset)
  have hplain' : ∀ c ∈ (text.drop p.offset).takeWhile (· != '\n'), (c != '\n') = true :=
    fun c hc => List.mem_takeWhile_imp (p := (· != '\n')) hc
  have hbehind := List.head?_dropWhile_not (· != '\n') (text.drop p.offset)
  refine ⟨before, back, (text.drop p.offset).takeWhile (· != '\n'),
    (text.drop p.offset).dropWhile (· != '\n'), ?_, ?_, ?_, ?_, ?_, ?_⟩
  · rw [← List.append_assoc, ← hfront, List.append_assoc, List.takeWhile_append_dropWhile,
      List.take_append_drop]
  · rw [lineAt, hback, List.reverse_reverse]
  · rw [← hfront, List.length_take, Nat.min_eq_left hp]
  · intro hmem
    rcases List.mem_append.mp hmem with hmem | hmem
    · exact absurd (hplain _ hmem) (by decide)
    · exact absurd (hplain' _ hmem) (by decide)
  · exact fun c hc => by simpa using hbefore c hc
  · intro c hc
    rw [hc] at hbehind
    simpa using hbehind

theorem caretContext_isContext {text : List Char} {p : Position} (hp : p.offset ≤ text.length) :
    ∃ before line returns behind,
      IsContext text p (caretContext text p) before line returns behind := by
  obtain ⟨before, back, ahead, behind, htext, hline, hoffset, hwhole, hbegins, hends⟩ :=
    exists_line hp
  obtain ⟨line, returns, hsplit, htrim, -, hreturns, htrimmed⟩ :=
    exists_split_end (· == '\r') (lineAt text p)
  have hparts : line ++ returns = back ++ ahead := hsplit.symm.trans hline
  refine ⟨before, line, returns, behind, ?_, hbegins, hends, ?_, ?_, ?_, ?_, ?_⟩
  · rw [hparts]
    exact htext
  · rw [hparts]
    exact hwhole
  · rw [hparts, hoffset]
    simp only [List.length_append]
    omega
  · exact fun c hc => by simpa using hreturns c hc
  · exact fun c hc => by simpa using htrimmed c hc
  · rw [caretContext, htrim, List.reverse_reverse]

/-! The parser. -/

namespace Parse

variable {text : List Char} {s s' : Stack} {i i' : Input} {w : List Token} {e : SyntaxError}

/-- The parser takes the tokens one by one, from one place to another. -/
inductive Takes (text : List Char) : Stack → Input → List Token → Stack → Input → Prop where
  | none {s : Stack} {i : Input} : Takes text s i [] s i
  | more {s s' s'' : Stack} {i i' i'' : Input} {t : Token} {ts : List Token}
      (step : step text s i = .ok (.more s' i')) (read : s'.tokens = s.tokens ++ [t])
      (tail : Takes text s' i' ts s'' i'') : Takes text s i (t :: ts) s'' i''

theorem step_error (h : step text s i = .error e) :
    e.context = caretContext text e.span.first ∧ (e.span = .point i.skipIgnored.position ∨
      ∃ wanted t rest, i.skipIgnored.token? wanted = some (t, rest) ∧ e.span = t.span) := by
  simp only [step] at h
  split at h
  · split at h
    · simp at h
    · obtain rfl := by simpa using h
      exact ⟨rfl, .inl rfl⟩
  · split at h
    · rename_i htoken
      split at h
      · simp at h
      · obtain rfl := by simpa using h
        exact ⟨rfl, .inr ⟨_, _, _, htoken, rfl⟩⟩
    · split at h
      · rename_i htoken
        obtain rfl := by simpa using h
        exact ⟨rfl, .inr ⟨_, _, _, htoken, rfl⟩⟩
      · obtain rfl := by simpa using h
        exact ⟨rfl, .inl rfl⟩

/-- Every step but the last uses up a character at least. -/
theorem length_lt_of_more (h : step text s i = .ok (.more s' i')) :
    i'.text.length < i.text.length := by
  obtain ⟨t, -, htoken⟩ := token?_of_more h
  obtain ⟨hsplit, -, -, hmatch⟩ := Input.token?_spec htoken
  obtain ⟨gap, -, htext, -⟩ := i.take_skipIgnored
  have hpos := (Pattern.of_spec hmatch).1
  simp only [htext, hsplit, List.length_append]
  omega

/-- The error of the parser is that of a step behind the tokens that it has taken. -/
theorem loop_error {fuel : Nat} (hfuel : i.text.length < fuel)
    (h : loop text fuel s i = .error e) :
    ∃ w s' i', Takes text s i w s' i' ∧ step text s' i' = .error e := by
  induction fuel generalizing s i with
  | zero => exact absurd hfuel (Nat.not_lt_zero _)
  | succ n ih =>
    rw [loop] at h
    split at h
    · rename_i hstep
      obtain rfl := Except.error.inj h
      exact ⟨[], s, i, .none, hstep⟩
    · simp at h
    · rename_i hstep
      obtain ⟨t, hread, -⟩ := token?_of_more hstep
      obtain ⟨w, s', i', htakes, herror⟩ :=
        ih (Nat.lt_of_lt_of_le (length_lt_of_more hstep) (Nat.lt_succ_iff.mp hfuel)) h
      exact ⟨t :: w, s', i', .more hstep hread htakes, herror⟩

namespace Takes

/-- The tokens that are taken stand in the text from the first place to the second. -/
theorem passesOver (h : Takes text s i w s' i') {j : Input} (hj : i'.PassesOver [] j) :
    i.PassesOver w j := by
  induction h with
  | none => exact hj
  | more step read tail ih =>
    obtain ⟨t, hread, htoken⟩ := token?_of_more step
    obtain ⟨rfl⟩ : [t] = _ := List.append_cancel_left (hread.symm.trans read)
    obtain ⟨gap, hgap, htext, hspan, hrest, hmatch⟩ := Input.token?_skipIgnored htoken
    exact .next hgap htext hspan hrest hmatch (ih hj)

theorem isIn (h : Takes text s i w s' i') (hi : i.IsIn text) : i'.IsIn text := by
  induction h with
  | none => exact hi
  | more step read tail ih =>
    obtain ⟨t, -, htoken⟩ := token?_of_more step
    exact ih (hi.skipIgnored.token? htoken)

end Takes

end Parse

/-- A syntax error points into the text, behind the tokens that the parser has taken. -/
theorem parseTree_error {start : Start} {text : List Char} {e : SyntaxError}
    (h : parseTree start text = .error e) :
    ∃ w s i, Parse.Takes text ⟨start, []⟩ (.ofText text) w s i ∧
      Parse.step text s i = .error e ∧ e.PointsInto text w := by
  have hderive : derive start text = .error e := by
    rw [parseTree] at h
    cases hd : derive start text with
    | ok d =>
      rw [hd] at h
      cases h
    | error e' =>
      rw [hd] at h
      cases h
      rfl
  obtain ⟨w, s, i, htakes, hstep⟩ := Parse.loop_error (Nat.lt_succ_self _) hderive
  have hin : i.skipIgnored.IsIn text := (htakes.isIn .ofText).skipIgnored
  have hover : (Input.ofText text).PassesOver w i.skipIgnored := by
    obtain ⟨gap, hgap, htext, hposition⟩ := i.take_skipIgnored
    exact htakes.passesOver (.done hgap htext hposition)
  obtain ⟨hcontext, hspan⟩ := Parse.step_error hstep
  have hplaces : e.span.first = i.skipIgnored.position ∧ e.span.last.IsExact text ∧
      e.span.first.offset ≤ e.span.last.offset := by
    rcases hspan with hspan | ⟨wanted, t, rest, htoken, hspan⟩
    · rw [hspan]
      exact ⟨rfl, hin.isExact, Nat.le_refl _⟩
    · obtain ⟨-, hplace, hrest, -⟩ := Input.token?_spec htoken
      rw [hspan, hplace]
      refine ⟨rfl, (hin.token? htoken).isExact, ?_⟩
      rw [hrest, Position.after_offset]
      exact Nat.le_add_right _ _
  obtain ⟨hfirst, hlast, hle⟩ := hplaces
  have hexact : e.span.first.IsExact text := hfirst ▸ hin.isExact
  refine ⟨w, s, i, htakes, hstep, hexact, hlast, hle, ?_, ?_⟩
  · rw [hfirst, ← hin.eq_drop]
    exact hover
  · rw [hcontext]
    exact caretContext_isContext hexact.inside

/-- A selection set that is not closed. -/
def openText : List Char := ['{', '\r', '\n']

theorem exists_openText_error :
    ∃ e, parseTree .document openText = .error e ∧ e.found = .endOfInput := by
  have hrun : ((parseTree .document openText).mapError fun e => decide (e.found = .endOfInput)).map
      (fun _ => ()) = .error true := by decide +kernel
  cases h : parseTree .document openText with
  | ok t =>
    rw [h] at hrun
    cases hrun
  | error e =>
    rw [h] at hrun
    exact ⟨e, rfl, of_decide_eq_true (Except.error.inj hrun)⟩

theorem openText_pointsInto : ∃ e, parseTree .document openText = .error e ∧
    ∃ w s i, Parse.Takes openText ⟨.document, []⟩ (.ofText openText) w s i ∧
      Parse.step openText s i = .error e ∧ e.PointsInto openText w := by
  obtain ⟨e, h, -⟩ := exists_openText_error
  exact ⟨e, h, parseTree_error h⟩

end GraphQLDoc
