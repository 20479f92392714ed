import GraphQLDoc.Proofs.Token.Split

/-!
Where tokens lie. A position is determined by the text before it: its line counts the line feeds
there, its column the characters behind the last of them. A token covers its own characters and no
others, and the tokens that a text splits into lie in it one behind the other.
-/
namespace GraphQLDoc

namespace Position

/-- The position is that of the character of the text with its offset, or that of the end. -/
structure IsExact (text : List Char) (p : Position) : Prop where
  inside : p.offset ≤ text.length
  line : p.line = (text.take p.offset).count '\n' + 1
  column : ∃ front back, text.take p.offset = front ++ back ∧ (∀ c ∈ front.getLast?, c = '\n') ∧
    '\n' ∉ back ∧ p.column = p.offset - front.length + 1

theorem after_line (p : Position) (cs : List Char) :
    (p.after cs).line = p.line + cs.count '\n' := by
  induction cs generalizing p with
  | nil => rfl
  | cons c cs ih =>
    rw [after_cons, ih]
    by_cases hc : c = '\n'
    · subst hc
      rw [List.count_cons_self]
      show p.line + 1 + cs.count '\n' = _
      omega
    · rw [List.count_cons_of_ne hc, next, if_neg hc]

/-- A line feed in the text starts the columns afresh. -/
theorem after_column (p : Position) (cs : List Char) :
    '\n' ∉ cs ∧ (p.after cs).column = p.column + cs.length ∨
      ∃ front back, cs = front ++ '\n' :: back ∧ '\n' ∉ back ∧
        (p.after cs).column = back.length + 1 := by
  induction cs generalizing p with
  | nil => exact .inl ⟨List.not_mem_nil, rfl⟩
  | cons c cs ih =>
    rw [after_cons]
    rcases ih (p.next c) with ⟨hcs, hcolumn⟩ | ⟨front, back, rfl, hback, hcolumn⟩
    · by_cases hc : c = '\n'
      · subst hc
        refine .inr ⟨[], cs, rfl, hcs, hcolumn.trans ?_⟩
        exact Nat.add_comm 1 _
      · refine .inl ⟨?_, hcolumn.trans ?_⟩
        · intro hmem
          rcases List.mem_cons.mp hmem with h | h
          · exact hc h.symm
          · exact hcs h
        · have hnext : (p.next c).column = p.column + 1 := by rw [next, if_neg hc]
          rw [hnext, List.length_cons]
          omega
    · exact .inr ⟨c :: front, back, rfl, hback, hcolumn⟩

/-- The position behind the front of a text. -/
theorem after_isExact (front back : List Char) : (start.after front).IsExact (front ++ back) := by
  have hoffset : (start.after front).offset = front.length := by
    rw [after_offset]
    exact Nat.zero_add _
  have htake : (front ++ back).take (start.after front).offset = front := by
    rw [hoffset, List.take_left]
  constructor
  · rw [hoffset, List.length_append]
    omega
  · rw [htake, after_line]
    exact Nat.add_comm _ _
  · rw [htake, hoffset]
    rcases after_column start front with ⟨hfront, hcolumn⟩ | ⟨lines, rest, rfl, hrest, hcolumn⟩
    · exact ⟨[], front, rfl, nofun, hfront, hcolumn.trans (Nat.add_comm 1 _)⟩
    · refine ⟨lines ++ ['\n'], rest, by simp, by simp, hrest, ?_⟩
      simp only [List.length_append, List.length_cons, List.length_nil]
      omega

end Position

/-- The token is a piece of the text, and its span covers this piece. -/
def Token.LiesIn (text : List Char) (t : Token) : Prop :=
  ∃ front back, text = front ++ (t.text ++ back) ∧
    t.span = ⟨.after .start front, .after .start (front ++ t.text)⟩

namespace Token.LiesIn

variable {text : List Char} {t : Token}

theorem first_isExact (h : t.LiesIn text) : t.span.first.IsExact text := by
  obtain ⟨front, back, rfl, hspan⟩ := h
  rw [hspan]
  exact Position.after_isExact _ _

theorem last_isExact (h : t.LiesIn text) : t.span.last.IsExact text := by
  obtain ⟨front, back, rfl, hspan⟩ := h
  rw [hspan, ← List.append_assoc]
  exact Position.after_isExact _ _

theorem offset_le (h : t.LiesIn text) : t.span.first.offset ≤ t.span.last.offset := by
  obtain ⟨front, back, rfl, hspan⟩ := h
  simp only [hspan, Position.after_offset, List.length_append]
  omega

/-- From the token on, the text goes on with it and with what is behind it. -/
theorem drop_first (h : t.LiesIn text) :
    text.drop t.span.first.offset = t.text ++ text.drop t.span.last.offset := by
  obtain ⟨front, back, rfl, hspan⟩ := h
  have hfirst : t.span.first.offset = front.length := by
    simp [hspan, Position.after_offset, Position.start]
  have hlast : t.span.last.offset = (front ++ t.text).length := by
    simp [hspan, Position.after_offset, Position.start]
  rw [hfirst, hlast, List.drop_left, ← List.append_assoc, List.drop_left]

/-- The text between the ends of the token is its own. -/
theorem slice (h : t.LiesIn text) :
    (text.take t.span.last.offset).drop t.span.first.offset = t.text := by
  obtain ⟨front, back, rfl, hspan⟩ := h
  have hfirst : t.span.first.offset = front.length := by
    simp [hspan, Position.after_offset, Position.start]
  have hlast : t.span.last.offset = (front ++ t.text).length := by
    simp [hspan, Position.after_offset, Position.start]
  rw [hfirst, hlast, ← List.append_assoc, List.take_left, List.drop_left]

end Token.LiesIn

/-- Each token ends before the next one begins. -/
def Token.InOrder (w : List Token) : Prop :=
  w.Pairwise fun a b => a.span.last.offset ≤ b.span.first.offset

namespace Input

/-- The tokens that the rest of a text splits into lie in it, behind what is in front of the rest. -/
theorem SplitsInto.liesIn {text : List Char} {i : Input} {w : List Token} (h : i.SplitsInto w)
    (front : List Char) (htext : text = front ++ i.text)
    (hposition : i.position = .after .start front) :
    (∀ t ∈ w, t.LiesIn text ∧ front.length ≤ t.span.first.offset) ∧ Token.InOrder w := by
  induction h generalizing front with
  | done ignored => exact ⟨nofun, .nil⟩
  | @next i rest t ts gap ignored split span position isMatch tail ih =>
    have hfirst : i.position.after gap = .after .start (front ++ gap) := by
      rw [hposition, Position.after_append]
    have hrest : rest.position = .after .start (front ++ gap ++ t.text) := by
      rw [position, span, hfirst, ← Position.after_append]
    have hwhole : text = front ++ gap ++ (t.text ++ rest.text) := by
      rw [htext, split, List.append_assoc]
    have hspan : t.span = ⟨.after .start (front ++ gap), .after .start (front ++ gap ++ t.text)⟩ := by
      rw [span, hfirst, hrest]
    obtain ⟨hlies, horder⟩ := ih _ (hwhole.trans (List.append_assoc _ _ _).symm) hrest
    have hoffset : t.span.last.offset = (front ++ gap ++ t.text).length := by
      simp [hspan, Position.after_offset, Position.start]
    constructor
    · intro u hu
      rcases List.mem_cons.mp hu with rfl | hu
      · refine ⟨⟨_, _, hwhole, hspan⟩, ?_⟩
        simp only [hspan, Position.after_offset, List.length_append]
        omega
      · refine ⟨(hlies u hu).1, ?_⟩
        have hle := (hlies u hu).2
        simp only [List.length_append] at hle
        omega
    · refine List.pairwise_cons.mpr ⟨fun u hu => ?_, horder⟩
      rw [hoffset]
      exact (hlies u hu).2

/-- The tokens of a text lie in it one behind the other. -/
theorem SplitsInto.lie {text : List Char} {w : List Token} (h : (Input.ofText text).SplitsInto w) :
    (∀ t ∈ w, t.LiesIn text) ∧ Token.InOrder w := by
  obtain ⟨hlies, horder⟩ := h.liesIn [] rfl rfl
  exact ⟨fun t ht => (hlies t ht).1, horder⟩

end Input

end GraphQLDoc
