import GraphQLDoc.Proofs.ParseTree.Derivation
import GraphQLDoc.Proofs.Token.Number

/-!
How a text splits into tokens: each token is a match of its terminal at its place, and what stands
between two tokens is ignored. Ignored text is a sequence of separators and comments, where a comment
runs up to a line break or the end.
-/
namespace GraphQLDoc

namespace Pattern

theorem stringBody_spec {n m : Nat} {cs : List Char} (h : stringBody n cs = some m) :
    n < m ∧ m ≤ n + cs.length := by
  fun_induction stringBody n cs <;> grind

theorem blockBody_spec {n m : Nat} {escaped : Option Nat} {cs : List Char}
    (h : blockBody n escaped cs = some m) (hescaped : ∀ k, escaped = some k → 0 < k ∧ k ≤ n) :
    0 < m ∧ m ≤ n + cs.length := by
  fun_induction blockBody n escaped cs with
  | case1 n escaped rest ih =>
    have hrest := ih h fun k hk => by
      obtain rfl := Option.some.inj hk
      omega
    simp only [List.length_cons]
    omega
  | case2 n escaped rest =>
    obtain rfl := Option.some.inj h
    simp only [List.length_cons]
    omega
  | case3 n escaped c rest _ _ ih =>
    have hrest := ih h fun k hk => ⟨(hescaped k hk).1, Nat.le_succ_of_le (hescaped k hk).2⟩
    simp only [List.length_cons]
    omega
  | case4 n escaped => exact hescaped m h

/-- A match is not empty and lies in the text. -/
theorem of_spec {t : Terminal} {cs : List Char} {n : Nat} (h : Pattern.of t cs = some n) :
    0 < n ∧ n ≤ cs.length := by
  cases t with
  | name =>
    cases cs with
    | nil => cases h
    | cons c cs =>
      simp only [Pattern.of, name, Option.ite_none_right_eq_some, Option.some.injEq] at h
      have hrest := (List.takeWhile_prefix (l := cs) isNameRest).length_le
      simp only [List.length_cons]
      omega
  | int =>
    obtain ⟨negative, ds, rest, rfl, rfl, hds, -⟩ := int_iff.mp h
    have hpos := List.length_pos_iff.mpr hds.nonempty
    simp only [List.length_append]
    omega
  | float =>
    obtain ⟨number, rest, rfl, rfl, hnumber, -⟩ := float_iff.mp h
    have hpos := List.length_pos_iff.mpr hnumber.whole.nonempty
    simp only [NumberText.text, List.length_append]
    omega
  | string =>
    simp only [Pattern.of, string] at h
    split at h
    · have hbody := stringBody_spec h
      simp only [List.length_cons]
      omega
    · cases h
  | blockString =>
    simp only [Pattern.of, blockString] at h
    split at h
    · have hbody := blockBody_spec h (by decide)
      simp only [List.length_cons]
      omega
    · cases h
  | keyword k =>
    simp only [Pattern.of, word, Option.ite_none_right_eq_some, Option.some.injEq] at h
    obtain ⟨hfront, rfl⟩ := h
    exact ⟨by cases k <;> decide, (List.isPrefixOf_iff_prefix.mp hfront).length_le⟩
  | punctuator p =>
    simp only [Pattern.of, word, Option.ite_none_right_eq_some, Option.some.injEq] at h
    obtain ⟨hfront, rfl⟩ := h
    exact ⟨by cases p <;> decide, (List.isPrefixOf_iff_prefix.mp hfront).length_le⟩

end Pattern

def isLineBreak (c : Char) : Bool := c == '\n' || c == '\r'

/-- Separators and comments. -/
inductive IsIgnored : List Char → Prop where
  | nil : IsIgnored []
  | separator {c : Char} {cs : List Char} (hc : isSeparator c = true) (rest : IsIgnored cs) :
      IsIgnored (c :: cs)
  | comment {body cs : List Char} (hbody : ∀ c ∈ body, isLineBreak c = false)
      (hend : ∀ c ∈ cs.head?, isLineBreak c = true) (rest : IsIgnored cs) :
      IsIgnored ('#' :: body ++ cs)

/-- Inside a comment, what is ignored is the rest of the comment and ignored text behind it. -/
theorem ignoredLength_spec (cs : List Char) :
    IsIgnored (cs.take (ignoredLength false cs)) ∧
      ∃ body rest, cs.take (ignoredLength true cs) = body ++ rest ∧
        (∀ c ∈ body, isLineBreak c = false) ∧ (∀ c ∈ rest.head?, isLineBreak c = true) ∧
        IsIgnored rest := by
  induction cs with
  | nil => exact ⟨.nil, [], [], rfl, nofun, nofun, .nil⟩
  | cons c cs ih =>
    obtain ⟨hplain, body, rest, heq, hbody, hend, hrest⟩ := ih
    have hmore : ∃ body rest, c :: cs.take (ignoredLength true cs) = body ++ rest ∧
        (isLineBreak c = false → ∀ c ∈ body, isLineBreak c = false) ∧
        (∀ c ∈ rest.head?, isLineBreak c = true) ∧ IsIgnored rest :=
      ⟨c :: body, rest, by rw [heq]; rfl, fun hc => List.forall_mem_cons.mpr ⟨hc, hbody⟩, hend, hrest⟩
    constructor
    · rw [ignoredLength]
      split
      · rename_i hc
        exact .separator hc hplain
      · rename_i hc
        split
        · rename_i hhash
          obtain rfl : c = '#' := by simpa using hhash
          rw [List.take_succ_cons, heq]
          exact .comment hbody hend hrest
        · exact .nil
    · rw [ignoredLength]
      split
      · rename_i hc
        cases hbreak : isLineBreak c with
        | true =>
          have hout : (true && c != '\n' && c != '\r') = false := by
            simp only [isLineBreak, Bool.or_eq_true, beq_iff_eq] at hbreak
            rcases hbreak with rfl | rfl <;> rfl
          rw [hout, List.take_succ_cons]
          exact ⟨[], _, rfl, nofun, fun d hd => by obtain rfl := Option.some.inj hd; exact hbreak,
            .separator hc hplain⟩
        | false =>
          have hin : (true && c != '\n' && c != '\r') = true := by
            simp only [isLineBreak, Bool.or_eq_false_iff, beq_eq_false_iff_ne] at hbreak
            simp [hbreak]
          rw [hin, List.take_succ_cons]
          obtain ⟨body, rest, h, hbody, hend, hrest⟩ := hmore
          exact ⟨body, rest, h, hbody hbreak, hend, hrest⟩
      · rename_i hc
        have hbreak : isLineBreak c = false := by
          cases h : isLineBreak c with
          | false => rfl
          | true =>
            simp only [isLineBreak, Bool.or_eq_true, beq_iff_eq] at h
            rcases h with rfl | rfl <;> exact absurd rfl hc
        rw [Bool.true_or, if_pos rfl, List.take_succ_cons]
        obtain ⟨body, rest, h, hbody, hend, hrest⟩ := hmore
        exact ⟨body, rest, h, hbody hbreak, hend, hrest⟩

/-- The text from a place on is ignored text and tokens by turns. -/
inductive Input.SplitsInto : Input → List Token → Prop where
  | done {i : Input} (ignored : IsIgnored i.text) : SplitsInto i []
  | next {i rest : Input} {t : Token} {ts : List Token} {gap : List Char}
      (ignored : IsIgnored gap) (text : i.text = gap ++ (t.text ++ rest.text))
      (span : t.span = ⟨i.position.after gap, rest.position⟩)
      (position : rest.position = t.span.first.after t.text)
      (isMatch : Pattern.of t.terminal (t.text ++ rest.text) = some t.text.length)
      (tail : SplitsInto rest ts) : SplitsInto i (t :: ts)

/-- The tokens are matches of their terminals. -/
theorem Input.SplitsInto.isLexeme {i : Input} {w : List Token} (h : i.SplitsInto w) :
    ∀ t ∈ w, t.IsLexeme := by
  induction h with
  | done => exact nofun
  | next ignored text span position isMatch tail ih =>
    exact List.forall_mem_cons.mpr ⟨⟨_, _, isMatch, List.take_left.symm⟩, ih⟩

end GraphQLDoc
