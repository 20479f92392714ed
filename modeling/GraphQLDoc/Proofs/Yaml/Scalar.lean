import GraphQLDoc.Proofs.Literal.Surrogates
import GraphQLDoc.Yaml.Scalar
import Mathlib.Data.List.Infix

/-!
Reading the scalars of a YAML text. Reading goes on behind what was read, and what stops it is that the
text is invalid, or an escape or a number that stands in the text.
-/
namespace GraphQLDoc.Yaml

/-- The number that hexadecimal digits denote. -/
def hexNumber (digits : List Char) : Nat := digits.foldl (fun n d => n * 16 + hexValue d) 0

/-- What stands in a text as the cause of a fault: an escape for a number that is no code point, or a
number with more digits than can be read. -/
inductive TokenFault (text : List Char) : ScalarFault → Prop where
  | codePoint {digits : List Char} (h : '\\' :: 'U' :: digits <:+: text) (hlength : digits.length = 8)
      (hdigits : digits.all isHexDigit) (hlarge : 0x110000 ≤ hexNumber digits) :
      TokenFault text (.codePoint (hexNumber digits))
  | tooManyDigits {digits : List Char} (h : digits <:+: text) (hdigits : digits.all isDigit)
      (hlong : Json.maxIntegerDigits < digits.length) :
      TokenFault text (.tooManyDigits digits.length)

theorem TokenFault.mono {text later : List Char} {f : ScalarFault} (h : TokenFault later f)
    (hlater : later <:+: text) : TokenFault text f := by
  cases h with
  | codePoint h hlength hdigits hlarge => exact .codePoint (h.trans hlater) hlength hdigits hlarge
  | tooManyDigits h hdigits hlong => exact .tooManyDigits (h.trans hlater) hdigits hlong

/-- What stops the reading of scalars: the fault of one has a cause, and none is nested. -/
def Problem.HasCause (cause : ScalarFault → Prop) : Problem → Prop
  | invalid => True
  | tooDeep => False
  | scalar f => cause f

/-- What reading a text may come to: what was read, behind which a part of the text is left, or a
fault with its cause in the text. -/
def Reads {α : Type} (text : List Char) (rest : α → List Char) : Except Problem α → Prop
  | .ok a => rest a <:+ text
  | .error p => p.HasCause (TokenFault text)

namespace Reads

variable {α β : Type} {text later : List Char} {rest : α → List Char} {rest' : β → List Char}

theorem mono {r : Except Problem α} (h : Reads later rest r) (hlater : later <:+ text) :
    Reads text rest r := by
  cases r with
  | ok a => exact List.IsSuffix.trans h hlater
  | error p =>
    cases p with
    | invalid => trivial
    | tooDeep => exact h
    | scalar f => exact TokenFault.mono h hlater.isInfix

theorem bind {r : Except Problem α} {next : α → Except Problem β} (h : Reads text rest r)
    (hnext : ∀ a, rest a <:+ text → Reads text rest' (next a)) : Reads text rest' (r >>= next) := by
  cases r with
  | ok a => exact hnext a h
  | error p => cases p <;> exact h

theorem pure {a : α} (h : rest a <:+ text) : Reads text rest (Pure.pure a) := h

/-- A text that does not go on as it must is invalid. -/
theorem orInvalid {c : Prop} [Decidable c] {next : α → Except Problem β} {r : Except Problem β}
    (h : Reads text rest' r) : Reads text rest' (if c then throw .invalid >>= next else r) := by
  split
  · trivial
  · exact h

theorem pureOrInvalid {c : Prop} [Decidable c] {a : α} (h : rest a <:+ text) :
    Reads text rest (if c then Pure.pure a else throw .invalid) := by
  split
  · exact h
  · trivial

theorem map {r : Except Problem α} {f : α → β} (h : Reads text rest r)
    (hf : ∀ a, rest' (f a) = rest a) : Reads text rest' (r.map f) := by
  cases r with
  | ok a =>
    show rest' (f a) <:+ text
    rw [hf a]
    exact h
  | error p => cases p <;> exact h

end Reads

/-! Places in a text. -/

namespace Input

theorem rest_advance {i : Input} {c : Char} {cs : List Char} (h : i.rest = c :: cs) :
    i.advance.rest = cs := by
  unfold advance
  split
  · rename_i hnil
    cases hnil.symm.trans h
  · rename_i d ds hcons
    obtain ⟨rfl, rfl⟩ := List.cons.inj (hcons.symm.trans h)
    split
    · rfl
    · split <;> rfl

theorem advance_isSuffix (i : Input) : i.advance.rest <:+ i.rest := by
  cases h : i.rest with
  | nil =>
    unfold advance
    simp [h]
  | cons c cs =>
    rw [rest_advance h]
    exact List.suffix_cons c cs

theorem skip_isSuffix (i : Input) (n : Nat) : (i.skip n).rest <:+ i.rest := by
  induction n with
  | zero => exact List.suffix_rfl
  | succ n ih => exact (advance_isSuffix _).trans ih

theorem span_isSuffix {i j : Input} {p : Char → Bool} {run : List Char}
    (h : i.span p = (run, j)) : j.rest <:+ i.rest := by
  obtain rfl := congrArg Prod.snd h
  exact skip_isSuffix i _

theorem skipWhile_isSuffix (i : Input) (p : Char → Bool) : (i.skipWhile p).rest <:+ i.rest :=
  skip_isSuffix i _

theorem lineBreak_isSuffix {i j : Input} {b : List Char} (h : i.lineBreak = (b, j)) :
    j.rest <:+ i.rest := by
  unfold lineBreak at h
  split at h
  · cases h
    exact skip_isSuffix i 2
  · split at h
    · cases h
      exact advance_isSuffix i
    · split at h
      · cases h
        exact advance_isSuffix i
      · cases h
        exact List.suffix_rfl
  · cases h
    exact List.suffix_rfl

theorem skipComment_isSuffix (i : Input) : i.skipComment.rest <:+ i.rest := by
  unfold skipComment
  split
  · exact skipWhile_isSuffix i _
  · exact List.suffix_rfl

theorem restOfLine_isSuffix {i j : Input} (h : i.restOfLine? = some j) : j.rest <:+ i.rest := by
  unfold restOfLine? at h
  dsimp only at h
  split at h
  · obtain rfl := Option.some.inj h
    exact ((lineBreak_isSuffix rfl).trans (skipComment_isSuffix _)).trans (skipWhile_isSuffix i _)
  · cases h

end Input

/-- What is left behind something that was read. -/
abbrev behind {α : Type} (a : α × Input) : List Char := a.2.rest

/-! Scalars. -/

namespace Plain

theorem blankLines_isSuffix (fuel : Nat) (i : Input) : (blankLines fuel i).2.rest <:+ i.rest := by
  fun_induction blankLines with
  | case1 i => exact List.suffix_rfl
  | case2 fuel i hspace ih => exact ih.trans (Input.advance_isSuffix i)
  | case3 fuel i hspace hamong b j hbreak hseparator => exact Input.lineBreak_isSuffix hbreak
  | case4 fuel i hspace hamong b j hbreak hseparator more k hk ih =>
    rw [hk] at ih
    exact ih.trans (Input.lineBreak_isSuffix hbreak)
  | case5 fuel i hspace hamong => exact List.suffix_rfl

theorem gap_isSuffix (i : Input) : (gap i).2.2.rest <:+ i.rest := by
  fun_cases gap with
  | case1 spaces j hspan hamong b k hbreak hseparator =>
    exact (Input.lineBreak_isSuffix hbreak).trans (Input.span_isSuffix hspan)
  | case2 spaces j hspan hamong b k hbreak hseparator breaks l hblank =>
    have hlines := blankLines_isSuffix k.rest.length k
    rw [hblank] at hlines
    exact (hlines.trans (Input.lineBreak_isSuffix hbreak)).trans (Input.span_isSuffix hspan)
  | case3 spaces j hspan hamong b k hbreak hseparator l hblank =>
    have hlines := blankLines_isSuffix k.rest.length k
    rw [hblank] at hlines
    exact (hlines.trans (Input.lineBreak_isSuffix hbreak)).trans (Input.span_isSuffix hspan)
  | case4 spaces j hspan hamong => exact Input.span_isSuffix hspan

theorem lines_isSuffix (inFlow : Bool) (indent : Int) (fuel : Nat) (crossed : Bool) (i : Input) :
    (lines inFlow indent fuel crossed i).2.2.rest <:+ i.rest := by
  fun_induction lines with
  | case1 => exact List.suffix_rfl
  | case2 => exact List.suffix_rfl
  | case3 fuel crossed i first hfirst between crossed' j hgap hends =>
    have hsuffix := gap_isSuffix (i.skip first.length)
    rw [hgap] at hsuffix
    exact hsuffix.trans (Input.skip_isSuffix i _)
  | case4 fuel crossed i first hfirst between crossed' j hgap hends more crossed'' k hmore ih =>
    have hsuffix := gap_isSuffix (i.skip first.length)
    rw [hgap] at hsuffix
    rw [hmore] at ih
    exact (ih.trans hsuffix).trans (Input.skip_isSuffix i _)

theorem read_isSuffix (inFlow : Bool) (indent : Int) (i : Input) :
    (read inFlow indent i).2.2.rest <:+ i.rest :=
  lines_isSuffix inFlow indent _ _ i

end Plain

namespace Quotation

theorem blankLines_reads (fuel : Nat) (i : Input) : Reads i.rest behind (blankLines fuel i) := by
  fun_induction blankLines with
  | case1 i => trivial
  | case2 => trivial
  | case3 fuel i hseparator j hamong b k hbreak ih =>
    have hk := (Input.lineBreak_isSuffix hbreak).trans (Input.skipWhile_isSuffix i isBlank)
    exact (ih.mono hk).bind fun _ hl => .pure hl
  | case4 fuel i hseparator j hamong => exact Input.skipWhile_isSuffix i isBlank

theorem gap_reads (i : Input) : Reads i.rest behind (gap i) := by
  fun_cases gap with
  | case1 => trivial
  | case2 spaces j hspan hrest hamong b k hbreak =>
    have hk := (Input.lineBreak_isSuffix hbreak).trans (Input.span_isSuffix hspan)
    exact ((blankLines_reads _ k).mono hk).bind fun _ hl => .pure hl
  | case3 spaces j hspan hrest hamong => exact Input.span_isSuffix hspan

theorem hexNumber_lt {digits : List Char} (h : digits.all isHexDigit) :
    hexNumber digits < 16 ^ digits.length := by
  induction digits using List.reverseRecOn with
  | nil => decide
  | append_singleton digits d ih =>
    rw [List.all_append, Bool.and_eq_true] at h
    have hfront := ih h.1
    have hlast := hexValue_lt (List.all_eq_true.mp h.2 d (List.mem_singleton_self d))
    rw [hexNumber, List.foldl_append, List.length_append, List.length_singleton, Nat.pow_succ]
    show hexNumber digits * 16 + hexValue d < 16 ^ digits.length * 16
    omega

/-- Only an escape with eight digits may name a number that is too large. -/
theorem width_eq_eight {c : Char} {width : Nat} (h : escapeWidth? c = some width)
    (hlarge : 0x110000 < 16 ^ width) : c = 'U' ∧ width = 8 := by
  unfold escapeWidth? at h
  simp only [List.lookup_cons, List.lookup_nil] at h
  split at h
  · cases h
    exact absurd hlarge (by decide)
  · split at h
    · cases h
      exact absurd hlarge (by decide)
    · split at h
      · rename_i hc
        exact ⟨by simpa using hc, (Option.some.inj h).symm⟩
      · cases h

theorem escape_reads {i : Input} {cs : List Char} (hi : i.rest = '\\' :: cs) :
    Reads i.rest behind (escape i.advance) := by
  have hadvance := Input.advance_isSuffix i
  fun_cases escape with
  | case1 => trivial
  | case2 => exact (Input.advance_isSuffix _).trans hadvance
  | case3 => exact (Input.skip_isSuffix _ _).trans hadvance
  | case4 c rest hrest width hwidth hnone digits hdigits n hlarge =>
    obtain ⟨hlength, hall⟩ := Bool.and_eq_true_iff.mp hdigits
    have hlength : digits.length = width := by simpa using hlength
    have hbound : n < 16 ^ width := hlength ▸ hexNumber_lt hall
    obtain ⟨rfl, rfl⟩ := width_eq_eight hwidth (Nat.lt_of_le_of_lt (Nat.le_of_not_lt hlarge) hbound)
    refine .codePoint ?_ hlength hall (Nat.le_of_not_lt hlarge)
    rw [hi, ← Input.rest_advance hi, hrest]
    have hprefix : digits <+: rest := List.take_prefix 8 rest
    exact (List.cons_prefix_cons.mpr ⟨rfl, List.cons_prefix_cons.mpr ⟨rfl, hprefix⟩⟩).isInfix
  | case5 => trivial
  | case6 c rest hrest hwidth hnone hbreak =>
    have hlines := (Input.lineBreak_isSuffix rfl).trans hadvance
    exact ((blankLines_reads _ _).mono hlines).map fun _ => rfl
  | case7 => trivial

theorem content_reads (quote : Char) (fuel : Nat) (i : Input) :
    Reads i.rest behind (content quote fuel i) := by
  induction fuel generalizing i with
  | zero =>
    rw [content]
    trivial
  | succ fuel ih =>
    have hafter (points : List Nat) {j : Input} (hj : j.rest <:+ i.rest) :
        Reads i.rest behind (content.after quote fuel points j) := by
      rw [content.after]
      exact ((ih j).mono hj).bind fun _ hk => .pure hk
    rw [content]
    split
    · trivial
    rename_i c rest hrest
    split
    · split
      · exact hafter _ (Input.skip_isSuffix i 2)
      · exact Input.advance_isSuffix i
    · split
      · rename_i hslash
        have hslash : c = '\\' := by simpa using (Bool.and_eq_true_iff.mp hslash).1
        exact (escape_reads (hslash ▸ hrest)).bind fun a hj => hafter a.1 hj
      · split
        · exact (gap_reads i).bind fun a hj => hafter _ hj
        · exact hafter _ (Input.advance_isSuffix i)

theorem read_reads (quote : Char) (i : Input) : Reads i.rest behind (read quote i) :=
  (content_reads quote _ _).mono (Input.advance_isSuffix i)

end Quotation

namespace Block

theorem increment_reads (i : Input) : Reads i.rest (fun _ => i.rest) (increment? i) := by
  fun_cases increment? with
  | case1 => trivial
  | case2 => exact List.suffix_rfl
  | case3 => exact List.suffix_rfl
  | case4 => exact List.suffix_rfl

theorem header_reads (i : Input) : Reads i.rest (fun a => a.2.2.rest) (header i) := by
  have hadvance := Input.advance_isSuffix i
  fun_cases header with
  | case1 chomping hchomping =>
    exact ((increment_reads _).mono hadvance).bind fun n _ => .pure (Input.skip_isSuffix i _)
  | case2 hchomping =>
    refine (increment_reads i).bind fun n _ => ?_
    cases n with
    | none => exact .pure List.suffix_rfl
    | some n =>
      dsimp only
      split
      · exact .pure ((Input.advance_isSuffix _).trans hadvance)
      · exact .pure hadvance

theorem leadingLines_isSuffix (fuel deepest : Nat) (i : Input) :
    (leadingLines fuel deepest i).2.2.rest <:+ i.rest := by
  fun_induction leadingLines with
  | case1 => exact List.suffix_rfl
  | case2 fuel deepest i hspace j ih => exact ih.trans (Input.advance_isSuffix i)
  | case3 fuel deepest i hspace hamong b j hbreak more deepest' k hk ih =>
    rw [hk] at ih
    exact ih.trans (Input.lineBreak_isSuffix hbreak)
  | case4 => exact List.suffix_rfl

theorem blankLines_isSuffix (indent fuel : Nat) (i : Input) :
    (blankLines indent fuel i).2.rest <:+ i.rest := by
  fun_induction blankLines with
  | case1 => exact List.suffix_rfl
  | case2 fuel i j hamong b k hbreak more l hl ih =>
    rw [hl] at ih
    exact (ih.trans (Input.lineBreak_isSuffix hbreak)).trans (Input.skip_isSuffix i _)
  | case3 fuel i j hamong => exact Input.skip_isSuffix i _

theorem lines_isSuffix (folded : Bool) (indent fuel : Nat) (breaks : List Char) (i : Input) :
    (lines folded indent fuel breaks i).rest.rest <:+ i.rest := by
  have hnext {line b next : List Char} {i j k l : Input} (hspan : i.span (!isBreak ·) = (line, j))
      (hbreak : j.lineBreak = (b, k))
      (hblank : blankLines indent (k.rest.length + 1) k = (next, l)) : l.rest <:+ i.rest := by
    have hlines := blankLines_isSuffix indent (k.rest.length + 1) k
    rw [hblank] at hlines
    exact (hlines.trans (Input.lineBreak_isSuffix hbreak)).trans (Input.span_isSuffix hspan)
  fun_induction lines with
  | case1 => exact List.suffix_rfl
  | case2 fuel breaks i hinside line j hspan b k hbreak next l hblank hinside' glue more ih =>
    exact ih.trans (hnext hspan hbreak hblank)
  | case3 fuel breaks i hinside line j hspan b k hbreak next l hblank hinside' =>
    exact hnext hspan hbreak hblank
  | case4 => exact List.suffix_rfl

theorem read_reads (folded : Bool) (indent : Int) (i : Input) :
    Reads i.rest behind (read folded indent i) := by
  refine ((header_reads i.advance).mono (Input.advance_isSuffix i)).bind fun a hj => ?_
  obtain ⟨chomping, increment, j⟩ := a
  refine .orInvalid ?_
  dsimp only
  split
  · trivial
  rename_i k hline
  refine .pure ((lines_isSuffix _ _ _ _ _).trans
    (List.IsSuffix.trans ?_ ((Input.restOfLine_isSuffix hline).trans hj)))
  cases increment with
  | none => exact leadingLines_isSuffix _ _ k
  | some n => exact blankLines_isSuffix _ _ k

end Block

end GraphQLDoc.Yaml
