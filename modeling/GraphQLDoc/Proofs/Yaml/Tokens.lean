import GraphQLDoc.Proofs.Yaml.Scalar
import GraphQLDoc.Yaml.Lexer

/-!
Reading the tokens of a YAML text. Unless the text is invalid, the tokens can be read or there is an
escape or a number in the text that stops it.
-/
namespace GraphQLDoc.Yaml

/-! Properties and directives. -/

theorem wordAt_reads (i : Input) : Reads i.rest behind (wordAt i) := by
  fun_cases wordAt with
  | case1 => trivial
  | case2 word j hspan => exact Input.span_isSuffix hspan

theorem anchorName_reads (i : Input) : Reads i.rest behind (anchorName i) :=
  ((wordAt_reads i.advance).mono (Input.advance_isSuffix i)).bind fun _ hj => .pureOrInvalid hj

namespace Tag

theorem percentBytes_reads (text cs : List Char) :
    Reads text (fun _ => text) (percentBytes cs) := by
  fun_induction percentBytes with
  | case1 a b cs hdigits ih => exact ih.map fun _ => rfl
  | case2 => trivial
  | case3 => trivial
  | case4 => exact List.suffix_rfl

theorem addressWithin_reads (fuel : Nat) (i : Input) :
    Reads i.rest behind (addressWithin fuel i) := by
  fun_induction addressWithin with
  | case1 => exact List.suffix_rfl
  | case2 fuel i hpercent ih =>
    refine (percentBytes_reads i.rest i.rest).bind fun bytes _ => ?_
    split
    · trivial
    · exact ((ih bytes).mono (Input.skip_isSuffix i _)).bind fun _ hj => .pure hj
  | case3 fuel i hpercent hamong cs j hspan ih =>
    exact (ih.mono (Input.span_isSuffix hspan)).bind fun _ hk => .pure hk
  | case4 => exact List.suffix_rfl

theorem address_reads (i : Input) : Reads i.rest behind (address i) := by
  unfold address
  split
  · exact addressWithin_reads _ i
  · trivial

theorem handle_reads (i : Input) : Reads i.rest behind (handle i) := by
  have hadvance := Input.advance_isSuffix i
  fun_cases handle with
  | case1 => trivial
  | case2 => exact hadvance
  | case3 hmark hspace word j hspan hend =>
    exact ((Input.advance_isSuffix j).trans (Input.span_isSuffix hspan)).trans hadvance
  | case4 => trivial

theorem read_reads (i : Input) : Reads i.rest behind (read i) := by
  have hend (token : Token) {j : Input} (hj : j.rest <:+ i.rest) : Reads i.rest behind
      (if endsField j.peek = true then pure (token, j) else throw .invalid) := .pureOrInvalid hj
  have hadvance := Input.advance_isSuffix i
  unfold read
  split
  · refine ((address_reads _).mono (Input.skip_isSuffix i 2)).bind fun a hj => ?_
    obtain ⟨cs, j⟩ := a
    dsimp only
    split
    · exact hend _ ((Input.advance_isSuffix j).trans hj)
    · trivial
  · split
    · exact hend _ hadvance
    · split
      · refine (handle_reads i).bind fun a hj => ?_
        exact ((address_reads a.2).mono hj).bind fun b hk => hend _ hk
      · exact ((address_reads _).mono hadvance).bind fun a hj => hend _ hj

end Tag

namespace Directive

theorem number_reads (i : Input) : Reads i.rest behind (number i) := by
  fun_cases number with
  | case1 => trivial
  | case2 digits j hspan hempty hlong =>
    obtain rfl : i.rest.takeWhile isDigit = digits := congrArg Prod.fst hspan
    exact .tooManyDigits (List.takeWhile_prefix _).isInfix List.all_takeWhile hlong
  | case3 digits j hspan hempty hlong => exact Input.span_isSuffix hspan

theorem version_reads (i : Input) : Reads i.rest behind (version i) := by
  refine ((number_reads _).mono (Input.skipWhile_isSuffix i _)).bind fun a hj => .orInvalid ?_
  exact ((number_reads _).mono ((Input.advance_isSuffix a.2).trans hj)).bind
    fun _ hk => .pureOrInvalid hk

theorem tagHandle_reads (i : Input) : Reads i.rest behind (tagHandle i) := by
  refine ((Tag.handle_reads _).mono (Input.skipWhile_isSuffix i _)).bind fun a hj => .orInvalid ?_
  exact ((Tag.address_reads _).mono ((Input.skipWhile_isSuffix a.2 _).trans hj)).bind
    fun _ hk => .pureOrInvalid hk

/-- What is read of a directive in front of the end of its line. -/
theorem end_reads {i k : Input} (token : Token) (hk : k.rest <:+ i.rest) : Reads i.rest behind
    (match k.restOfLine? with
      | some l => pure (token, l)
      | none => throw .invalid) := by
  split
  · rename_i l hline
    exact .pure ((Input.restOfLine_isSuffix hline).trans hk)
  · trivial

theorem read_reads (i : Input) : Reads i.rest behind (read i) := by
  refine ((wordAt_reads _).mono (Input.advance_isSuffix i)).bind fun a hj => .orInvalid ?_
  dsimp only
  split
  · exact ((version_reads _).mono hj).bind fun b hk => end_reads b.1 hk
  · split
    · exact ((tagHandle_reads _).mono hj).bind fun b hk => end_reads b.1 hk
    · exact end_reads _ ((Input.skipWhile_isSuffix _ _).trans hj)

end Directive

/-! Tokens. -/

namespace Lexer

/-- What is left of the text behind a token. -/
abbrev ahead (l : Lexer) : List Char := l.input.rest

@[simp]
theorem input_push (t : Token) (l : Lexer) : (l.push t).input = l.input := rfl

@[simp]
theorem input_unwind (column : Int) (l : Lexer) : (l.unwind column).input = l.input := by
  unfold unwind
  split <;> rfl

theorem dropCandidate_reads (l : Lexer) : Reads l.ahead ahead l.dropCandidate := by
  fun_cases dropCandidate with
  | case1 => trivial
  | case2 => exact List.suffix_rfl
  | case3 => exact List.suffix_rfl

theorem addCandidate_reads (l : Lexer) : Reads l.ahead ahead l.addCandidate := by
  unfold addCandidate
  split
  · exact (dropCandidate_reads l).bind fun _ h => .pure h
  · exact List.suffix_rfl

theorem dropLapsed_reads (l : Lexer) : Reads l.ahead ahead l.dropLapsed := by
  fun_cases dropLapsed with
  | case1 => trivial
  | case2 => exact List.suffix_rfl

theorem skipBlanks_isSuffix (fuel : Nat) (l : Lexer) : (skipBlanks fuel l).ahead <:+ l.ahead := by
  have hi (l : Lexer) : ((l.input.skipWhile (· == ' ')).skipComment).rest <:+ l.ahead :=
    (Input.skipComment_isSuffix _).trans (Input.skipWhile_isSuffix _ _)
  fun_induction skipBlanks with
  | case1 => exact List.suffix_rfl
  | case2 fuel l i hamong ih => exact (ih.trans (Input.lineBreak_isSuffix rfl)).trans (hi l)
  | case3 fuel l i hamong => exact hi l

theorem settle_reads (l : Lexer) : Reads l.ahead ahead l.settle := by
  unfold settle
  dsimp only
  refine ((dropLapsed_reads _).mono ((skipBlanks_isSuffix _ _).trans ?_)).bind fun l' h => .pure ?_
  · dsimp only [ahead]
    split
    · exact Input.advance_isSuffix _
    · exact List.suffix_rfl
  · rw [ahead, input_unwind]
    exact h

/-! Single tokens. -/

theorem take_isSuffix (t : Token) (l : Lexer) : (l.take t).ahead <:+ l.ahead :=
  Input.advance_isSuffix l.input

theorem mark_reads (l : Lexer) : Reads l.ahead ahead (l.unwind (-1)).dropCandidate := by
  have h := dropCandidate_reads (l.unwind (-1))
  rwa [ahead, input_unwind] at h

theorem documentMark_reads (t : Token) (l : Lexer) : Reads l.ahead ahead (l.documentMark t) :=
  (mark_reads l).bind fun l' h => .pure ((Input.skip_isSuffix l'.input 3).trans h)

theorem directive_reads (l : Lexer) : Reads l.ahead ahead l.directive :=
  (mark_reads l).bind fun l' h =>
    ((Directive.read_reads l'.input).mono h).bind fun _ hj => .pure hj

theorem openBracket_reads (t : Token) (l : Lexer) : Reads l.ahead ahead (l.openBracket t) :=
  (addCandidate_reads l).bind fun l' h => .pure ((Input.advance_isSuffix l'.input).trans h)

theorem closeBracket_reads (t : Token) (l : Lexer) : Reads l.ahead ahead (l.closeBracket t) :=
  (dropCandidate_reads l).bind fun l' h => .pure ((Input.advance_isSuffix l'.input).trans h)

theorem comma_reads (l : Lexer) : Reads l.ahead ahead l.comma :=
  (dropCandidate_reads { l with keyAllowed := true }).bind fun l' h =>
    .pure ((take_isSuffix _ l').trans h)

theorem enter_reads (t : Token) (l : Lexer) : Reads l.ahead ahead (l.enter t) := by
  fun_cases enter with
  | case1 => exact List.suffix_rfl
  | case2 => trivial
  | case3 => exact List.suffix_rfl
  | case4 => exact List.suffix_rfl

theorem dash_reads (l : Lexer) : Reads l.ahead ahead l.dash :=
  (enter_reads _ l).bind fun l' h =>
    ((dropCandidate_reads { l' with keyAllowed := true }).mono h).bind fun l'' h' =>
      .pure ((take_isSuffix _ l'').trans h')

theorem questionMark_reads (l : Lexer) : Reads l.ahead ahead l.questionMark :=
  (enter_reads _ l).bind fun l' h =>
    ((dropCandidate_reads { l' with keyAllowed := !l'.inFlow }).mono h).bind fun l'' h' =>
      .pure ((take_isSuffix _ l'').trans h')

theorem colon_reads (l : Lexer) : Reads l.ahead ahead l.colon := by
  unfold colon
  split
  · dsimp only
    split
    · exact Input.advance_isSuffix l.input
    · exact Input.advance_isSuffix l.input
  · exact (enter_reads _ l).bind fun l' h =>
      ((dropCandidate_reads { l' with keyAllowed := !l'.inFlow }).mono h).bind fun l'' h' =>
        .pure ((take_isSuffix _ l'').trans h')

theorem property_reads {read : Input → Except Problem (Token × Input)}
    (hread : ∀ i, Reads i.rest behind (read i)) (l : Lexer) :
    Reads l.ahead ahead (l.property read) :=
  (addCandidate_reads l).bind fun l' h => ((hread l'.input).mono h).bind fun _ hj => .pure hj

theorem named_reads (make : List Char → Token) (i : Input) :
    Reads i.rest behind (named make i) :=
  (anchorName_reads i).map fun _ => rfl

theorem quoted_reads (quote : Char) (i : Input) : Reads i.rest behind (quoted quote i) :=
  (Quotation.read_reads quote i).map fun _ => rfl

theorem block_reads (folded : Bool) (l : Lexer) : Reads l.ahead ahead (l.block folded) :=
  (dropCandidate_reads { l with keyAllowed := true }).bind fun l' h =>
    ((Block.read_reads folded l'.indent l'.input).mono h).bind fun _ hj => .pure hj

theorem plain_reads (l : Lexer) : Reads l.ahead ahead l.plain :=
  (addCandidate_reads l).bind fun l' h =>
    .pure ((Plain.read_isSuffix l'.inFlow (l'.indent + 1) l'.input).trans h)

theorem token_reads (c : Char) (l : Lexer) : Reads l.ahead ahead (l.token c) := by
  fun_cases token with
  | case1 => exact directive_reads l
  | case2 => exact documentMark_reads _ l
  | case3 => exact documentMark_reads _ l
  | case4 => exact openBracket_reads _ l
  | case5 => exact openBracket_reads _ l
  | case6 => exact closeBracket_reads _ l
  | case7 => exact closeBracket_reads _ l
  | case8 => exact comma_reads l
  | case9 => exact dash_reads l
  | case10 => exact questionMark_reads l
  | case11 => exact colon_reads l
  | case12 => exact property_reads (named_reads _) l
  | case13 => exact property_reads (named_reads _) l
  | case14 => exact property_reads Tag.read_reads l
  | case15 => exact block_reads false l
  | case16 => exact block_reads true l
  | case17 => exact property_reads (quoted_reads c) l
  | case18 => exact plain_reads l
  | case19 => trivial

theorem next_reads (l : Lexer) : Reads l.ahead (fun r => r.1.ahead) l.next := by
  refine (settle_reads l).bind fun l' h => ?_
  split
  · exact ((mark_reads l').mono h).bind fun l'' h' => .pure h'
  · exact ((token_reads _ l').mono h).bind fun l'' h' => .pure h'

theorem hasCause_of_run {fuel : Nat} {l : Lexer} {p : Problem} (h : (run fuel l).stop = some p) :
    p.HasCause (TokenFault l.ahead) := by
  induction fuel generalizing l with
  | zero =>
    cases h
    trivial
  | succ fuel ih =>
    have hnext := next_reads l
    rw [run] at h
    split at h
    · rename_i q hq
      rw [hq] at hnext
      cases h
      exact hnext
    · cases h
    · rename_i l' hl'
      rw [hl'] at hnext
      have hlater : Reads l'.ahead ahead (.error p) := ih h
      exact hlater.mono hnext

end Lexer

/-- What stops the tokens of a text from being read, unless the text is invalid, stands in it. -/
theorem hasCause_of_scan {text : List Char} {p : Problem} (h : (scan text).stop = some p) :
    p.HasCause (TokenFault text) := by
  unfold scan at h
  split at h
  · exact Lexer.hasCause_of_run h
  · cases h
    trivial

end GraphQLDoc.Yaml
