import GraphQLDoc.Conversion.Values
import GraphQLDoc.Proofs.Ast.Validity
import GraphQLDoc.Proofs.Conversion.Walk
import GraphQLDoc.Proofs.Number.Digits
import GraphQLDoc.Proofs.Number.Rounding
import GraphQLDoc.Proofs.ParseTree.Shape
import GraphQLDoc.Proofs.Token.Spelling
import GraphQLDoc.Proofs.Token.Split

/-!
What the conversions of tokens give, when the tokens are lexemes of their terminals.
-/
namespace GraphQLDoc

/-! Numbers are plain text: no blanks around them, no digits of other scripts, no underscores. -/

namespace Numeral

def isPlain (c : Char) : Bool := isDigit c || c ∈ ['-', '+', '.', 'e', 'E']

theorem isDigit_iff {c : Char} : isDigit c = true ↔ 48 ≤ c.toNat ∧ c.toNat ≤ 57 := by
  simp only [isDigit, Bool.and_eq_true, decide_eq_true_eq]
  exact Iff.rfl

theorem decimalDigit?_of_isDigit {c : Char} (h : isDigit c = true) :
    decimalDigit? c = some (c.toNat - 48) := by
  obtain ⟨hlow, hhigh⟩ := isDigit_iff.mp h
  obtain ⟨rest, hzeros⟩ : ∃ rest, digitZeros = 48 :: rest := ⟨_, rfl⟩
  have hfirst : c.toNat < 48 + 10 := by omega
  simp [decimalDigit?, hzeros, hlow, hfirst]

theorem isWideBlank_of_isPlain {c : Char} (h : isPlain c = true) : isWideBlank c = false := by
  simp only [isPlain, Bool.or_eq_true, decide_eq_true_eq, List.mem_cons, List.not_mem_nil,
    or_false] at h
  rcases h with h | rfl | rfl | rfl | rfl | rfl
  · obtain ⟨hlow, hhigh⟩ := isDigit_iff.mp h
    simp only [isWideBlank, isBlank, Bool.or_eq_false_iff, Bool.and_eq_false_iff,
      decide_eq_false_iff_not, beq_eq_false_iff_ne]
    omega
  all_goals decide

theorem trim_of_isPlain {cs : List Char} (h : ∀ c ∈ cs, isPlain c = true) :
    trim isWideBlank cs = cs := by
  have hkeep {ds : List Char} (hds : ∀ c ∈ ds, isPlain c = true) : ds.dropWhile isWideBlank = ds := by
    cases ds with
    | nil => rfl
    | cons d ds =>
      have hd := isWideBlank_of_isPlain (hds d List.mem_cons_self)
      simp [hd]
  unfold trim
  rw [hkeep h, hkeep fun c hc => h c (List.mem_reverse.mp hc), List.reverse_reverse]

theorem normalize_of_isPlain {cs : List Char} (h : ∀ c ∈ cs, isPlain c = true) :
    normalize cs = cs := by
  unfold normalize
  rw [trim_of_isPlain h]
  refine (List.map_congr_left fun c hc => ?_).trans (List.map_id cs)
  have hc := h c hc
  simp only [isPlain, Bool.or_eq_true, decide_eq_true_eq, List.mem_cons, List.not_mem_nil,
    or_false] at hc
  rcases hc with hc | rfl | rfl | rfl | rfl | rfl
  · have hlow := (isDigit_iff.mp hc).1
    rw [decimalDigit?_of_isDigit hc]
    show Char.ofNat (48 + (c.toNat - 48)) = c
    rw [Nat.add_sub_cancel' hlow, Char.ofNat_toNat]
  all_goals decide

theorem joinDigits?_of_isPlain {cs : List Char} (h : ∀ c ∈ cs, isPlain c = true)
    (afterDigit : Bool) : joinDigits? afterDigit cs = some cs := by
  induction cs generalizing afterDigit with
  | nil => rfl
  | cons c cs ih =>
    obtain ⟨hc, hcs⟩ := List.forall_mem_cons.mp h
    have hne : c ≠ '_' := by
      rintro rfl
      exact absurd hc (by decide)
    rw [joinDigits?]
    · rw [ih hcs]
      rfl
    · rintro d ds rfl
      exact absurd rfl hne
    · rintro rfl
      exact absurd rfl hne

theorem isPlain_of_isDigit {c : Char} (h : isDigit c = true) : isPlain c = true := by
  simp [isPlain, h]

theorem isPlain_signText {negative : Bool} : ∀ c ∈ Pattern.signText negative, isPlain c = true :=
  List.all_eq_true.mp (by cases negative <;> decide)

theorem sign_of_isWhole {ds : List Char} (h : Pattern.IsWhole ds) (negative : Bool) :
    Pattern.sign (Pattern.signText negative ++ ds) = (Pattern.signText negative).length := by
  have hmark : Pattern.signText negative ∈ [[], ['+'], ['-']] := by cases negative <;> decide
  simpa using @Pattern.sign_append _ _ [] hmark h.nonempty h.digits

theorem head?_signText {ds : List Char} (h : Pattern.IsWhole ds) (negative : Bool) :
    decide ((Pattern.signText negative ++ ds).head? = some '-') = negative := by
  cases negative with
  | true => rfl
  | false =>
    obtain ⟨d, tail, rfl, hd⟩ := h.head
    have hne : d ≠ '-' := Pattern.ne_of_isDigit hd (by decide)
    simpa [Pattern.signText] using hne

/-- An integer as it is written in a document. -/
theorem literalInt?_eq {negative : Bool} {ds : List Char} (h : Pattern.IsWhole ds) :
    literalInt? (Pattern.signText negative ++ ds) = some (negative, ds) := by
  have hds : ∀ c ∈ ds, isPlain c = true := fun c hc => isPlain_of_isDigit (h.digits c hc)
  have hplain : ∀ c ∈ Pattern.signText negative ++ ds, isPlain c = true :=
    List.forall_mem_append.mpr ⟨isPlain_signText, hds⟩
  have hall : (!ds.isEmpty && ds.all isDigit) = true := by
    simpa using ⟨h.nonempty, h.digits⟩
  unfold literalInt?
  simp only [normalize_of_isPlain hplain, sign_of_isWhole h, List.drop_left,
    joinDigits?_of_isPlain hds, Option.bind_some, head?_signText h, hall, if_true]

end Numeral

namespace NumberText

variable {t : NumberText}

theorem IsFloat.isPlain (ht : t.IsFloat) : ∀ c ∈ t.text, Numeral.isPlain c = true := by
  have hdigits {ds : List Char} (h : AreDigits ds) : ∀ c ∈ ds, Numeral.isPlain c = true :=
    fun c hc => Numeral.isPlain_of_isDigit (h c hc)
  have hfraction : ∀ c ∈ t.fraction, Numeral.isPlain c = true := by
    unfold fraction fractionText
    split
    · exact nofun
    · exact List.forall_mem_cons.mpr ⟨by decide, hdigits ht.places⟩
  have hpower : ∀ c ∈ t.power, Numeral.isPlain c = true := by
    rcases ht.power with hnil | ⟨e, mark, ds, hpower, he, hmark, -, hds⟩
    · rw [hnil]
      exact nofun
    · have he : Numeral.isPlain e = true := by rcases he with rfl | rfl <;> decide
      have hmark : ∀ c ∈ mark, Numeral.isPlain c = true := by
        simp only [List.mem_cons, List.not_mem_nil, or_false] at hmark
        rcases hmark with rfl | rfl | rfl <;> exact List.all_eq_true.mp rfl
      rw [hpower]
      exact List.forall_mem_cons.mpr ⟨he, List.forall_mem_append.mpr ⟨hmark, hdigits hds⟩⟩
  exact List.forall_mem_append.mpr ⟨Numeral.isPlain_signText, List.forall_mem_append.mpr
    ⟨hdigits ht.whole.digits, List.forall_mem_append.mpr ⟨hfraction, hpower⟩⟩⟩

theorem toLower_of_isDigit {c : Char} (h : isDigit c = true) : c.toLower = c := by
  obtain ⟨hlow, hhigh⟩ := Numeral.isDigit_iff.mp h
  unfold Char.toLower
  split
  · rename_i hupper
    have hle : 65 ≤ c.toNat := hupper.1
    omega
  · rfl

theorem IsFloat.endsDigits (ht : t.IsFloat) : EndsDigits (t.fraction ++ t.power) := by
  by_cases hplaces : t.places = []
  · have hnil : t.fraction = [] := by rw [fraction, hplaces]; rfl
    rw [hnil, List.nil_append]
    have hend : EndsDigits [] := fun c hc => by cases hc
    simpa using Pattern.endsDigits_power ht.power hend
  · rw [fraction, fractionText_of_ne_nil hplaces]
    intro c hc
    obtain rfl := Option.some.inj hc
    rfl

theorem IsFloat.magnitude?_eq (ht : t.IsFloat) :
    Numeral.magnitude? t.negative (t.whole ++ (t.fraction ++ t.power)) = some t.value := by
  have hwhole := takeWhile_digits ht.whole.digits ht.endsDigits
  have hne : (t.whole ++ t.places).isEmpty = false := by simp [ht.whole.nonempty]
  have hexponent (hpower : Pattern.IsPower t.power) :
      Pattern.exponent t.power = some t.power.length :=
    Pattern.exponent_iff.mpr ⟨t.power, [], by simp, rfl, hpower, nofun⟩
  unfold Numeral.magnitude?
  simp only [hwhole, List.drop_left]
  by_cases hplaces : t.places = []
  · have hnil : t.fraction = [] := by rw [fraction, hplaces]; rfl
    have hpower := ht.power.resolve_left (ht.marked.resolve_left fun h => h hplaces)
    have hlength := hexponent hpower
    obtain ⟨e, mark, ds, htext, he, -⟩ := hpower
    rw [hnil, List.nil_append, htext]
    rw [htext] at hlength
    rcases he with rfl | rfl <;>
      simp [hlength, ht.whole.nonempty, value, decimal, powerValue, htext, hplaces]
  · have hdot : t.fraction ++ t.power = '.' :: (t.places ++ t.power) := by
      rw [fraction, fractionText_of_ne_nil hplaces]
      rfl
    have hrest : EndsDigits t.power := by
      simpa using @Pattern.endsDigits_power _ [] ht.power nofun
    rw [hdot]
    simp only [takeWhile_digits ht.places hrest, List.drop_left, hne]
    rcases ht.power with hnil | hpower
    · simp [hnil, value, decimal, powerValue, Numeral.digitsValue]
    · have hlength := hexponent hpower
      obtain ⟨e, mark, ds, htext, -⟩ := hpower
      rw [htext] at hlength ⊢
      simp only [hlength, if_true, value, decimal, powerValue, htext]
      rfl

/-- A float as it is written in a document. -/
theorem IsFloat.literalFloat?_eq (ht : t.IsFloat) :
    Numeral.literalFloat? t.text = some t.value := by
  obtain ⟨d, tail, hwhole, hd⟩ := ht.whole.head
  have hword (w : String) (hw : w.toList.head?.all (! isDigit ·) = true) :
      (String.ofList (Numeral.lower (t.whole ++ (t.fraction ++ t.power))) == w) = false := by
    refine beq_eq_false_iff_ne.mpr fun heq => ?_
    have hhead := congrArg (fun s => s.toList.head?) heq
    simp only [String.toList_ofList, Numeral.lower, hwhole, List.cons_append, List.map_cons,
      List.head?_cons, toLower_of_isDigit hd] at hhead
    rw [← hhead, Option.all_some, hd] at hw
    exact nomatch hw
  have hunsigned : Numeral.unsignedFloat? t.negative (t.whole ++ (t.fraction ++ t.power)) =
      some t.value := by
    unfold Numeral.unsignedFloat?
    simp only [hword "inf" (by decide), hword "infinity" (by decide), hword "nan" (by decide),
      Bool.or_self, Bool.false_eq_true, if_false]
    exact ht.magnitude?_eq
  unfold Numeral.literalFloat?
  rw [Numeral.normalize_of_isPlain ht.isPlain, Numeral.joinDigits?_of_isPlain ht.isPlain,
    Option.bind_some, text]
  cases hnegative : t.negative with
  | true =>
    rw [hnegative] at hunsigned
    exact hunsigned
  | false =>
    rw [hnegative] at hunsigned
    have hplus : d ≠ '+' := Pattern.ne_of_isDigit hd (by decide)
    have hminus : d ≠ '-' := Pattern.ne_of_isDigit hd (by decide)
    show Numeral.signedFloat? (t.whole ++ (t.fraction ++ t.power)) = _
    rw [hwhole, List.cons_append, Numeral.signedFloat?]
    · rw [← List.cons_append, ← hwhole]
      exact hunsigned
    · rintro cs heq
      exact hminus (List.cons.inj heq).1
    · rintro cs heq
      exact hplus (List.cons.inj heq).1

end NumberText

/-! Names and strings. -/

theorem isName_of_pattern {text : List Char} {n : Nat} (h : Pattern.name text = some n) :
    isName (text.take n) = true := by
  cases text with
  | nil => exact nomatch h
  | cons c cs =>
    simp only [Pattern.name, Option.ite_none_right_eq_some, Option.some.injEq] at h
    obtain ⟨hstart, rfl⟩ := h
    have htaken : cs.take (cs.takeWhile isNameRest).length = cs.takeWhile isNameRest :=
      (List.prefix_iff_eq_take.mp (List.takeWhile_prefix isNameRest)).symm
    rw [Nat.add_comm, List.take_succ_cons, htaken]
    simp [isName, hstart, List.all_takeWhile]

theorem word_spec {w : String} {text : List Char} {n : Nat} (h : Pattern.word w text = some n) :
    text.take n = w.toList := by
  simp only [Pattern.word, Option.ite_none_right_eq_some, Option.some.injEq] at h
  obtain ⟨hfront, rfl⟩ := h
  exact (List.prefix_iff_eq_take.mp (List.isPrefixOf_iff_prefix.mp hfront)).symm

/-- The terminals that a name may be read as. -/
def Terminal.isNameLike : Terminal → Bool
  | name | keyword _ => true
  | _ => false

theorem Token.IsLexeme.isValidName {t : Token} (h : t.IsLexeme)
    (ht : t.terminal.isNameLike = true) : isValidName (String.ofList t.text) = true := by
  obtain ⟨text, n, hn, htext⟩ := h
  rw [GraphQLDoc.isValidName, String.toList_ofList, htext]
  cases hterminal : t.terminal with
  | name =>
    rw [hterminal] at hn
    exact isName_of_pattern hn
  | keyword k =>
    rw [hterminal] at hn
    rw [word_spec hn]
    exact IsSpelling.isName_word k
  | _ => simp [hterminal, Terminal.isNameLike] at ht

/-- A text that opens with a quote is read as a string or not at all. -/
theorem StringLiteral.decode_of_quote {cs : List Char} {v : Json} :
    StringLiteral.decode ('"' :: cs) ≠ .error (.notAString v) := by
  intro h
  unfold StringLiteral.decode at h
  have hread (levels : Nat) (v : Json) (hv : Json.read false levels ('"' :: cs) = .ok v) :
      ∃ s, v = .string s := by
    unfold Json.read at hv
    rw [if_neg (by simp)] at hv
    have hskip : Json.skipBlanks (.ofText ('"' :: cs)) = .ofText ('"' :: cs) := rfl
    rw [hskip, Json.readValue] at hv
    simp only [Input.ofText] at hv
    cases hs : Json.readString false ⟨.start, '"' :: cs⟩ with
    | error e => simp [hs, bind, Except.bind] at hv
    | ok s =>
      simp only [hs, bind, Except.bind, pure, Except.pure, Json.finish] at hv
      split at hv
      · exact ⟨s.1, (Except.ok.inj hv).symm⟩
      · cases hv
  split at h
  · cases h
  · cases h
  · cases h
  · rename_i v hother hunpaired hv
    obtain ⟨s, rfl⟩ := hread _ v hv
    cases s with
    | text s => exact hother s rfl
    | unpaired ps => exact hunpaired ps rfl

namespace Token.IsLexeme

variable {t : Token}

theorem quoted (h : t.IsLexeme) (ht : t.terminal = .string) : ∃ cs, t.text = '"' :: cs := by
  obtain ⟨text, n, hn, htext⟩ := h
  rw [ht] at hn
  simp only [Pattern.of, Pattern.string] at hn
  split at hn
  · rename_i rest
    obtain ⟨m, rfl⟩ := Nat.exists_eq_add_of_lt (Pattern.stringBody_spec hn).1
    rw [htext, show 1 + m + 1 = m + 1 + 1 by omega, List.take_succ_cons]
    exact ⟨_, rfl⟩
  · cases hn

theorem written_int (h : t.IsLexeme) (ht : t.terminal = .int) :
    ∃ negative ds, t.text = Pattern.signText negative ++ ds ∧ Pattern.IsWhole ds := by
  obtain ⟨text, n, hn, htext⟩ := h
  rw [ht] at hn
  obtain ⟨negative, ds, rest, rfl, rfl, hds, -⟩ := Pattern.int_iff.mp hn
  rw [← List.length_append, ← List.append_assoc, List.take_left] at htext
  exact ⟨negative, ds, htext, hds⟩

theorem written_float (h : t.IsLexeme) (ht : t.terminal = .float) :
    ∃ number : NumberText, t.text = number.text ∧ number.IsFloat := by
  obtain ⟨text, n, hn, htext⟩ := h
  rw [ht] at hn
  obtain ⟨number, rest, rfl, rfl, hnumber, -⟩ := Pattern.float_iff.mp hn
  rw [List.take_left] at htext
  exact ⟨number, htext, hnumber⟩

end Token.IsLexeme

/-- How many digits a token has. -/
def Token.digitCount (t : Token) : Nat := (t.text.filter isDigit).length

theorem Token.digitCount_eq {t : Token} {negative : Bool} {ds : List Char}
    (h : t.text = Pattern.signText negative ++ ds) (hds : Pattern.IsWhole ds) :
    t.digitCount = ds.length := by
  have hsign : (Pattern.signText negative).filter isDigit = [] := by cases negative <;> rfl
  rw [digitCount, h, List.filter_append, hsign, List.nil_append, List.filter_eq_self.mpr hds.digits]

/-- Literals without a value are allowed errors, as is a nesting that is too deep, and where the grammar
has integers that are too long to be read, these are too. -/
structure Allows (g : Grammar) (E : ConversionError → Prop) : Prop where
  literal (p : LiteralProblem) (span : Option Span) : E (.literal p span)
  tooLong {t : Token} (h : g.lexeme t) (ht : t.terminal = .int)
    (hlong : Json.maxIntegerDigits < t.digitCount) (n : Nat) : E (.text (.integerLength n))
  tooDeep : E .tooDeep

namespace Conversion

variable {g : Grammar} [g.IsUsual] {E : ConversionError → Prop} {t : Token}

theorem gives_integer (hE : Allows g E) (h : g.lexeme t) (ht : t.terminal = .int) :
    Gives E (fun n => minInt64 ≤ n ∧ n ≤ maxInt64) (integer t.leaf) := by
  obtain ⟨negative, ds, htext, hds⟩ := (Grammar.IsUsual.isLexeme h).written_int ht
  have hcount := Token.digitCount_eq htext hds
  simp only [integer, Token.leaf, String.toList_ofList, htext, Numeral.literalInt?_eq hds]
  split
  · rename_i hlong
    exact hE.tooLong h ht (hcount ▸ hlong) _
  · generalize (if negative then _ else _ : Int) = n
    split
    · rename_i hsize
      exact hsize
    · exact hE.literal _ _

theorem gives_float (hE : Allows g E) (h : g.lexeme t) (ht : t.terminal = .float) :
    Gives E (fun x => x.isValid = true) (float t.leaf) := by
  obtain ⟨number, htext, hnumber⟩ := (Grammar.IsUsual.isLexeme h).written_float ht
  simp only [float, Token.leaf, String.toList_ofList, htext, hnumber.literalFloat?_eq]
  split
  · rename_i hfinite
    have hcanonical : number.value.IsCanonical := Binary64.ofDecimal_isCanonical _ _ _
    simpa [Gives, Binary64.isValid, hfinite] using hcanonical
  · exact hE.literal _ _

theorem gives_string (hE : Allows g E) (h : g.lexeme t)
    (ht : t.terminal = .string ∨ t.terminal = .blockString) :
    Gives E (fun _ => True) (string t.leaf) := by
  rcases ht with ht | ht
  · obtain ⟨cs, htext⟩ := (Grammar.IsUsual.isLexeme h).quoted ht
    simp only [Token.leaf, ht, Terminal.tag, htext]
    rw [string, String.toList_ofList]
    · split
      · trivial
      · rename_i v hv
        exact absurd hv StringLiteral.decode_of_quote
      · exact hE.literal _ _
    · exact fun h => absurd h (by decide)
  · simp only [Token.leaf, ht, Terminal.tag, string]
    trivial

end Conversion

end GraphQLDoc
