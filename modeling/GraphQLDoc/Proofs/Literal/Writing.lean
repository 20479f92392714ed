import GraphQLDoc.Proofs.Parse.Integers
import GraphQLDoc.Proofs.ParseTree.Blocks
import GraphQLDoc.Proofs.Token.Newlines

/-!
Block strings that are written. The lines of a text are indented alike, its triple quotes are escaped,
and the quotes around it stand on lines of their own. What is read back is the text, if dedenting has
nothing else to cut: it is empty, or neither end of it is blank and some line is not indented.
-/
namespace GraphQLDoc

/-! Lines. -/

theorem joinLines_cons (line : List Char) {rest : List (List Char)} (h : rest ≠ []) :
    joinLines (line :: rest) = line ++ '\n' :: joinLines rest := by
  obtain ⟨next, rest, rfl⟩ := List.exists_cons_of_ne_nil h
  rfl

theorem joinLines_concat {lines : List (List Char)} (h : lines ≠ []) (last : List Char) :
    joinLines (lines ++ [last]) = joinLines lines ++ '\n' :: last := by
  induction lines with
  | nil => exact absurd rfl h
  | cons line lines ih =>
    cases lines with
    | nil => rfl
    | cons next lines =>
      have hne : next :: lines ≠ [] := List.cons_ne_nil _ _
      rw [List.cons_append, joinLines_cons line (by simp), ih hne, joinLines_cons line hne,
        List.append_assoc, List.cons_append]

theorem joinLines_splitLines (cs : List Char) : joinLines (splitLines cs) = cs := by
  fun_induction splitLines cs with
  | case1 => rfl
  | case2 cs ih => rw [joinLines_cons [] (splitLines_ne_nil cs), ih]; rfl
  | case3 c cs _ h => exact absurd h (splitLines_ne_nil cs)
  | case4 c cs _ line rest h ih =>
    rw [h] at ih
    cases rest with
    | nil => exact congrArg (c :: ·) ih
    | cons next rest => exact congrArg (c :: ·) ih

namespace IsOneLine

theorem of_cons {c : Char} {line : List Char} (h : IsOneLine (c :: line)) :
    c ≠ '\n' ∧ IsOneLine line := by
  refine ⟨?_, fun d hd => h d (List.mem_cons_of_mem c hd)⟩
  rintro rfl
  exact absurd (h '\n' List.mem_cons_self) (by decide)

theorem splitLines {line : List Char} (h : IsOneLine line) : GraphQLDoc.splitLines line = [line] := by
  induction line with
  | nil => rfl
  | cons c line ih =>
    rw [GraphQLDoc.splitLines, ih h.of_cons.2]
    exact h.of_cons.1

theorem splitLines_append {line : List Char} (h : IsOneLine line) (cs : List Char) :
    GraphQLDoc.splitLines (line ++ '\n' :: cs) = line :: GraphQLDoc.splitLines cs := by
  induction line with
  | nil => rfl
  | cons c line ih =>
    rw [List.cons_append, GraphQLDoc.splitLines, ih h.of_cons.2]
    exact h.of_cons.1

end IsOneLine

theorem isOneLine_splitLines {cs : List Char} (h : '\r' ∉ cs) : ∀ line ∈ splitLines cs, IsOneLine line := by
  fun_induction splitLines cs with
  | case1 => exact List.forall_mem_singleton.mpr (.of_all rfl)
  | case2 cs ih => exact List.forall_mem_cons.mpr ⟨.of_all rfl, ih fun hc => h (.tail _ hc)⟩
  | case3 c cs _ hnil => exact absurd hnil (splitLines_ne_nil cs)
  | case4 c cs hfeed line rest hsplit ih =>
    have hlines := ih fun hc => h (.tail _ hc)
    rw [hsplit] at hlines
    obtain ⟨hline, hrest⟩ := List.forall_mem_cons.mp hlines
    refine List.forall_mem_cons.mpr ⟨List.forall_mem_cons.mpr ⟨?_, hline⟩, hrest⟩
    have hreturn : c ≠ '\r' := fun hc => h (hc ▸ .head _)
    simp [isLineBreak, hreturn, show c ≠ '\n' from hfeed]

section

variable {lines : List (List Char)} (h : ∀ line ∈ lines, IsOneLine line)

include h

theorem splitLines_joinLines (hne : lines ≠ []) : splitLines (joinLines lines) = lines := by
  induction lines with
  | nil => exact absurd rfl hne
  | cons line lines ih =>
    obtain ⟨hline, hlines⟩ := List.forall_mem_cons.mp h
    cases lines with
    | nil => exact hline.splitLines
    | cons next lines =>
      have hne : next :: lines ≠ [] := List.cons_ne_nil _ _
      rw [joinLines_cons line hne, hline.splitLines_append, ih hlines hne]

theorem normalizeNewlines_joinLines : normalizeNewlines (joinLines lines) = joinLines lines := by
  induction lines with
  | nil => rfl
  | cons line lines ih =>
    obtain ⟨hline, hlines⟩ := List.forall_mem_cons.mp h
    cases lines with
    | nil => exact hline.normalize
    | cons next lines =>
      rw [joinLines_cons line (List.cons_ne_nil _ _), hline.normalize_append,
        normalizeNewlines_cons (by decide), ih hlines]

end

namespace Block

/-! Quotes. -/

/-- Writes a backslash in front of three quotes, from the left. -/
def escapeQuotes : List Char → List Char
  | '"' :: '"' :: '"' :: cs => '\\' :: '"' :: '"' :: '"' :: escapeQuotes cs
  | c :: cs => c :: escapeQuotes cs
  | [] => []

theorem escapeQuotes_cons {c : Char} (hc : c ≠ '"') (cs : List Char) :
    escapeQuotes (c :: cs) = c :: escapeQuotes cs :=
  escapeQuotes.eq_2 c cs fun _ hquote _ => hc hquote

section

variable {cs rest : List Char} (hrest : ∀ c ∈ rest.head?, c ≠ '"')

include hrest

/-- A quote that comes first is not the first of three. -/
theorem of_escapeQuotes_append {tail : List Char} (h : escapeQuotes cs ++ rest = '"' :: tail) :
    ∃ cs', cs = '"' :: cs' ∧ escapeQuotes cs' ++ rest = tail ∧ ¬ ['"', '"'] <+: cs' := by
  fun_cases escapeQuotes cs with
  | case1 cs =>
    rw [escapeQuotes] at h
    cases h
  | case2 c cs hplain =>
    rw [escapeQuotes.eq_2 c cs hplain] at h
    obtain ⟨rfl, rfl⟩ := List.cons.inj h
    refine ⟨cs, rfl, rfl, ?_⟩
    rintro ⟨more, hmore⟩
    exact hplain more rfl hmore.symm
  | case3 =>
    have hquote : rest = '"' :: tail := h
    exact absurd rfl (hrest '"' (by rw [hquote]; rfl))

/-- What is escaped does not begin with three quotes. -/
theorem escapeQuotes_not_quotes : ¬ quotes <+: escapeQuotes cs ++ rest := by
  rintro ⟨tail, h⟩
  obtain ⟨cs₁, rfl, h₁, hplain⟩ := of_escapeQuotes_append hrest h.symm
  obtain ⟨cs₂, rfl, h₂, -⟩ := of_escapeQuotes_append hrest h₁
  obtain ⟨cs₃, rfl, -, -⟩ := of_escapeQuotes_append hrest h₂
  exact hplain ⟨cs₃, rfl⟩

/-- Escaped text is passed over as a whole. -/
theorem readsTo_escapeQuotes {last : List Char} (h : ReadsTo rest last) :
    ReadsTo (escapeQuotes cs ++ rest) last := by
  fun_induction escapeQuotes cs with
  | case1 cs ih => exact .escape ih
  | case2 c cs hplain ih =>
    refine .plain ?_ ?_ ih
    · rintro ⟨tail, h⟩
      exact escapeQuotes_not_quotes hrest ⟨tail, (List.cons.inj h).2⟩
    · have hinside := @escapeQuotes_not_quotes (c :: cs) rest hrest
      rwa [escapeQuotes.eq_2 c cs hplain] at hinside
  | case3 => exact h

end

theorem unescape_escapeQuotes (cs : List Char) : unescape (escapeQuotes cs) = cs := by
  fun_induction escapeQuotes cs with
  | case1 cs ih => rw [unescape, ih]
  | case2 c cs _ ih =>
    have hplain : unescape (c :: escapeQuotes cs) = c :: unescape (escapeQuotes cs) := by
      refine unescape.eq_2 c _ fun tail _ htail => ?_
      refine @escapeQuotes_not_quotes cs [] (by simp) ⟨tail, ?_⟩
      rw [List.append_nil]
      exact htail.symm
    rw [hplain, ih]
  | case3 => rfl

/-- Quotes in front of another character are escaped by themselves. -/
theorem escapeQuotes_append (cs : List Char) {rest : List Char} (hrest : ∀ c ∈ rest.head?, c ≠ '"') :
    escapeQuotes (cs ++ rest) = escapeQuotes cs ++ escapeQuotes rest := by
  fun_induction escapeQuotes cs with
  | case1 cs ih =>
    show '\\' :: '"' :: '"' :: '"' :: escapeQuotes (cs ++ rest) = _
    rw [ih]
    rfl
  | case2 c cs hplain ih =>
    rw [List.cons_append, List.cons_append, ← ih]
    refine escapeQuotes.eq_2 c _ fun tail hc htail => ?_
    -- the two characters behind the first are in the text or are not quotes
    obtain _ | ⟨c₁, _ | ⟨c₂, cs⟩⟩ := cs <;>
      simp only [List.cons_append, List.nil_append, List.cons.injEq] at htail
    · exact hrest '"' (by rw [htail]; rfl) rfl
    · exact hrest '"' (by rw [htail.2]; rfl) rfl
    · exact hplain cs hc (by rw [htail.1, htail.2.1])
  | case3 => rfl

theorem escapeQuotes_joinLines (lines : List (List Char)) :
    escapeQuotes (joinLines lines) = joinLines (lines.map escapeQuotes) := by
  induction lines with
  | nil => rfl
  | cons line lines ih =>
    cases lines with
    | nil => rfl
    | cons next lines =>
      have hfeed : ∀ c ∈ ('\n' :: joinLines (next :: lines)).head?, c ≠ '"' := by simp
      rw [joinLines_cons line (List.cons_ne_nil _ _), escapeQuotes_append line hfeed,
        escapeQuotes_cons (by decide), ih]
      rfl

/-! Indentation. -/

section

variable {indent : List Char} (hindent : isBlankLine indent = true)

include hindent

theorem ne_of_mem_indent {c : Char} (hc : c ∈ indent) : c ≠ '"' ∧ isLineBreak c = false := by
  have hblank := List.all_eq_true.mp hindent c hc
  obtain rfl | rfl : c = ' ' ∨ c = '\t' := by simpa [isIndent] using hblank
  all_goals decide

theorem escapeQuotes_indent (line : List Char) :
    escapeQuotes (indent ++ line) = indent ++ escapeQuotes line := by
  have hquotes : ∀ c ∈ indent, c ≠ '"' := fun c hc => (ne_of_mem_indent hindent hc).1
  clear hindent
  induction indent with
  | nil => rfl
  | cons c indent ih =>
    obtain ⟨hc, hquotes⟩ := List.forall_mem_cons.mp hquotes
    rw [List.cons_append, List.cons_append, escapeQuotes_cons hc, ih hquotes]

theorem isBlankLine_indent (line : List Char) :
    isBlankLine (indent ++ line) = isBlankLine line := by
  unfold isBlankLine at *
  rw [List.all_append, hindent, Bool.true_and]

theorem indentOf_indent (line : List Char) :
    indentOf (indent ++ line) = indent.length + indentOf line := by
  rw [indentOf, List.takeWhile_append_of_pos (List.all_eq_true.mp hindent), List.length_append,
    indentOf]

/-- Where a line is not indented by itself, the lines have in common what they were indented by. -/
theorem commonIndent_indent {lines : List (List Char)}
    (hflush : ∃ line ∈ lines, isBlankLine line = false ∧ indentOf line = 0) :
    commonIndent (lines.map (indent ++ ·) ++ [[]]) = some indent.length := by
  have hmem {n : Nat} : n ∈ ((lines.map (indent ++ ·) ++ [[]]).filter fun line =>
      !isBlankLine line).map indentOf ↔
      ∃ line ∈ lines, isBlankLine line = false ∧ n = indent.length + indentOf line := by
    simp only [List.mem_map, List.mem_filter, List.mem_append, List.mem_singleton]
    constructor
    · rintro ⟨line, ⟨⟨line, hline, rfl⟩ | rfl, hblank⟩, rfl⟩
      · rw [isBlankLine_indent hindent, Bool.not_eq_true'] at hblank
        exact ⟨line, hline, hblank, indentOf_indent hindent line⟩
      · cases hblank
    · rintro ⟨line, hline, hblank, rfl⟩
      refine ⟨indent ++ line, ⟨.inl ⟨line, hline, rfl⟩, ?_⟩, indentOf_indent hindent line⟩
      rw [isBlankLine_indent hindent, hblank]
      rfl
  rw [commonIndent, List.min?_eq_some_iff]
  obtain ⟨line, hline, hblank, hzero⟩ := hflush
  refine ⟨hmem.mpr ⟨line, hline, hblank, by rw [hzero]; rfl⟩, fun n hn => ?_⟩
  obtain ⟨line, -, -, rfl⟩ := hmem.mp hn
  exact Nat.le_add_right _ _

end

/-- Lines from which dedenting cuts nothing: neither end is blank, and some line is not indented. -/
structure IsFlush (lines : List (List Char)) : Prop where
  first : ∀ line ∈ lines.head?, isBlankLine line = false
  last : ∀ line ∈ lines.getLast?, isBlankLine line = false
  flush : ∃ line ∈ lines, isBlankLine line = false ∧ indentOf line = 0

theorem dropWhile_isBlankLine {lines : List (List Char)}
    (h : ∀ line ∈ lines.head?, isBlankLine line = false) : lines.dropWhile isBlankLine = lines := by
  cases lines with
  | nil => rfl
  | cons line lines => exact List.dropWhile_cons_of_neg (by simp [h line rfl])

/-- Blank lines are cut from both ends, and no others. -/
theorem IsFlush.trimBlank {lines : List (List Char)} (h : IsFlush lines) :
    trimBlank ([] :: (lines ++ [[]])) = lines := by
  have hfront : ∀ line ∈ (lines ++ [[]]).head?, isBlankLine line = false := by
    obtain ⟨line, hline, -⟩ := h.flush
    rw [List.head?_append_of_ne_nil _ (List.ne_nil_of_mem hline)]
    exact h.first
  have hback : ∀ line ∈ lines.reverse.head?, isBlankLine line = false := by
    rw [List.head?_reverse]
    exact h.last
  rw [Block.trimBlank, List.dropWhile_cons_of_pos rfl, dropWhile_isBlankLine hfront,
    List.reverse_concat, List.dropWhile_cons_of_pos rfl, dropWhile_isBlankLine hback,
    List.reverse_reverse]

theorem IsFlush.dedentLines {lines : List (List Char)} (h : IsFlush lines) {indent : List Char}
    (hindent : isBlankLine indent = true) :
    dedentLines ([] :: (lines.map (indent ++ ·) ++ [[]])) = lines := by
  have hdrop : (lines.map (indent ++ ·) ++ [[]]).map (List.drop indent.length) = lines ++ [[]] := by
    simp [Function.comp_def]
  rw [Block.dedentLines, commonIndent_indent hindent h.flush, Option.getD_some, hdrop, h.trimBlank]

/-! Writing. -/

/-- The block string for a text whose lines are indented. -/
def write (indent text : List Char) : List Char :=
  quotes ++ '\n' :: joinLines ((splitLines text).map fun line => indent ++ escapeQuotes line) ++
    '\n' :: quotes

/-- The lines between the quotes. -/
def writtenLines (indent text : List Char) : List (List Char) :=
  [] :: ((splitLines text).map (indent ++ ·) ++ [[]])

/-- The quotes behind the lines are the first that are not escaped. -/
theorem isClosed_writtenLines (indent text : List Char) :
    IsClosed (escapeQuotes (joinLines (writtenLines indent text))) := by
  have hlast : joinLines (writtenLines indent text) =
      joinLines ([] :: (splitLines text).map (indent ++ ·)) ++ ['\n'] :=
    joinLines_concat (List.cons_ne_nil _ _) []
  have hfeed : ReadsTo ('\n' :: quotes) quotes := by
    refine .plain ?_ ?_ .here
    all_goals decide
  rw [hlast, escapeQuotes_append _ (by simp), IsClosed, List.append_assoc]
  exact readsTo_escapeQuotes (by simp [escapeQuotes]) hfeed

/-- Nothing is left of blank lines. -/
theorem dedentLines_blank {indent : List Char} (hindent : isBlankLine indent = true) :
    dedentLines [[], indent, []] = [] := by
  have hdrop (cut : Nat) : isBlankLine (indent.drop cut) = true :=
    List.all_eq_true.mpr fun c hc => List.all_eq_true.mp hindent c (List.mem_of_mem_drop hc)
  simp only [Block.dedentLines, Block.trimBlank, List.map_cons, List.map_nil, List.drop_nil]
  rw [List.dropWhile_cons_of_pos rfl, List.dropWhile_cons_of_pos (hdrop _),
    List.dropWhile_cons_of_pos rfl]
  rfl

section

variable {indent text : List Char} (hindent : isBlankLine indent = true)

include hindent

/-- All that is escaped are the quotes of the text. -/
theorem write_eq : write indent text =
    quotes ++ escapeQuotes (joinLines (writtenLines indent text)) ++ quotes := by
  have hlines : (writtenLines indent text).map escapeQuotes =
      [] :: ((splitLines text).map (fun line => indent ++ escapeQuotes line) ++ [[]]) := by
    simp [writtenLines, escapeQuotes_indent hindent, escapeQuotes]
  have hne : (splitLines text).map (fun line => indent ++ escapeQuotes line) ≠ [] := by
    simp [splitLines_ne_nil]
  rw [escapeQuotes_joinLines, hlines, joinLines_cons [] (by simp), joinLines_concat hne, write]
  simp

variable (hreturn : '\r' ∉ text)

include hreturn

theorem isOneLine_writtenLines : ∀ line ∈ writtenLines indent text, IsOneLine line := by
  have hindented : ∀ line ∈ (splitLines text).map (indent ++ ·), IsOneLine line :=
    List.forall_mem_map.mpr fun line hline =>
      .append (fun c hc => (ne_of_mem_indent hindent hc).2) (isOneLine_splitLines hreturn line hline)
  have hnil : IsOneLine [] := .of_all rfl
  exact List.forall_mem_cons.mpr ⟨hnil, List.forall_mem_append.mpr
    ⟨hindented, List.forall_mem_singleton.mpr hnil⟩⟩

theorem decode_write (h : text = [] ∨ IsFlush (splitLines text)) :
    decode (write indent text) = text := by
  have hlines := isOneLine_writtenLines hindent hreturn
  have hdedent : joinLines (dedentLines (writtenLines indent text)) = text := by
    rcases h with rfl | h
    · rw [writtenLines, splitLines, List.map_singleton, List.append_nil]
      exact congrArg joinLines (dedentLines_blank hindent)
    · rw [writtenLines, h.dedentLines hindent, joinLines_splitLines]
  rw [decode, write_eq hindent, quotes, body_quoted, unescape_escapeQuotes, dedent,
    normalizeNewlines_joinLines hlines, splitLines_joinLines hlines (List.cons_ne_nil _ _), hdedent]

end

end Block

/-- A block string by itself is parsed into a value. -/
theorem parseValue_blockString [Machine] {text : List Char}
    (h : Pattern.blockString text = some text.length) :
    parseValue text = .ok (.string (String.ofList (Block.decode text)) true) := by
  obtain ⟨t, hd, hblock, rfl⟩ := derive_blockString h
  have htree : parseTree .value t.text = .ok (.rule "value_literal" (some t.span)
      [.rule "string_value" (some t.span) [.token "BLOCK_STRING" (String.ofList t.text) t.span]]) := by
    obtain ⟨terminal, text, span⟩ := t
    subst hblock
    rw [parseTree, hd]
    rfl
  have htag : "string_value" ∈ Conversion.valueTags := by decide
  have hvalue : Conversion.value (.rule "string_value" (some t.span)
      [.token "BLOCK_STRING" (String.ofList t.text) t.span]) =
      .ok (.string (String.ofList (Block.decode (String.ofList t.text).toList)) true) := rfl
  rw [String.toList_ofList] at hvalue
  exact parseWith_eq_ok.mpr ⟨_, htree, (Conversion.valueLiteral_eq (u := .rule _ _ _) htag).trans hvalue⟩

/-- A block string that is written for a text is parsed into the text. -/
theorem Block.parseValue_write [Machine] {indent : List Char} (hindent : isBlankLine indent = true)
    {s : String} (hreturn : '\r' ∉ s.toList) (h : s = "" ∨ IsFlush (splitLines s.toList)) :
    parseValue (write indent s.toList) = .ok (.string s true) := by
  have hflush : s.toList = [] ∨ IsFlush (splitLines s.toList) := h.imp_left fun hs => by rw [hs]; rfl
  have hmatch : Pattern.blockString (write indent s.toList) =
      some (write indent s.toList).length := by
    rw [write_eq hindent]
    exact Pattern.blockString_of_isClosed (isClosed_writtenLines indent s.toList)
  rw [parseValue_blockString hmatch, decode_write hindent hreturn hflush, String.ofList_toList]

/-- Four quotes, a blank line, and quotes behind a tab and a backslash. -/
def Block.quoted : String := "\"\"\"\"a\n   \n\t\\\"\"\"b"

theorem Block.parseValue_write_quoted :
    isBlankLine [' ', '\t'] = true ∧ '\r' ∉ quoted.toList ∧ IsFlush (splitLines quoted.toList) ∧
      write [' ', '\t'] quoted.toList =
        "\"\"\"\n \t\\\"\"\"\"a\n \t   \n \t\t\\\\\"\"\"b\n\"\"\"".toList ∧
      @parseValue .usual (write [' ', '\t'] quoted.toList) = .ok (.string quoted true) := by
  have hflush : IsFlush (splitLines quoted.toList) := ⟨by decide, by decide, by decide⟩
  exact ⟨by decide, by decide, hflush, by decide,
    @parseValue_write .usual _ (by decide) quoted (by decide) (.inr hflush)⟩

end GraphQLDoc
