import GraphQLDoc.Proofs.Literal.Writing

/-!
Dedenting and indentation. Blanks that are put in front of all lines but the first are cut again, so
that the value of a block string does not depend on how deep it stands in its source. And what
dedenting leaves has line feeds for its line breaks and no blank line at either end.
-/
namespace GraphQLDoc

theorem return_notMem_normalizeNewlines (cs : List Char) : '\r' ∉ normalizeNewlines cs := by
  fun_induction normalizeNewlines cs with
  | case1 => exact List.not_mem_nil
  | case2 _ ih => exact List.not_mem_cons_of_ne_of_not_mem (by decide) ih
  | case3 _ _ ih => exact List.not_mem_cons_of_ne_of_not_mem (by decide) ih
  | case4 c _ _ hc ih => exact List.not_mem_cons_of_ne_of_not_mem (Ne.symm hc) ih

theorem return_notMem_joinLines {lines : List (List Char)} (h : ∀ line ∈ lines, IsOneLine line) :
    '\r' ∉ joinLines lines := by
  have hline {line : List Char} (h : IsOneLine line) : '\r' ∉ line := fun hreturn =>
    absurd (h '\r' hreturn) (by decide)
  induction lines with
  | nil => exact List.not_mem_nil
  | cons first rest ih =>
    obtain ⟨hfirst, hrest⟩ := List.forall_mem_cons.mp h
    cases rest with
    | nil => exact hline hfirst
    | cons next rest =>
      rw [joinLines_cons first (List.cons_ne_nil _ _), List.mem_append, List.mem_cons, not_or, not_or]
      exact ⟨hline hfirst, by decide, ih hrest⟩

namespace Block

/-! Indenting. -/

/-- Puts blanks behind every line break of a text. -/
def indentRest (blanks : List Char) : List Char → List Char
  | [] => []
  | '\r' :: '\n' :: cs => '\r' :: '\n' :: (blanks ++ indentRest blanks cs)
  | '\r' :: cs => '\r' :: (blanks ++ indentRest blanks cs)
  | '\n' :: cs => '\n' :: (blanks ++ indentRest blanks cs)
  | c :: cs => c :: indentRest blanks cs

/-- Puts blanks in front of every line but the first. -/
def indentLines (blanks : List Char) : List (List Char) → List (List Char)
  | [] => []
  | first :: rest => first :: rest.map (blanks ++ ·)

theorem indentRest_head (blanks cs : List Char) : (indentRest blanks cs).head? = cs.head? := by
  fun_cases indentRest blanks cs <;> rfl

theorem splitLines_cons {c : Char} (hc : c ≠ '\n') {cs first : List Char} {rest : List (List Char)}
    (h : splitLines cs = first :: rest) : splitLines (c :: cs) = (c :: first) :: rest := by
  rw [splitLines, h]
  exact hc

section

variable {blanks : List Char} (hblanks : isBlankLine blanks = true)

include hblanks

theorem isOneLine_of_isBlankLine : IsOneLine blanks :=
  fun _ hc => (ne_of_mem_indent hblanks hc).2

/-- Blanks in front of a text stand in front of its first line. -/
theorem splitLines_indent {cs first : List Char} {rest : List (List Char)}
    (h : splitLines cs = first :: rest) :
    splitLines (blanks ++ cs) = (blanks ++ first) :: rest := by
  have hline := isOneLine_of_isBlankLine hblanks
  clear hblanks
  induction blanks with
  | nil => exact h
  | cons _ blanks ih => exact splitLines_cons hline.of_cons.1 (ih hline.of_cons.2)

/-- Blanks behind a line break stand in front of the line that begins there. -/
theorem splitLines_break {cs : List Char} {lines : List (List Char)}
    (h : splitLines cs = indentLines blanks lines) :
    splitLines ('\n' :: (blanks ++ cs)) = indentLines blanks ([] :: lines) := by
  cases lines with
  | nil => exact absurd h (splitLines_ne_nil cs)
  | cons first rest => rw [splitLines, splitLines_indent hblanks h]; rfl

theorem splitLines_indentRest (raw : List Char) :
    splitLines (normalizeNewlines (indentRest blanks raw)) =
      indentLines blanks (splitLines (normalizeNewlines raw)) := by
  have hline := isOneLine_of_isBlankLine hblanks
  fun_induction indentRest blanks raw with
  | case1 => rfl
  | case2 cs ih =>
    rw [normalizeNewlines, normalizeNewlines, hline.normalize_append]
    exact splitLines_break hblanks ih
  | case3 cs hfeed ih =>
    have hhead : cs.head? ≠ some '\n' := fun h => by
      obtain ⟨tail, htail⟩ := List.head?_eq_some_iff.mp h
      exact hfeed tail htail
    have hbehind : (blanks ++ indentRest blanks cs).head? ≠ some '\n' := by
      cases blanks with
      | nil => rwa [List.nil_append, indentRest_head]
      | cons c blanks => exact fun h => hline.of_cons.1 (Option.some.inj h)
    rw [normalizeNewlines_return hhead, normalizeNewlines_return hbehind, hline.normalize_append]
    exact splitLines_break hblanks ih
  | case4 cs ih =>
    rw [normalizeNewlines_cons (by decide), normalizeNewlines_cons (by decide),
      hline.normalize_append]
    exact splitLines_break hblanks ih
  | case5 c cs _ hreturn hfeed ih =>
    rw [normalizeNewlines_cons hreturn, normalizeNewlines_cons hreturn]
    obtain ⟨first, rest, hlines⟩ :=
      List.exists_cons_of_ne_nil (splitLines_ne_nil (normalizeNewlines cs))
    rw [hlines] at ih
    rw [splitLines_cons hfeed ih, splitLines_cons hfeed hlines]
    rfl

/-- The least indentation grows by what all lines are indented by. -/
theorem commonIndent_map (lines : List (List Char)) :
    commonIndent (lines.map (blanks ++ ·)) = (commonIndent lines).map (blanks.length + ·) := by
  have hfilter : (lines.map (blanks ++ ·)).filter (fun line => !isBlankLine line) =
      (lines.filter fun line => !isBlankLine line).map (blanks ++ ·) := by
    rw [List.filter_map]
    exact congrArg (List.map _) (List.filter_congr fun line _ => by
      rw [Function.comp_apply, isBlankLine_indent hblanks])
  have hindents : ((lines.filter fun line => !isBlankLine line).map (blanks ++ ·)).map indentOf =
      ((lines.filter fun line => !isBlankLine line).map indentOf).map (blanks.length + ·) := by
    rw [List.map_map, List.map_map]
    exact List.map_congr_left fun line _ => indentOf_indent hblanks line
  rw [commonIndent, hfilter, hindents, commonIndent]
  cases hmin : ((lines.filter fun line => !isBlankLine line).map indentOf).min? with
  | none => rw [List.min?_eq_none_iff.mp hmin]; rfl
  | some n =>
    obtain ⟨hmem, hle⟩ := List.min?_eq_some_iff.mp hmin
    refine List.min?_eq_some_iff.mpr ⟨List.mem_map_of_mem hmem, ?_⟩
    exact List.forall_mem_map.mpr fun m hm => Nat.add_le_add_left (hle m hm) _

end

/-! Cutting and trimming. -/

/-- Lines of which neither the first nor the last is blank. -/
structure IsTrimmed (lines : List (List Char)) : Prop where
  first : ∃ line, lines.head? = some line ∧ isBlankLine line = false
  last : ∃ line, lines.getLast? = some line ∧ isBlankLine line = false

theorem dropWhile_isBlankLine_head {lines : List (List Char)}
    (h : lines.dropWhile isBlankLine ≠ []) :
    ∃ line, (lines.dropWhile isBlankLine).head? = some line ∧ isBlankLine line = false := by
  obtain ⟨line, rest, hrest⟩ := List.exists_cons_of_ne_nil h
  have hline := List.head?_dropWhile_not isBlankLine lines
  rw [hrest] at hline ⊢
  exact ⟨line, rfl, hline⟩

theorem trimBlank_trimmed (lines : List (List Char)) :
    trimBlank lines = [] ∨ IsTrimmed (trimBlank lines) := by
  rw [trimBlank]
  generalize hfront : lines.dropWhile isBlankLine = front
  by_cases hback : front.reverse.dropWhile isBlankLine = []
  · exact .inl (by rw [hback]; rfl)
  · have hne : front ≠ [] := by
      rintro rfl
      exact hback rfl
    obtain ⟨dropped, hdropped⟩ := List.dropWhile_suffix isBlankLine (l := front.reverse)
    obtain ⟨first, hfirst, hfirstBlank⟩ := dropWhile_isBlankLine_head (hfront ▸ hne)
    obtain ⟨last, hlast, hlastBlank⟩ := dropWhile_isBlankLine_head hback
    refine .inr ⟨⟨first, ?_, hfirstBlank⟩, ⟨last, ?_, hlastBlank⟩⟩
    · -- what is dropped at the back does not reach the front
      rw [List.head?_reverse, ← List.getLast?_append_of_ne_nil dropped hback, hdropped,
        List.getLast?_reverse, ← hfront, hfirst]
    · rw [List.getLast?_reverse, hlast]

/-- Of blank lines behind the first nothing is left. -/
theorem trimBlank_blank {first : List Char} {rest : List (List Char)}
    (h : ∀ line ∈ rest, isBlankLine line = true) : trimBlank (first :: rest) = trimBlank [first] := by
  have hrest : ∀ line ∈ rest.reverse, isBlankLine line = true := fun line hline =>
    h line (List.mem_reverse.mp hline)
  by_cases hfirst : isBlankLine first = true
  · have hall : (first :: rest ++ []).dropWhile isBlankLine = [] :=
      List.dropWhile_append_of_pos (List.forall_mem_cons.mpr ⟨hfirst, h⟩)
    rw [List.append_nil] at hall
    rw [trimBlank, hall, trimBlank, List.dropWhile_cons_of_pos hfirst, List.dropWhile_nil]
  · have hsingle : [first].dropWhile isBlankLine = [first] := List.dropWhile_cons_of_neg hfirst
    rw [trimBlank, List.dropWhile_cons_of_neg hfirst, List.reverse_cons,
      List.dropWhile_append_of_pos hrest, trimBlank, hsingle, List.reverse_singleton, hsingle,
      List.reverse_singleton]

theorem isBlankLine_of_commonIndent_eq_none {lines : List (List Char)}
    (h : commonIndent lines = none) : ∀ line ∈ lines, isBlankLine line = true := by
  intro line hline
  rw [commonIndent, List.min?_eq_none_iff, List.map_eq_nil_iff, List.filter_eq_nil_iff] at h
  simpa using h line hline

/-- What all lines but the first are indented by is cut. -/
theorem dedentLines_indentLines {blanks : List Char} (hblanks : isBlankLine blanks = true)
    (lines : List (List Char)) : dedentLines (indentLines blanks lines) = dedentLines lines := by
  cases lines with
  | nil => rfl
  | cons first rest =>
    rw [indentLines, dedentLines, dedentLines, commonIndent_map hblanks]
    cases hindent : commonIndent rest with
    | none =>
      -- nothing is cut from blank lines, but they are dropped
      have hrest := isBlankLine_of_commonIndent_eq_none hindent
      simp only [Option.map_none, Option.getD_none, List.drop_zero, List.map_id']
      rw [trimBlank_blank hrest]
      refine trimBlank_blank (List.forall_mem_map.mpr fun line hline => ?_)
      rw [isBlankLine_indent hblanks, hrest line hline]
    | some n =>
      have hcut (line : List Char) : (blanks ++ line).drop (blanks.length + n) = line.drop n := by
        rw [← List.drop_drop, List.drop_left]
      simp only [Option.map_some, Option.getD_some, List.map_map, Function.comp_def, hcut]

theorem mem_trimBlank {lines : List (List Char)} {line : List Char} (h : line ∈ trimBlank lines) :
    line ∈ lines := by
  have hback := (List.dropWhile_suffix isBlankLine).subset (List.mem_reverse.mp h)
  exact (List.dropWhile_suffix isBlankLine).subset (List.mem_reverse.mp hback)

theorem isOneLine_dedentLines {lines : List (List Char)} (h : ∀ line ∈ lines, IsOneLine line) :
    ∀ line ∈ dedentLines lines, IsOneLine line := by
  cases lines with
  | nil => exact h
  | cons first rest =>
    obtain ⟨hfirst, hrest⟩ := List.forall_mem_cons.mp h
    intro line hline
    obtain rfl | hline := List.mem_cons.mp (mem_trimBlank hline)
    · exact hfirst
    · obtain ⟨whole, hwhole, rfl⟩ := List.mem_map.mp hline
      exact fun c hc => hrest whole hwhole c (List.mem_of_mem_drop hc)

theorem dedentLines_trimmed (lines : List (List Char)) :
    dedentLines lines = [] ∨ IsTrimmed (dedentLines lines) := by
  cases lines with
  | nil => exact .inl rfl
  | cons first rest => exact trimBlank_trimmed _

/-- Dedenting gives the same for a text however far its lines behind the first are indented, and what
it gives has no carriage return and is empty or has no blank line at either end. -/
theorem dedent_indentRest (raw : List Char) :
    (∀ blanks, isBlankLine blanks = true → dedent (indentRest blanks raw) = dedent raw) ∧
      '\r' ∉ dedent raw ∧ (dedent raw = [] ∨ IsTrimmed (splitLines (dedent raw))) := by
  have hlines : ∀ line ∈ dedentLines (splitLines (normalizeNewlines raw)), IsOneLine line :=
    isOneLine_dedentLines (isOneLine_splitLines (return_notMem_normalizeNewlines raw))
  refine ⟨fun blanks hblanks => ?_, return_notMem_joinLines hlines, ?_⟩
  · rw [dedent, splitLines_indentRest hblanks, dedentLines_indentLines hblanks, dedent]
  · rw [dedent]
    obtain hnil | htrimmed := dedentLines_trimmed (splitLines (normalizeNewlines raw))
    · exact .inl (by rw [hnil]; rfl)
    · refine .inr ?_
      rw [splitLines_joinLines hlines]
      · exact htrimmed
      · rintro hnil
        obtain ⟨line, hline, -⟩ := htrimmed.first
        rw [hnil] at hline
        cases hline

/-- Lines with all three line breaks, of which a blank one is shorter than the indentation. -/
def unevenText : List Char := "\ta\r\n  b\r \n    c\r\n ".toList

theorem dedent_indentRest_uneven :
    isBlankLine ['\t', ' '] = true ∧
      indentRest ['\t', ' '] unevenText = "\ta\r\n\t   b\r\t  \n\t     c\r\n\t  ".toList ∧
      dedent (indentRest ['\t', ' '] unevenText) = dedent unevenText ∧
      dedent unevenText = "\ta\nb\n\n  c".toList ∧ '\r' ∉ dedent unevenText ∧
      (dedent unevenText = [] ∨ IsTrimmed (splitLines (dedent unevenText))) := by
  obtain ⟨hindent, hreturn, htrimmed⟩ := dedent_indentRest unevenText
  exact ⟨by decide, by decide, hindent _ (by decide), by decide, hreturn, htrimmed⟩

end Block

end GraphQLDoc
