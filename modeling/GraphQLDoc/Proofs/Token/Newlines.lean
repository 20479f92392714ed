import GraphQLDoc.Literal.Block
import GraphQLDoc.Proofs.Token.Follow

/-!
Tokens and line breaks. Only block strings may hold line breaks, and their values do not depend on
how these are written. So a text and the same text with line feeds for all its line breaks give tokens
of the same terminals, of the same texts apart from block strings, and of the same values.
-/
namespace GraphQLDoc

/-- The text lies in one line. -/
def IsOneLine (x : List Char) : Prop := ∀ c ∈ x, isLineBreak c = false

theorem IsOneLine.of_all {x : List Char} (h : x.all (!isLineBreak ·) = true) : IsOneLine x :=
  fun c hc => Bool.not_eq_eq_eq_not.mp (List.all_eq_true.mp h c hc)

theorem IsOneLine.append {x y : List Char} (hx : IsOneLine x) (hy : IsOneLine y) :
    IsOneLine (x ++ y) :=
  fun c hc => (List.mem_append.mp hc).elim (hx c) (hy c)

/-- Characters of a sort that line breaks are not of. -/
theorem IsOneLine.of_forall {p : Char → Bool} {x : List Char} (h : ∀ c ∈ x, p c = true)
    (hfeed : p '\n' = false) (hreturn : p '\r' = false) : IsOneLine x := by
  intro c hc
  have hp := h c hc
  refine Bool.eq_false_iff.mpr fun hbreak => ?_
  simp only [isLineBreak, Bool.or_eq_true, beq_iff_eq] at hbreak
  rcases hbreak with rfl | rfl
  · cases hp.symm.trans hfeed
  · cases hp.symm.trans hreturn

theorem normalizeNewlines_cons {c : Char} (h : c ≠ '\r') (cs : List Char) :
    normalizeNewlines (c :: cs) = c :: normalizeNewlines cs :=
  normalizeNewlines.eq_4 c cs (fun _ hc _ => h hc) h

theorem normalizeNewlines_return {cs : List Char} (h : cs.head? ≠ some '\n') :
    normalizeNewlines ('\r' :: cs) = '\n' :: normalizeNewlines cs := by
  cases cs with
  | nil => rfl
  | cons c cs =>
    have hc : c ≠ '\n' := fun hc => h (hc ▸ rfl)
    rw [normalizeNewlines]
    intro tail htail
    exact hc (List.cons.inj htail).1

theorem normalizeNewlines_head (cs : List Char) :
    ∃ tail, normalizeNewlines ('\r' :: cs) = '\n' :: tail := by
  by_cases h : cs.head? = some '\n'
  · obtain ⟨tail, rfl⟩ := List.head?_eq_some_iff.mp h
    exact ⟨normalizeNewlines tail, rfl⟩
  · exact ⟨_, normalizeNewlines_return h⟩

theorem normalizeNewlines_append {x rest : List Char} (h : rest.head? ≠ some '\n') :
    normalizeNewlines (x ++ rest) = normalizeNewlines x ++ normalizeNewlines rest := by
  fun_induction normalizeNewlines x with
  | case1 => rfl
  | case2 cs ih =>
    show '\n' :: normalizeNewlines (cs ++ rest) = _
    rw [ih]
    rfl
  | case3 cs hcs ih =>
    have hhead : (cs ++ rest).head? ≠ some '\n' := by
      cases cs with
      | nil => exact h
      | cons c cs =>
        intro hc
        obtain rfl := Option.some.inj hc
        exact hcs cs rfl
    rw [List.cons_append, normalizeNewlines_return hhead, ih]
    rfl
  | case4 c cs _ hc ih =>
    rw [List.cons_append, normalizeNewlines_cons hc, ih]
    rfl

theorem IsOneLine.normalize_append {x : List Char} (h : IsOneLine x) (rest : List Char) :
    normalizeNewlines (x ++ rest) = x ++ normalizeNewlines rest := by
  induction x with
  | nil => rfl
  | cons c x ih =>
    obtain ⟨hc, hx⟩ := List.forall_mem_cons.mp h
    have hreturn : c ≠ '\r' := by
      rintro rfl
      cases hc
    rw [List.cons_append, normalizeNewlines_cons hreturn, ih hx, List.cons_append]

theorem IsOneLine.normalize {x : List Char} (h : IsOneLine x) : normalizeNewlines x = x := by
  have happend := h.normalize_append []
  rwa [List.append_nil, show normalizeNewlines [] = [] from rfl, List.append_nil] at happend

theorem normalizeNewlines_eq_cons {c : Char} {cs rest : List Char} (hc : isLineBreak c = false)
    (h : normalizeNewlines cs = c :: rest) : ∃ tail, cs = c :: tail ∧ normalizeNewlines tail = rest := by
  have hfeed : c ≠ '\n' := by
    rintro rfl
    cases hc
  cases cs with
  | nil => cases h
  | cons d cs =>
    by_cases hd : d = '\r'
    · subst hd
      obtain ⟨tail, htail⟩ := normalizeNewlines_head cs
      exact absurd (List.cons.inj (h.symm.trans htail)).1 hfeed
    · rw [normalizeNewlines_cons hd] at h
      obtain ⟨rfl, rfl⟩ := List.cons.inj h
      exact ⟨cs, rfl, rfl⟩

/-- A line of the text with line feeds is a line of the text itself. -/
theorem IsOneLine.of_normalize {x cs rest : List Char} (hx : IsOneLine x)
    (h : normalizeNewlines cs = x ++ rest) : ∃ tail, cs = x ++ tail ∧ normalizeNewlines tail = rest := by
  induction x generalizing cs with
  | nil => exact ⟨cs, rfl, h⟩
  | cons c x ih =>
    obtain ⟨hc, hx⟩ := List.forall_mem_cons.mp hx
    obtain ⟨cs, rfl, hcs⟩ := normalizeNewlines_eq_cons hc h
    obtain ⟨tail, rfl, htail⟩ := ih hx hcs
    exact ⟨tail, rfl, htail⟩

theorem normalizeNewlines_idem (cs : List Char) :
    normalizeNewlines (normalizeNewlines cs) = normalizeNewlines cs := by
  fun_induction normalizeNewlines cs with
  | case1 => rfl
  | case2 cs ih => rw [normalizeNewlines_cons (by decide), ih]
  | case3 cs _ ih => rw [normalizeNewlines_cons (by decide), ih]
  | case4 c cs _ hc ih => rw [normalizeNewlines_cons hc, ih]

/-! What follows a token. -/

theorem hasQuotes_cons_of_ne {c : Char} {cs : List Char} (hc : c ≠ '"') :
    HasQuotes (c :: cs) ↔ HasQuotes cs :=
  ⟨fun h => h.of_cons fun _ hquote _ => hc hquote, HasQuotes.cons⟩

theorem hasQuotes_normalize {cs : List Char} : HasQuotes (normalizeNewlines cs) ↔ HasQuotes cs := by
  fun_induction normalizeNewlines cs with
  | case1 => exact Iff.rfl
  | case2 cs ih =>
    rw [hasQuotes_cons_of_ne (by decide), hasQuotes_cons_of_ne (by decide),
      hasQuotes_cons_of_ne (by decide), ih]
  | case3 cs _ ih => rw [hasQuotes_cons_of_ne (by decide), hasQuotes_cons_of_ne (by decide), ih]
  | case4 c cs _ hc ih =>
    have hquotes : IsOneLine ['"', '"'] := .of_all rfl
    constructor
    · intro h
      by_cases hfront : ∃ tail, c = '"' ∧ cs = ['"', '"'] ++ tail
      · obtain ⟨tail, rfl, rfl⟩ := hfront
        exact ⟨[], tail, rfl⟩
      · refine HasQuotes.cons (ih.mp (h.of_cons fun tail hc htail => hfront ?_))
        obtain ⟨tail, rfl, -⟩ := hquotes.of_normalize htail
        exact ⟨tail, hc, rfl⟩
    · intro h
      by_cases hfront : ∃ tail, c = '"' ∧ cs = ['"', '"'] ++ tail
      · obtain ⟨tail, rfl, rfl⟩ := hfront
        rw [hquotes.normalize_append]
        exact ⟨[], normalizeNewlines tail, rfl⟩
      · exact HasQuotes.cons (ih.mpr (h.of_cons fun tail hc htail => hfront ⟨tail, hc, htail⟩))

/-- The line breaks that follow a token may be written in another way. -/
theorem replaces_normalize (x rest : List Char) :
    Replaces x rest (normalizeNewlines rest) ∧ Replaces x (normalizeNewlines rest) rest := by
  cases rest with
  | nil => exact ⟨.refl _ _, .refl _ _⟩
  | cons c rest =>
    by_cases hc : c = '\r'
    · subst hc
      obtain ⟨tail, htail⟩ := normalizeNewlines_head rest
      refine ⟨⟨.inr ?_, fun _ => hasQuotes_normalize.mp, ?_⟩,
        ⟨.inr ?_, fun _ => hasQuotes_normalize.mpr, ?_⟩⟩
      · rw [htail]
        simp [Stops, isSeparator]
      · rw [htail]
        simp
      · simp [Stops, isSeparator]
      · simp
    · rw [normalizeNewlines_cons hc]
      have hquotes := @hasQuotes_normalize (c :: rest)
      rw [normalizeNewlines_cons hc] at hquotes
      exact ⟨⟨.inl rfl, fun _ => hquotes.mp, fun _ _ => hasQuotes_normalize.mp⟩,
        ⟨.inl rfl, fun _ => hquotes.mpr, fun _ _ => hasQuotes_normalize.mpr⟩⟩

theorem isNameRest_of_isName {x : List Char} (h : isName x = true) : ∀ c ∈ x, isNameRest c = true := by
  cases x with
  | nil => simp
  | cons c x =>
    simp only [isName, Bool.and_eq_true, List.all_eq_true] at h
    exact List.forall_mem_cons.mpr ⟨by simp [isNameRest, h.1], h.2⟩

theorem IsStringBody.isOneLine {x : List Char} (h : IsStringBody x) : IsOneLine x := by
  induction h with
  | close => exact .of_all rfl
  | @unicode a b c d rest hex _ ih =>
    have hdigits : IsOneLine [a, b, c, d] :=
      .of_forall (List.all_eq_true.mp hex) (by decide) (by decide)
    exact .append (show IsOneLine ['\\', 'u'] from .of_all rfl) (hdigits.append ih)
  | @escape c rest hc _ ih =>
    have hescape : IsOneLine [c] := fun d hd => by
      rw [List.mem_singleton.mp hd]
      simp only [List.mem_cons, List.not_mem_nil, or_false] at hc
      rcases hc with rfl | rfl | rfl | rfl | rfl | rfl | rfl | rfl <;> rfl
    exact .append (show IsOneLine ['\\'] from .of_all rfl) (hescape.append ih)
  | plain hc _ ih =>
    refine List.forall_mem_cons.mpr ⟨?_, ih⟩
    simp only [List.mem_cons, List.not_mem_nil, or_false, not_or] at hc
    simp [isLineBreak, hc]

theorem NumberText.IsFloat.isOneLine_tail {t : NumberText} (h : t.IsFloat) :
    IsOneLine (t.fraction ++ t.power) := by
  have hdigits {ds : List Char} (hds : AreDigits ds) : IsOneLine ds :=
    .of_forall hds (by decide) (by decide)
  refine .append ?_ ?_
  · by_cases hplaces : t.places = []
    · rw [fraction, hplaces]
      exact .of_all rfl
    · rw [fraction, fractionText_of_ne_nil hplaces]
      exact .append (show IsOneLine ['.'] from .of_all rfl) (hdigits h.places)
  · rcases h.power with hpower | ⟨e, sign, ds, hpower, he, hsign, -, hds⟩
    · rw [hpower]
      exact .of_all rfl
    · have hmark : IsOneLine (e :: sign) := by
        simp only [List.mem_cons, List.not_mem_nil, or_false] at hsign
        rcases he with rfl | rfl <;> rcases hsign with rfl | rfl | rfl <;> exact .of_all rfl
      rw [hpower]
      exact hmark.append (hdigits hds)

namespace Pattern

/-- Apart from block strings, tokens lie in one line. -/
theorem isOneLine_of {t : Terminal} {x rest : List Char} (ht : t ≠ .blockString)
    (h : of t (x ++ rest) = some x.length) : IsOneLine x := by
  have hdigits {ds : List Char} (hds : AreDigits ds) : IsOneLine ds :=
    .of_forall hds (by decide) (by decide)
  have hsign (negative : Bool) : IsOneLine (signText negative) := by
    cases negative <;> exact .of_all rfl
  cases t with
  | blockString => exact absurd rfl ht
  | name =>
    obtain ⟨y, tail, hsplit, hlength, hy, -⟩ := name_iff.mp h
    obtain ⟨rfl, rfl⟩ := List.append_inj hsplit hlength
    exact .of_forall (isNameRest_of_isName hy) (by decide) (by decide)
  | int =>
    obtain ⟨negative, ds, tail, hsplit, hlength, hds, -⟩ := int_iff.mp h
    rw [← List.append_assoc] at hsplit
    obtain ⟨rfl, rfl⟩ := List.append_inj hsplit (by rw [hlength, List.length_append])
    exact (hsign negative).append (hdigits hds.digits)
  | float =>
    obtain ⟨number, tail, hsplit, hlength, hnumber, -⟩ := float_iff.mp h
    obtain ⟨rfl, rfl⟩ := List.append_inj hsplit hlength
    exact (hsign _).append ((hdigits hnumber.whole.digits).append (hnumber.isOneLine_tail))
  | string =>
    obtain ⟨y, tail, hsplit, hlength, hy⟩ := string_iff.mp h
    obtain ⟨rfl, rfl⟩ := List.append_inj hsplit hlength
    exact List.forall_mem_cons.mpr ⟨rfl, hy.isOneLine⟩
  | keyword k =>
    obtain ⟨tail, hsplit, hlength⟩ := word_iff.mp h
    obtain ⟨rfl, rfl⟩ := List.append_inj hsplit hlength
    cases k <;> exact .of_all rfl
  | punctuator p =>
    obtain ⟨tail, hsplit, hlength⟩ := word_iff.mp h
    obtain ⟨rfl, rfl⟩ := List.append_inj hsplit hlength
    cases p <;> exact .of_all rfl

theorem exists_match {t : Terminal} {cs : List Char} {n : Nat} (h : of t cs = some n) :
    ∃ x rest, cs = x ++ rest ∧ n = x.length :=
  ⟨cs.take n, cs.drop n, (List.take_append_drop n cs).symm,
    (List.length_take_of_le (of_spec h).2).symm⟩

/-- How line breaks are written does not matter to the patterns other than that of block strings. -/
theorem of_normalize {t : Terminal} (ht : t ≠ .blockString) (cs : List Char) :
    of t (normalizeNewlines cs) = of t cs := by
  refine Option.ext fun n => ⟨fun h => ?_, fun h => ?_⟩
  · obtain ⟨x, rest, hsplit, rfl⟩ := exists_match h
    rw [hsplit] at h
    obtain ⟨rest, rfl, rfl⟩ := (isOneLine_of ht h).of_normalize hsplit
    exact of_append h (replaces_normalize _ rest).2
  · obtain ⟨x, rest, rfl, rfl⟩ := exists_match h
    rw [(isOneLine_of ht h).normalize_append]
    exact of_append h (replaces_normalize _ rest).1

/-! Block strings, whose end moves with the line breaks in front of it. -/

theorem blockBody_normalize {cs : List Char} (h : HasQuotes cs) (n n' : Nat)
    (escaped escaped' : Option Nat) :
    ∃ x rest, x ≠ [] ∧ cs = x ++ rest ∧
      normalizeNewlines cs = normalizeNewlines x ++ normalizeNewlines rest ∧
      blockBody n escaped cs = some (n + x.length) ∧
      blockBody n' escaped' (normalizeNewlines cs) = some (n' + (normalizeNewlines x).length) := by
  fun_induction blockBody n escaped cs generalizing n' escaped' with
  | case1 n escaped rest ih =>
    have hfront : IsOneLine ['\\', '"', '"', '"'] := .of_all rfl
    have hcs := hfront.normalize_append rest
    by_cases hq : HasQuotes rest
    · obtain ⟨x, rest, -, rfl, hsplit, hbody, hbody'⟩ := ih hq (n' + 4) (some (n' + 4))
      refine ⟨['\\', '"', '"', '"'] ++ x, rest, List.cons_ne_nil _ _, rfl, ?_, ?_, ?_⟩
      · rw [hfront.normalize_append, List.append_assoc, ← hsplit]
        exact hcs
      · rw [hbody]
        simp only [List.length_append, List.length_cons, List.length_nil]
        congr 1
        omega
      · rw [hfront.normalize_append]
        refine (congrArg (blockBody n' escaped') hcs).trans (hbody'.trans ?_)
        simp only [List.length_append, List.length_cons, List.length_nil]
        congr 1
        omega
    · refine ⟨['\\', '"', '"', '"'], rest, List.cons_ne_nil _ _, rfl, ?_, blockBody_of_not hq, ?_⟩
      · rw [hfront.normalize]
        exact hcs
      · rw [hfront.normalize]
        exact (congrArg (blockBody n' escaped') hcs).trans
          (blockBody_of_not fun hq' => hq (hasQuotes_normalize.mp hq'))
  | case2 n escaped rest =>
    have hfront : IsOneLine ['"', '"', '"'] := .of_all rfl
    refine ⟨['"', '"', '"'], rest, List.cons_ne_nil _ _, rfl, ?_, rfl, ?_⟩
    · rw [hfront.normalize]
      exact hfront.normalize_append rest
    · rw [hfront.normalize]
      exact congrArg (blockBody n' escaped') (hfront.normalize_append rest)
  | case3 n escaped c rest hplain hopen ih =>
    have hq : HasQuotes rest := h.of_cons fun tail hc htail => hopen tail hc htail
    by_cases hc : c = '\r'
    · subst hc
      by_cases hhead : rest.head? = some '\n'
      · -- the line feed behind the carriage return is read next
        obtain ⟨tail, rfl⟩ := List.head?_eq_some_iff.mp hhead
        obtain ⟨x, rest, hne, hrest, hsplit, hbody, hbody'⟩ := ih hq n' escaped'
        obtain ⟨d, x, rfl⟩ := List.exists_cons_of_ne_nil hne
        obtain ⟨rfl, rfl⟩ := List.cons.inj hrest
        refine ⟨'\r' :: '\n' :: x, rest, List.cons_ne_nil _ _, rfl, hsplit, ?_, hbody'⟩
        rw [hbody]
        simp only [List.length_cons]
        congr 1
        omega
      · obtain ⟨x, rest, hne, rfl, hsplit, hbody, hbody'⟩ := ih hq (n' + 1) escaped'
        obtain ⟨d, x, rfl⟩ := List.exists_cons_of_ne_nil hne
        have hx : normalizeNewlines ('\r' :: d :: x) = '\n' :: normalizeNewlines (d :: x) :=
          normalizeNewlines_return hhead
        have hcs : normalizeNewlines ('\r' :: (d :: x ++ rest)) =
            '\n' :: normalizeNewlines (d :: x ++ rest) := normalizeNewlines_return hhead
        refine ⟨'\r' :: d :: x, rest, List.cons_ne_nil _ _, rfl, ?_, ?_, ?_⟩
        · rw [hx, hcs, hsplit, List.cons_append]
        · rw [hbody]
          simp only [List.length_cons]
          congr 1
          omega
        · rw [hx, hcs]
          refine hbody'.trans ?_
          rw [List.length_cons]
          congr 1
          omega
    · obtain ⟨x, rest, -, rfl, hsplit, hbody, hbody'⟩ := ih hq (n' + 1) escaped'
      refine ⟨c :: x, rest, List.cons_ne_nil _ _, rfl, ?_, ?_, ?_⟩
      · rw [normalizeNewlines_cons hc, normalizeNewlines_cons hc, hsplit, List.cons_append]
      · rw [hbody, List.length_cons]
        congr 1
        omega
      · have hstep : blockBody n' escaped' (c :: normalizeNewlines (x ++ rest)) =
            blockBody (n' + 1) escaped' (normalizeNewlines (x ++ rest)) := by
          refine blockBody.eq_3 n' escaped' c _ (fun tail hc htail => ?_) fun tail hc htail => ?_
          · have hquotes : IsOneLine ['"', '"', '"'] := .of_all rfl
            obtain ⟨tail, htail, -⟩ := hquotes.of_normalize htail
            exact hplain tail hc htail
          · have hquotes : IsOneLine ['"', '"'] := .of_all rfl
            obtain ⟨tail, htail, -⟩ := hquotes.of_normalize htail
            exact hopen tail hc htail
        rw [normalizeNewlines_cons hc, normalizeNewlines_cons hc, hstep, hbody', List.length_cons]
        congr 1
        omega
  | case4 => exact absurd h.length_le (by decide)

theorem blockString_normalize (cs : List Char) :
    blockString cs = none ∧ blockString (normalizeNewlines cs) = none ∨
      ∃ x rest, cs = x ++ rest ∧
        normalizeNewlines cs = normalizeNewlines x ++ normalizeNewlines rest ∧
        blockString cs = some x.length ∧
        blockString (normalizeNewlines cs) = some (normalizeNewlines x).length := by
  have hfront : IsOneLine ['"', '"', '"'] := .of_all rfl
  by_cases hopen : ∃ tail, cs = ['"', '"', '"'] ++ tail
  · obtain ⟨tail, rfl⟩ := hopen
    have hcs := hfront.normalize_append tail
    by_cases hq : HasQuotes tail
    · obtain ⟨x, rest, -, rfl, hsplit, hbody, hbody'⟩ := blockBody_normalize hq 3 3 none none
      refine .inr ⟨['"', '"', '"'] ++ x, rest, (List.append_assoc _ _ _).symm, ?_, ?_, ?_⟩
      · rw [hcs, hfront.normalize_append, hsplit, List.append_assoc]
      · rw [List.length_append, Nat.add_comm]
        refine hbody.trans ?_
        rw [Nat.add_comm]
        rfl
      · rw [hcs, hfront.normalize_append, List.length_append, Nat.add_comm]
        refine hbody'.trans ?_
        rw [Nat.add_comm]
        rfl
    · refine .inl ⟨blockBody_of_not hq, ?_⟩
      rw [hcs]
      exact blockBody_of_not fun hq' => hq (hasQuotes_normalize.mp hq')
  · have hnone {cs : List Char} (h : ∀ tail, cs ≠ ['"', '"', '"'] ++ tail) :
        blockString cs = none := by
      unfold blockString
      split
      · exact absurd rfl (h _)
      · rfl
    refine .inl ⟨hnone fun tail htail => hopen ⟨tail, htail⟩, hnone fun tail htail => hopen ?_⟩
    obtain ⟨tail, htail, -⟩ := hfront.of_normalize htail
    exact ⟨tail, htail⟩

end Pattern

/-! The values of block strings. -/

namespace Block

/-- Three quotes stay when a backslash in front of them is dropped, and line breaks stay too. -/
theorem unescape_normalize (cs : List Char) :
    unescape (normalizeNewlines cs) = normalizeNewlines (unescape cs) := by
  have hquotes : IsOneLine ['"', '"', '"'] := .of_all rfl
  have hplain {c : Char} {cs : List Char} (h : ∀ tail, c = '\\' → cs = ['"', '"', '"'] ++ tail → False) :
      unescape (c :: cs) = c :: unescape cs :=
    unescape.eq_2 c cs fun tail hc hcs => h tail hc hcs
  have hbreak {c : Char} (hc : c ≠ '\\') (cs : List Char) : unescape (c :: cs) = c :: unescape cs :=
    hplain fun _ hc' _ => hc hc'
  fun_induction normalizeNewlines cs with
  | case1 => rfl
  | case2 cs ih =>
    rw [hbreak (by decide), hbreak (by decide), hbreak (by decide), ih]
    rfl
  | case3 cs hcs ih =>
    have hhead : (unescape cs).head? ≠ some '\n' := by
      intro hfeed
      unfold unescape at hfeed
      split at hfeed
      · cases hfeed
      · obtain rfl := Option.some.inj hfeed
        exact hcs _ rfl
      · cases hfeed
    rw [hbreak (by decide), hbreak (by decide), normalizeNewlines_return hhead, ih]
  | case4 c cs _ hc ih =>
    by_cases hescape : ∃ tail, c = '\\' ∧ cs = ['"', '"', '"'] ++ tail
    · -- escaped quotes have the value of the quotes behind the backslash
      obtain ⟨tail, rfl, rfl⟩ := hescape
      have hdrop (tail : List Char) :
          unescape ('\\' :: (['"', '"', '"'] ++ tail)) = unescape (['"', '"', '"'] ++ tail) := rfl
      rw [hdrop, ← ih, hquotes.normalize_append, hdrop]
    · rw [hplain fun tail hc' hcs => hescape ⟨tail, hc', hcs⟩, normalizeNewlines_cons hc, ← ih]
      refine hplain fun tail hc' hcs => hescape ?_
      obtain ⟨tail, rfl, -⟩ := hquotes.of_normalize hcs
      exact ⟨tail, hc', rfl⟩

theorem body_quoted (inner : List Char) :
    body (['"', '"', '"'] ++ inner ++ ['"', '"', '"']) = inner := by
  simp [body, List.take_left']

/-- The value of a block string does not depend on how its line breaks are written. -/
theorem decode_normalize {x rest : List Char}
    (h : Pattern.blockString (x ++ rest) = some x.length) :
    decode (normalizeNewlines x) = decode x := by
  obtain ⟨inner, hinner⟩ := (Pattern.blockString_append h id).1
  rw [hinner]
  have hquotes : IsOneLine ['"', '"', '"'] := .of_all rfl
  have hx : normalizeNewlines (['"', '"', '"'] ++ inner ++ ['"', '"', '"']) =
      ['"', '"', '"'] ++ normalizeNewlines inner ++ ['"', '"', '"'] := by
    rw [List.append_assoc, hquotes.normalize_append, normalizeNewlines_append (by decide),
      hquotes.normalize, List.append_assoc]
  rw [hx, decode, decode, body_quoted, body_quoted, unescape_normalize, dedent, dedent,
    normalizeNewlines_idem]

end Block

/-! Matches and ignored text. -/

namespace Match

/-- The matches at the front of a text and of the same text with line feeds: both or none, with the
same terminal, and with the front of the text with line feeds in the place of its own. -/
inductive Corresponds (cs : List Char) : Option Match → Option Match → Prop where
  | none : Corresponds cs none none
  | some (t : Terminal) {x rest : List Char} (text : cs = x ++ rest)
      (normalized : normalizeNewlines cs = normalizeNewlines x ++ normalizeNewlines rest)
      (value : normalizeNewlines x = x ∨
        t = .blockString ∧ Block.decode (normalizeNewlines x) = Block.decode x) :
      Corresponds cs (some ⟨t, x.length⟩) (some ⟨t, (normalizeNewlines x).length⟩)

theorem Corresponds.isSome_eq {cs : List Char} {m m' : Option Match} (h : Corresponds cs m m') :
    m.isSome = m'.isSome := by
  cases h <;> rfl

variable {wanted : List Terminal}

theorem corresponds_of {t : Terminal} (ht : t ≠ .blockString) {cs : List Char}
    {name : List Char → Nat → Terminal}
    (hname : ∀ x rest rest', name (x ++ rest) x.length = name (x ++ rest') x.length) :
    Corresponds cs ((Pattern.of t cs).map fun n => ⟨name cs n, n⟩)
      ((Pattern.of t (normalizeNewlines cs)).map fun n => ⟨name (normalizeNewlines cs) n, n⟩) := by
  rw [Pattern.of_normalize ht]
  cases h : Pattern.of t cs with
  | none => exact .none
  | some n =>
    obtain ⟨x, rest, rfl, rfl⟩ := Pattern.exists_match h
    have hx := Pattern.isOneLine_of ht h
    have hmatch : Corresponds (x ++ rest) (some ⟨name (x ++ rest) x.length, x.length⟩) _ :=
      .some _ rfl (by rw [hx.normalize_append, hx.normalize]) (.inl hx.normalize)
    rw [hx.normalize] at hmatch
    simp only [Option.map_some]
    rw [hx.normalize_append, hname x (normalizeNewlines rest) rest]
    exact hmatch

theorem one?_corresponds (cs : List Char) (t : Terminal) :
    Corresponds cs (one? wanted cs t) (one? wanted (normalizeNewlines cs) t) := by
  cases t with
  | blockString =>
    simp only [one?]
    rcases Pattern.blockString_normalize cs with ⟨h, h'⟩ | ⟨x, rest, rfl, hsplit, h, h'⟩
    · rw [h, h']
      exact .none
    · rw [h, h']
      exact .some .blockString rfl hsplit (.inr ⟨rfl, Block.decode_normalize h⟩)
  | name =>
    refine @corresponds_of .name (by simp) cs (fun cs n => (named wanted cs n).terminal) ?_
    intro x rest rest'
    simp only [named, List.take_left]
  | keyword k =>
    simp only [one?]
    split
    · exact .none
    · exact @corresponds_of (.keyword k) (by simp) cs (fun _ _ => .keyword k) fun _ _ _ => rfl
  | int => exact @corresponds_of .int (by simp) cs (fun _ _ => .int) fun _ _ _ => rfl
  | float => exact @corresponds_of .float (by simp) cs (fun _ _ => .float) fun _ _ _ => rfl
  | string => exact @corresponds_of .string (by simp) cs (fun _ _ => .string) fun _ _ _ => rfl
  | punctuator p =>
    exact @corresponds_of (.punctuator p) (by simp) cs (fun _ _ => .punctuator p) fun _ _ _ => rfl

/-- What is read at the front of a text corresponds to what is read with line feeds. -/
theorem first?_corresponds (wanted : List Terminal) (cs : List Char) :
    Corresponds cs (first? wanted cs) (first? wanted (normalizeNewlines cs)) := by
  unfold first?
  generalize order.filter (· ∈ wanted) = ts
  induction ts with
  | nil => exact .none
  | cons t ts ih =>
    rw [List.findSome?_cons, List.findSome?_cons]
    have hone := @one?_corresponds wanted cs t
    revert hone
    generalize one? wanted cs t = m, one? wanted (normalizeNewlines cs) t = m'
    intro hone
    cases hone with
    | none => exact ih
    | some t text normalized value => exact .some t text normalized value

end Match

/-- Ignored text is passed over in the same way. -/
theorem drop_ignored_normalize (b : Bool) (cs : List Char) :
    (normalizeNewlines cs).drop (ignoredLength b (normalizeNewlines cs)) =
      normalizeNewlines (cs.drop (ignoredLength b cs)) := by
  have hreturn (cs : List Char) :
      ignoredLength b ('\r' :: cs) = ignoredLength false cs + 1 := by
    cases b <;> rfl
  have hfeed (b : Bool) (cs : List Char) :
      ignoredLength b ('\n' :: cs) = ignoredLength false cs + 1 := by
    cases b <;> rfl
  fun_induction normalizeNewlines cs generalizing b with
  | case1 => rfl
  | case2 cs ih =>
    rw [hfeed, hreturn, hfeed]
    exact ih false fun _ => rfl
  | case3 cs _ ih =>
    rw [hfeed, hreturn]
    exact ih false fun _ => rfl
  | case4 c cs _ hc ih =>
    have hstep (b : Bool) (cs : List Char) : ignoredLength b ('\r' :: cs) = ignoredLength false cs + 1 := by
      cases b <;> rfl
    rw [ignoredLength, ignoredLength]
    split
    · exact ih _ (hstep _)
    split
    · exact ih _ (hstep _)
    · exact (normalizeNewlines_cons hc cs).symm

end GraphQLDoc
