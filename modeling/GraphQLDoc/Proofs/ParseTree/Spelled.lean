import GraphQLDoc.Proofs.ParseTree.Completeness
import GraphQLDoc.Proofs.ParseTree.Reading
import GraphQLDoc.Proofs.Token.Spelling
import GraphQLDoc.Proofs.Token.Follow

/-!
Texts that write words: with single spaces between them, or with any separators, or with nothing where
that is enough, which is behind a mark, and in front of what goes on with no word or number and opens
no string. Such a text is read as its words, whichever others are wanted.
-/
namespace GraphQLDoc

/-- What a token is and how it is spelled. -/
abbrev Word := Terminal × List Char

def Token.word (t : Token) : Word := (t.terminal, t.text)

/-- The words with single spaces between them. -/
def spellOut (ws : List Word) : List Char := [' '].intercalate (ws.map Prod.snd)

/-- The words as tokens of the text that spells them out from a position on. -/
def tokensFrom : Position → List Word → List Token
  | _, [] => []
  | p, (t, x) :: ws => ⟨t, x, ⟨p, p.after x⟩⟩ :: tokensFrom ((p.after x).next ' ') ws

theorem map_word_tokensFrom (p : Position) (ws : List Word) :
    (tokensFrom p ws).map Token.word = ws := by
  induction ws generalizing p with
  | nil => rfl
  | cons w ws ih =>
    obtain ⟨t, x⟩ := w
    rw [tokensFrom, List.map_cons, ih]
    rfl

theorem spellOut_cons_cons (t : Terminal) (x : List Char) (w : Word) (ws : List Word) :
    spellOut ((t, x) :: w :: ws) = x ++ ' ' :: spellOut (w :: ws) := by
  simp [spellOut, List.intercalate_cons_cons]

theorem spellOut_singleton (t : Terminal) (x : List Char) : spellOut [(t, x)] = x := by
  simp [spellOut]

/-- A spelling is a match of its terminal. -/
theorem Token.isLexeme_of_spelling {t : Token} (h : IsSpelling t.terminal t.text) : t.IsLexeme := by
  refine ⟨t.text ++ [], t.text.length, ?_, by simp⟩
  obtain ⟨terminal, text, span⟩ := t
  cases h with
  | name isName => exact IsSpelling.name_append isName .nil
  | keyword k => exact (IsSpelling.word_append .nil).trans (if_pos (List.prefix_refl _))
  | punctuator p => exact (IsSpelling.mark_append p p []).trans (if_pos rfl)
  | int negative whole => exact (IsSpelling.int_append whole .nil).1
  | float isFloat => exact (IsSpelling.float_append isFloat .nil).1
  | string quoted whole => exact whole []

namespace Input

/-- What is read of an input is read behind what is passed over. -/
theorem ReadsAs.of_skipIgnored {i j : Input} {ts : List Token} (h : i.ReadsAs ts)
    (hskip : i.skipIgnored = j.skipIgnored) : j.ReadsAs ts := by
  cases h with
  | done empty => exact .done (hskip ▸ empty)
  | next token shorter tail => exact .next (hskip ▸ token) (hskip ▸ shorter) tail

theorem skipIgnored_of_spelling {t : Terminal} {x rest : List Char} (h : IsSpelling t x)
    (p : Position) : skipIgnored ⟨p, x ++ rest⟩ = ⟨p, x ++ rest⟩ := by
  rw [skipIgnored, h.ignoredLength_append]
  rfl

theorem skipIgnored_space {cs : List Char} (h : ignoredLength false cs = 0) (p : Position) :
    skipIgnored ⟨p, ' ' :: cs⟩ = ⟨p.next ' ', cs⟩ := by
  have hlength : ignoredLength false (' ' :: cs) = 1 := by
    show ignoredLength false cs + 1 = 1
    rw [h]
  rw [skipIgnored, hlength]
  rfl

theorem token?_of_spelling {t : Terminal} {x rest : List Char} (h : IsSpelling t x)
    (hrest : Breaks rest) (p : Position) {wanted : List Terminal} (ht : t ∈ wanted) :
    token? wanted ⟨p, x ++ rest⟩ = some (⟨t, x, ⟨p, p.after x⟩⟩, ⟨p.after x, rest⟩) := by
  simp only [token?, h.first?_eq (fun _ => hrest) ht, Option.map_some, drop, List.take_left, List.drop_left]

/-- A text begins with a token if it is matched as that wherever it is wanted. -/
theorem readsAs_of_first? {t : Terminal} {x rest : List Char} (hx : x ≠ [])
    (hignored : ignoredLength false (x ++ rest) = 0)
    (hfirst : ∀ wanted, t ∈ wanted → Match.first? wanted (x ++ rest) = some ⟨t, x.length⟩)
    (p : Position) {ts : List Token} (tail : (⟨p.after x, rest⟩ : Input).ReadsAs ts) :
    (⟨p, x ++ rest⟩ : Input).ReadsAs (⟨t, x, ⟨p, p.after x⟩⟩ :: ts) := by
  have hskip : skipIgnored ⟨p, x ++ rest⟩ = ⟨p, x ++ rest⟩ := by
    rw [skipIgnored, hignored]
    rfl
  refine .next (fun wanted ht => ?_) ?_ tail
  · rw [hskip]
    exact token?_of_first? rfl (hfirst wanted ht)
  · have hpos := List.length_pos_iff.mpr hx
    rw [hskip, List.length_append]
    show rest.length < _
    omega

/-- A spelling is read in front of a break, and a mark in front of anything. -/
theorem readsAs_of_spelling {t : Terminal} {x rest : List Char} (h : IsSpelling t x)
    (hrest : t.kind ≠ .mark → Breaks rest) (p : Position) {ts : List Token}
    (tail : (⟨p.after x, rest⟩ : Input).ReadsAs ts) :
    (⟨p, x ++ rest⟩ : Input).ReadsAs (⟨t, x, ⟨p, p.after x⟩⟩ :: ts) := by
  obtain ⟨c, cs, hx, -⟩ := h.kind_eq
  exact readsAs_of_first? (hx ▸ List.cons_ne_nil c cs) h.ignoredLength_append
    (fun _ ht => h.first?_eq hrest ht) p tail

/-- A text that is matched as a token in front of a break may stand in front of words. -/
theorem readsAs_spellOut_cons {t : Terminal} {x : List Char} {ws : List Word} (hx : x ≠ [])
    (hignored : ∀ rest, ignoredLength false (x ++ rest) = 0)
    (hfirst : ∀ rest, Breaks rest → ∀ wanted, t ∈ wanted →
      Match.first? wanted (x ++ rest) = some ⟨t, x.length⟩)
    (hws : ∀ w ∈ ws, IsSpelling w.1 w.2)
    (htail : ∀ p, (⟨p, spellOut ws⟩ : Input).ReadsAs (tokensFrom p ws)) (p : Position) :
    (⟨p, spellOut ((t, x) :: ws)⟩ : Input).ReadsAs (tokensFrom p ((t, x) :: ws)) := by
  cases ws with
  | nil =>
    rw [spellOut_singleton, ← List.append_nil x]
    have htokens : tokensFrom p [(t, x ++ [])] = [⟨t, x, ⟨p, p.after x⟩⟩] := by
      rw [List.append_nil]
      rfl
    rw [htokens]
    exact readsAs_of_first? hx (hignored []) (hfirst [] .nil) p (.done rfl)
  | cons w ws =>
    have htext : ∃ rest, spellOut (w :: ws) = w.2 ++ rest := by
      cases ws with
      | nil => exact ⟨[], (spellOut_singleton w.1 w.2).trans (List.append_nil _).symm⟩
      | cons v ws => exact ⟨_, spellOut_cons_cons w.1 w.2 v ws⟩
    obtain ⟨rest, htext⟩ := htext
    have hw := hws w List.mem_cons_self
    have hnone : ignoredLength false (spellOut (w :: ws)) = 0 := by
      rw [htext]
      exact hw.ignoredLength_append
    rw [spellOut_cons_cons]
    refine readsAs_of_first? hx (hignored _) (hfirst _ (.space _)) p ?_
    refine (htail ((p.after x).next ' ')).of_skipIgnored ?_
    rw [skipIgnored_space hnone, htext, skipIgnored_of_spelling hw]

theorem readsAs_spellOut {ws : List Word} (hws : ∀ w ∈ ws, IsSpelling w.1 w.2) (p : Position) :
    (⟨p, spellOut ws⟩ : Input).ReadsAs (tokensFrom p ws) := by
  induction ws generalizing p with
  | nil => exact .done rfl
  | cons w ws ih =>
    obtain ⟨hw, hws⟩ := List.forall_mem_cons.mp hws
    obtain ⟨c, cs, hx, -⟩ := hw.kind_eq
    exact readsAs_spellOut_cons (hx ▸ List.cons_ne_nil c cs) (fun _ => hw.ignoredLength_append)
      (fun _ hrest _ ht => hw.first?_eq (fun _ => hrest) ht) hws (ih hws) p

end Input

/-! Texts with other gaps, or with none where that is enough. -/

/-- The text writes the words one behind the other. -/
inductive IsWritten : List Word → List Char → Prop where
  | nil : IsWritten [] []
  | separator {c : Char} {ws : List Word} {rest : List Char} (hc : isSeparator c = true)
      (h : IsWritten ws rest) : IsWritten ws (c :: rest)
  | word {t : Terminal} {x : List Char} {ws : List Word} {rest : List Char}
      (apart : t.kind ≠ .mark → Breaks rest) (h : IsWritten ws rest) :
      IsWritten ((t, x) :: ws) (x ++ rest)

theorem Breaks.separator {c : Char} (hc : isSeparator c = true) (rest : List Char) :
    Breaks (c :: rest) := by
  intro d hd
  obtain rfl := Option.some.inj hd
  exact Stops.of_separator_ne (.inl hc)

/-- Marks are no part of words and numbers, but for the three dots. -/
theorem Breaks.mark {p : Punctuator} (hp : p ≠ .spread) (rest : List Char) :
    Breaks (p.word.toList ++ rest) := by
  intro c hc
  cases p with
  | spread => exact absurd rfl hp
  | _ =>
    obtain rfl := Option.some.inj hc
    decide

theorem Input.skipIgnored_separator {c : Char} (hc : isSeparator c = true) (rest : List Char)
    (p : Position) : skipIgnored ⟨p, c :: rest⟩ = skipIgnored ⟨p.next c, rest⟩ := by
  have hlength : ignoredLength false (c :: rest) = ignoredLength false rest + 1 := by
    rw [ignoredLength, if_pos hc, Bool.false_and, Bool.false_and]
  rw [skipIgnored, hlength]
  rfl

namespace IsWritten

variable {ws : List Word} {text rest : List Char}

theorem behind {gap : List Char} (hgap : ∀ c ∈ gap, isSeparator c = true) (h : IsWritten ws rest) :
    IsWritten ws (gap ++ rest) := by
  induction gap with
  | nil => exact h
  | cons c gap ih =>
    obtain ⟨hc, hgap⟩ := List.forall_mem_cons.mp hgap
    exact .separator hc (ih hgap)

/-- A text is read as the words that it writes. -/
theorem readsAs (h : IsWritten ws text) (hws : ∀ w ∈ ws, IsSpelling w.1 w.2) (p : Position) :
    ∃ ts, (⟨p, text⟩ : Input).ReadsAs ts ∧ ts.map Token.word = ws := by
  induction h generalizing p with
  | nil => exact ⟨[], .done rfl, rfl⟩
  | @separator c ws rest hc _ ih =>
    obtain ⟨ts, hreads, hwords⟩ := ih hws (p.next c)
    exact ⟨ts, hreads.of_skipIgnored (Input.skipIgnored_separator hc rest p).symm, hwords⟩
  | @word t x ws rest apart _ ih =>
    obtain ⟨hw, hws⟩ := List.forall_mem_cons.mp hws
    obtain ⟨ts, hreads, hwords⟩ := ih hws (p.after x)
    exact ⟨_, Input.readsAs_of_spelling hw apart p hreads, by rw [List.map_cons, hwords]; rfl⟩

end IsWritten

/-! Words with gaps. -/

/-- The words with a gap between each two that stand next to each other. -/
def spaceOut (gap : Word → Word → List Char) : List Word → List Char
  | [] => []
  | [w] => w.2
  | w :: v :: ws => w.2 ++ (gap w v ++ spaceOut gap (v :: ws))

/-- Separators are between words that do not stand apart by themselves. -/
structure IsGap (gap : Word → Word → List Char) : Prop where
  separators : ∀ u v, ∀ c ∈ gap u v, isSeparator c = true
  apart : ∀ u v, gap u v = [] →
    u.1.kind = .mark ∨ ∃ p : Punctuator, p ≠ .spread ∧ v = (.punctuator p, p.word.toList)

theorem isWritten_spaceOut {gap : Word → Word → List Char} (hgap : IsGap gap) (ws : List Word) :
    IsWritten ws (spaceOut gap ws) := by
  induction ws with
  | nil => exact .nil
  | cons w ws ih =>
    cases ws with
    | nil =>
      have hlast : IsWritten [w] (w.2 ++ []) := .word (fun _ => .nil) .nil
      rwa [List.append_nil] at hlast
    | cons v ws =>
      refine .word (fun hw => ?_) (ih.behind (hgap.separators w v))
      cases hnext : gap w v with
      | cons c more => exact .separator (hgap.separators w v c (by simp [hnext])) _
      | nil =>
        obtain ⟨p, hp, rfl⟩ := (hgap.apart w v hnext).resolve_left hw
        have hfront : ∃ rest, spaceOut gap ((.punctuator p, p.word.toList) :: ws) =
            p.word.toList ++ rest := by
          cases ws with
          | nil => exact ⟨[], (List.append_nil _).symm⟩
          | cons u ws => exact ⟨_, rfl⟩
        obtain ⟨rest, hrest⟩ := hfront
        rw [List.nil_append, hrest]
        exact .mark hp rest

end GraphQLDoc
