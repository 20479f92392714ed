import GraphQLDoc.Proofs.ParseTree.Words
import GraphQLDoc.Proofs.Token.Follow

/-!
Where block strings end. A block string is read from the left, three quotes behind a backslash as one
escape, up to the first three quotes that are not escaped. Only where no three quotes follow any more
do the last escaped ones close the string, and the backslash in front of them belongs to its text.
-/
namespace GraphQLDoc

namespace Block

def quotes : List Char := ['"', '"', '"']

/-- Reading from the left comes from one place to another: over escaped quotes as a whole, over any
other character by itself, and over no three quotes. -/
inductive ReadsTo : List Char → List Char → Prop where
  | here {cs : List Char} : ReadsTo cs cs
  | escape {cs rest : List Char} (h : ReadsTo cs rest) : ReadsTo ('\\' :: (quotes ++ cs)) rest
  | plain {c : Char} {cs rest : List Char} (unescaped : ¬ '\\' :: quotes <+: c :: cs)
      (inside : ¬ quotes <+: c :: cs) (h : ReadsTo cs rest) : ReadsTo (c :: cs) rest

/-- The first three quotes that are not escaped are those behind the text. -/
def IsClosed (inner : List Char) : Prop := ReadsTo (inner ++ quotes) quotes

/-- The quotes behind the text are escaped. -/
def IsClosedByEscape (inner : List Char) : Prop :=
  ∃ front, inner = front ++ ['\\'] ∧ ReadsTo (inner ++ quotes) ('\\' :: quotes)

/-- No two readings of a text disagree on whether its quotes are escaped. -/
theorem IsClosedByEscape.not_isClosed {inner : List Char} (h : IsClosedByEscape inner) :
    ¬ IsClosed inner := by
  obtain ⟨front, -, hreads⟩ := h
  unfold IsClosed
  generalize inner ++ quotes = cs at hreads
  generalize hrest : '\\' :: quotes = rest at hreads
  induction hreads with
  | here =>
    subst hrest
    intro hclosed
    cases hclosed with
    | escape h => cases h
    | plain unescaped => exact unescaped (List.prefix_refl _)
  | escape h ih =>
    intro hclosed
    cases hclosed with
    | escape h' => exact ih hrest h'
    | plain unescaped => exact unescaped ⟨_, rfl⟩
  | plain unescaped inside h ih =>
    intro hclosed
    cases hclosed with
    | here => exact inside (List.prefix_refl _)
    | escape => exact unescaped ⟨_, rfl⟩
    | plain _ _ h' => exact ih hrest h'

end Block

namespace Pattern

open Block

/-- A text with three quotes has the text of a block string at its front, closed by the first that are
not escaped, or if there are none by the last. -/
theorem blockBody_closed {n m : Nat} {escaped : Option Nat} {cs : List Char}
    (h : blockBody n escaped cs = some m) (hquotes : HasQuotes cs) :
    ∃ inner rest, cs = inner ++ quotes ++ rest ∧ m = n + (inner ++ quotes).length ∧
      (IsClosed inner ∨ IsClosedByEscape inner ∧ ¬ HasQuotes rest) := by
  fun_induction blockBody n escaped cs with
  | case1 n escaped rest ih =>
    by_cases hrest : HasQuotes rest
    · obtain ⟨inner, rest, rfl, rfl, hclosed⟩ := ih h hrest
      refine ⟨'\\' :: quotes ++ inner, rest, rfl, ?_, ?_⟩
      · simp only [quotes, List.length_append, List.length_cons, List.length_nil]
        omega
      · refine hclosed.imp .escape (And.imp_left ?_)
        rintro ⟨front, rfl, hreads⟩
        exact ⟨'\\' :: quotes ++ front, rfl, .escape hreads⟩
    · rw [blockBody_of_not hrest] at h
      obtain rfl := Option.some.inj h
      exact ⟨['\\'], rest, rfl, rfl, .inr ⟨⟨[], rfl, .here⟩, hrest⟩⟩
  | case2 n escaped rest =>
    obtain rfl := Option.some.inj h
    exact ⟨[], rest, rfl, rfl, .inl .here⟩
  | case3 n escaped c rest hplain hopen ih =>
    obtain ⟨inner, rest, rfl, rfl, hclosed⟩ := ih h (hquotes.of_cons fun tail hc htail =>
      hopen tail hc htail)
    -- what is in front of the closing quotes shows whether quotes are here
    have hunescaped : ¬ '\\' :: quotes <+: c :: (inner ++ quotes) := fun hfront => by
      obtain ⟨tail, htail⟩ := hfront.trans (List.prefix_append _ rest)
      obtain ⟨hc, hcs⟩ := List.cons.inj htail
      exact hplain tail hc.symm hcs.symm
    have hinside : ¬ quotes <+: c :: (inner ++ quotes) := fun hfront => by
      obtain ⟨tail, htail⟩ := hfront.trans (List.prefix_append _ rest)
      obtain ⟨hc, hcs⟩ := List.cons.inj htail
      exact hopen tail hc.symm hcs.symm
    refine ⟨c :: inner, rest, rfl, ?_, ?_⟩
    · simp only [List.cons_append, List.length_cons]
      omega
    · refine hclosed.imp (.plain hunescaped hinside) (And.imp_left ?_)
      rintro ⟨front, rfl, hreads⟩
      exact ⟨c :: front, rfl, .plain hunescaped hinside hreads⟩
  | case4 => exact absurd hquotes.length_le (by decide)

theorem blockString_closed {x rest : List Char} (h : blockString (x ++ rest) = some x.length) :
    ∃ inner, x = quotes ++ inner ++ quotes ∧
      (IsClosed inner ∨ IsClosedByEscape inner ∧ ¬ HasQuotes rest) := by
  unfold blockString at h
  split at h
  · rename_i tail heq
    rcases blockBody_end h with ⟨hquotes, -⟩ | ⟨-, hnone⟩
    · obtain ⟨inner, rest', rfl, hlength, hclosed⟩ := blockBody_closed h hquotes
      have hsplit : x ++ rest = (quotes ++ inner ++ quotes) ++ rest' := by
        rw [heq]
        simp [quotes]
      obtain ⟨rfl, rfl⟩ := List.append_inj hsplit (by
        rw [hlength]
        simp only [quotes, List.length_append, List.length_cons, List.length_nil]
        omega)
      exact ⟨inner, rfl, hclosed⟩
    · cases hnone
  · cases h

/-- Reading that comes to three quotes ends behind them. -/
theorem blockBody_of_readsTo {cs : List Char} (h : ReadsTo cs quotes) (n : Nat) (escaped : Option Nat) :
    blockBody n escaped cs = some (n + cs.length) := by
  generalize hrest : quotes = rest at h
  induction h generalizing n escaped with
  | here =>
    subst hrest
    rfl
  | @escape cs rest _ ih =>
    show blockBody (n + 4) (some (n + 4)) cs = _
    rw [ih _ _ hrest, Nat.add_assoc]
    simp only [quotes, List.length_append, List.length_cons, List.length_nil]
    congr 2
    omega
  | @plain c cs rest unescaped inside _ ih =>
    have hplain : blockBody n escaped (c :: cs) = blockBody (n + 1) escaped cs :=
      blockBody.eq_3 n escaped c cs (fun tail hc hcs => unescaped ⟨tail, by rw [hc, hcs]; rfl⟩)
        fun tail hc hcs => inside ⟨tail, by rw [hc, hcs]; rfl⟩
    rw [hplain, ih _ _ hrest, List.length_cons, Nat.add_right_comm, Nat.add_assoc]

/-- A text between quotes is a block string as a whole if it holds no others that are not escaped. -/
theorem blockString_of_isClosed {inner : List Char} (h : IsClosed inner) :
    blockString (quotes ++ inner ++ quotes) = some (quotes ++ inner ++ quotes).length := by
  rw [List.append_assoc, List.length_append]
  exact blockBody_of_readsTo h 3 none

end Pattern

/-- A block string is read before any other terminal. -/
theorem Match.first?_blockString {wanted : List Terminal} {text : List Char} {n : Nat}
    (hwanted : .blockString ∈ wanted) (h : Pattern.blockString text = some n) :
    first? wanted text = some ⟨.blockString, n⟩ := by
  obtain ⟨tail, rfl⟩ : ∃ tail, text = '"' :: tail := by
    unfold Pattern.blockString at h
    split at h
    · exact ⟨_, rfl⟩
    · cases h
  have hfloat : one? wanted ('"' :: tail) .float = none :=
    one?_eq_none (by decide)
  have hblock : one? wanted ('"' :: tail) .blockString = some ⟨.blockString, n⟩ := by
    rw [one?, h]
    rfl
  unfold first? order
  by_cases hin : .float ∈ wanted <;> simp [hin, hwanted, hfloat, hblock]

/-- Each block string of a text that is derived is closed by the first three quotes in it that are not
escaped, or else by its last escaped ones, and then no three quotes follow it. -/
theorem derive_blockStrings {start : Start} {text : List Char} {d : Derivation}
    (h : derive start text = .ok d) {t : Token} (ht : t ∈ d.tokens)
    (hblock : t.terminal = .blockString) :
    ∃ inner, t.text = Block.quotes ++ inner ++ Block.quotes ∧
      (Block.IsClosed inner ∨
        Block.IsClosedByEscape inner ∧ ¬ HasQuotes (text.drop t.span.last.offset)) := by
  obtain ⟨before, after, htokens⟩ := List.append_of_mem ht
  have hrun := derive_eq_ok_iff.mp h
  rw [htokens] at hrun
  obtain ⟨s, j, rest, -, hj, htoken, -⟩ :=
    hrun.exists_stack (show (Input.ofText text).IsRestOf text from rfl)
  obtain ⟨hsplit, hspan, -, hmatch⟩ := Input.token?_spec htoken
  rw [hblock, hsplit] at hmatch
  have hrest : text.drop t.span.last.offset = rest.text := by
    rw [hspan]
    exact (hj.token? htoken).symm
  rw [hrest]
  exact Pattern.blockString_closed hmatch

/-- A text that is matched as a block string is read as one. -/
theorem derive_blockString {text : List Char} (h : Pattern.blockString text = some text.length) :
    ∃ t, derive .value text = .ok (literalDerivation .stringValue t) ∧ t.terminal = .blockString ∧
      t.text = text := by
  let last : Position := .after .start text
  let t : Token := ⟨.blockString, text, ⟨.start, last⟩⟩
  have hlexeme : t.IsLexeme := ⟨text, text.length, h, (List.take_length).symm⟩
  have hof : (literalDerivation .stringValue t).IsOf .canonical :=
    isOf_literalDerivation (s := .blockString) rfl (by decide) (by decide) hlexeme
  have hread : Stack.Reads (literalDerivation .stringValue t) ⟨.value, []⟩ [t] :=
    Stack.reads_of_isOf hof rfl
  obtain ⟨hwanted, s, hs, hreads⟩ := hread.uncons
  have hskip : (Input.ofText text).skipIgnored = ⟨.start, text ++ []⟩ := by
    have hwhole : Pattern.blockString (text ++ []) = some text.length := by rwa [List.append_nil]
    obtain ⟨inner, hinner, -⟩ := Pattern.blockString_closed hwhole
    rw [List.append_nil, hinner]
    rfl
  have htoken : (Input.ofText text).skipIgnored.token? (Stack.wanted ⟨.value, []⟩) =
      some (t, ⟨last, []⟩) := by
    rw [hskip]
    exact Input.token?_of_first? rfl (Match.first?_blockString hwanted (by rwa [List.append_nil]))
  exact ⟨t, derive_eq_ok_iff.mpr (.next htoken hs (.done rfl hreads.result)), rfl, rfl⟩

/-- A block string whose only closing quotes are escaped is closed by them. -/
theorem escapedText_blockStrings :
    ∃ d t, derive .value ['"', '"', '"', '\\', '"', '"', '"'] = .ok d ∧
      t ∈ d.tokens ∧ t.terminal = .blockString ∧
      ∀ inner, t.text = Block.quotes ++ inner ++ Block.quotes → ¬ Block.IsClosed inner := by
  have hmatch : Pattern.blockString ['"', '"', '"', '\\', '"', '"', '"'] = some 7 := rfl
  obtain ⟨t, hd, hblock, htext⟩ := derive_blockString hmatch
  refine ⟨_, t, hd, List.mem_singleton_self t, hblock, fun inner hinner => ?_⟩
  have hescape : Block.quotes ++ ['\\'] ++ Block.quotes = Block.quotes ++ inner ++ Block.quotes :=
    htext.symm.trans hinner
  rw [← List.append_cancel_left (List.append_cancel_right hescape)]
  exact Block.IsClosedByEscape.not_isClosed ⟨[], rfl, .here⟩

/-- Escaped quotes inside of a block string do not close it. -/
theorem escapeInside_blockStrings :
    let text := ['"', '"', '"', 'a', '\\', '"', '"', '"', '"', '"', '"']
    ∃ d t, derive .value text = .ok d ∧ t ∈ d.tokens ∧ t.terminal = .blockString ∧
      ∃ inner, t.text = Block.quotes ++ inner ++ Block.quotes ∧
        (Block.IsClosed inner ∨
          Block.IsClosedByEscape inner ∧ ¬ HasQuotes (text.drop t.span.last.offset)) := by
  intro text
  obtain ⟨t, hd, hblock, -⟩ : ∃ t, derive .value text = .ok (literalDerivation .stringValue t) ∧
      t.terminal = .blockString ∧ t.text = text := derive_blockString rfl
  have ht : t ∈ (literalDerivation .stringValue t).tokens := List.mem_singleton_self t
  exact ⟨_, t, hd, ht, hblock, derive_blockStrings hd ht hblock⟩

end GraphQLDoc
