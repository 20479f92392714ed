import GraphQLDoc.Proofs.ParseTree.Blocks

/-!
Whatever the parser has read can be completed. An item of the state on top of the stack has its front
there, so that the rest of its body can be read and the whole be reduced. That shortens the stack, or
leads to a larger nonterminal, until a whole text is on the stack. What is read next may always follow
what has been reduced, since it is a canonical document that is gone on with.
-/
namespace GraphQLDoc

open Automaton
open GraphQLDoc.Derivation (following)

/-! What is gone on with. -/

/-- One way to write each terminal. -/
def Terminal.sample : Terminal → List Char
  | name => ['a']
  | int => ['0']
  | float => ['0', '.', '0']
  | string => ['"', '"']
  | blockString => Block.quotes ++ Block.quotes
  | keyword k => k.word.toList
  | punctuator p => p.word.toList

theorem Terminal.isSpelling_sample {t : Terminal} (h : t ≠ .blockString) :
    IsSpelling t t.sample := by
  have hzero : AreDigits ['0'] := by simp [AreDigits, isDigit]
  have hwhole : Pattern.IsWhole ['0'] := ⟨hzero, by simp, .inl rfl⟩
  cases t with
  | name => exact .name (by decide) fun k => by cases k <;> decide
  | int => exact .int false hwhole
  | float =>
    have hfloat : NumberText.IsFloat ⟨false, ['0'], ['0'], []⟩ :=
      ⟨hwhole, hzero, .inl rfl, .inl (by simp)⟩
    exact .float hfloat
  | string =>
    refine .string rfl (fun _ => rfl) fun rest hrest => ?_
    cases rest with
    | nil => rfl
    | cons c rest =>
      have hquote : c ≠ '"' := (hrest c rfl).2.2
      show Pattern.blockString ('"' :: '"' :: c :: rest) = none
      simp [Pattern.blockString, hquote]
  | blockString => exact absurd rfl h
  | keyword k => exact .keyword k
  | punctuator p => exact .punctuator p

theorem Token.isLexeme_of_sample {t : Token} (h : t.text = t.terminal.sample) : t.IsLexeme := by
  by_cases hblock : t.terminal = .blockString
  · refine ⟨t.text, t.text.length, ?_, List.take_length.symm⟩
    rw [h, hblock]
    rfl
  · exact Token.isLexeme_of_spelling (h ▸ Terminal.isSpelling_sample hblock)

/-- A token to go on with: no block string, and written in the one way. -/
structure Token.IsSample (t : Token) : Prop where
  plain : t.terminal ≠ .blockString
  text : t.text = t.terminal.sample

theorem Token.IsSample.isSpelling {t : Token} (h : t.IsSample) : IsSpelling t.terminal t.text :=
  h.text ▸ Terminal.isSpelling_sample h.plain

/-- The symbol can be read in a canonical document, without a block string. -/
def Symbol.IsDerivable (x : Symbol) : Prop :=
  ∃ d : Derivation, d.IsOf .canonical ∧ d.symbol = x ∧ ∀ t ∈ d.tokens, t.IsSample

namespace Derivation

theorem exists_derivations {xs : List Symbol} (h : ∀ x ∈ xs, x.IsDerivable) :
    ∃ ds, AllOf .canonical ds ∧ ds.map symbol = xs ∧ ∀ t ∈ tokensOfList ds, t.IsSample := by
  induction xs with
  | nil => exact ⟨[], trivial, rfl, List.forall_mem_nil _⟩
  | cons x xs ih =>
    obtain ⟨⟨d, hd, hsymbol, htokens⟩, hxs⟩ := List.forall_mem_cons.mp h
    obtain ⟨ds, hds, hsymbols, htokens'⟩ := ih hxs
    refine ⟨d :: ds, ⟨hd, hds⟩, by rw [List.map_cons, hsymbol, hsymbols], ?_⟩
    exact List.forall_mem_append.mpr ⟨htokens, htokens'⟩

theorem isDerivable_terminal {t : Terminal} (h : t ≠ .blockString) :
    (Symbol.terminal t).IsDerivable := by
  let token : Token := ⟨t, t.sample, ⟨.start, .start⟩⟩
  have hsample : token.IsSample := ⟨h, rfl⟩
  refine ⟨.leaf token, Token.isLexeme_of_sample hsample.text, rfl, fun u hu => ?_⟩
  obtain rfl := List.mem_singleton.mp hu
  exact hsample

theorem isDerivable_of_body {p : Production} (hp : p ∈ p.head.productions)
    (hlong : isShorthand p = false) (h : ∀ x ∈ p.body, x.IsDerivable) :
    (Symbol.nonterminal p.head).IsDerivable := by
  obtain ⟨ds, hds, hbody, htokens⟩ := exists_derivations h
  have hcanonical : p ∈ Grammar.canonical.productions p.head :=
    List.mem_filter.mpr ⟨hp, by rw [hlong]; rfl⟩
  exact ⟨.node p ds, ⟨hcanonical, hbody, hds⟩, rfl, htokens⟩

/-- All nonterminals of a set are derivable. -/
def AllDerivable (set : Nat) : Prop :=
  ∀ n, set.testBit (nonterminalPlace n) = true → (Symbol.nonterminal n).IsDerivable

theorem AllDerivable.add {set : Nat} {n : Nonterminal} (h : AllDerivable set)
    (hn : (Symbol.nonterminal n).IsDerivable) : AllDerivable (set ||| 1 <<< nonterminalPlace n) := by
  intro m hm
  rw [Nat.testBit_or, Bool.or_eq_true, Nat.one_shiftLeft, Nat.testBit_two_pow, decide_eq_true_eq] at hm
  rcases hm with hm | hm
  · exact h m hm
  · have hplace := nonterminal_at m
    rw [← hm, nonterminal_at n] at hplace
    exact Option.some.inj hplace ▸ hn

theorem allDerivable_addProductive {set : Nat} (h : AllDerivable set) :
    AllDerivable (addProductive set) := by
  unfold addProductive
  generalize Nonterminal.all = ns
  induction ns generalizing set with
  | nil => exact h
  | cons n ns ih =>
    rw [List.foldl_cons]
    refine ih ?_
    cases hany : n.productions.any _ with
    | false => exact h
    | true =>
      obtain ⟨p, hp, hbody⟩ := List.any_eq_true.mp hany
      rw [Bool.and_eq_true, Bool.not_eq_true', List.all_eq_true] at hbody
      obtain ⟨hlong, hbody⟩ := hbody
      obtain rfl := Nonterminal.head_of_mem_productions hp
      refine h.add (isDerivable_of_body hp hlong fun x hx => ?_)
      have hx := hbody x hx
      cases x with
      | terminal t => exact isDerivable_terminal (by simpa [isPlain] using hx)
      | nonterminal m => exact h m hx

theorem allDerivable_productive (n : Nat) : AllDerivable (productive n) := by
  induction n with
  | zero => exact fun m hm => by simp [productive] at hm
  | succ n ih => exact allDerivable_addProductive ih

theorem isDerivable_nonterminal (n : Nonterminal) : (Symbol.nonterminal n).IsDerivable := by
  have h := List.all_eq_true.mp isChecked.productive n n.mem_all
  exact allDerivable_productive 8 n (Bool.and_eq_true_iff.mp h).1

/-- Whatever stands behind the first symbol of a body is derivable. -/
theorem isDerivable_of_mem_tail {p : Production} (hp : p ∈ p.head.productions) {x : Symbol}
    (hx : x ∈ p.body.tail) : x.IsDerivable := by
  have h := List.all_eq_true.mp isChecked.productive p.head p.head.mem_all
  have hplain := List.all_eq_true.mp (List.all_eq_true.mp (Bool.and_eq_true_iff.mp h).2 p hp) x hx
  cases x with
  | terminal t => exact isDerivable_terminal (by simpa [isPlain] using hplain)
  | nonterminal n => exact isDerivable_nonterminal n

end Derivation

/-! The stack. -/

namespace Stack

/-- The symbols of the pieces, in the order in which they were read. -/
def symbols (fs : List Frame) : List Symbol := (fs.map (·.derivation.symbol)).reverse

theorem symbols_cons (f : Frame) (fs : List Frame) :
    symbols (f :: fs) = symbols fs ++ [f.derivation.symbol] := by
  simp [symbols]

/-- The states on a stack are those along the symbols of its pieces. -/
theorem IsLinked.along_under {b : Stack} {fs : List Frame} (h : (b.under fs).IsLinked)
    {beside : Nat → Symbol → List Symbol → Bool} {atEnd : Nat → Bool} {rest : List Symbol}
    (hcheck : along beside atEnd (topOf b.start b.frames) (symbols fs ++ rest) = true) :
    along beside atEnd (topOf b.start (fs ++ b.frames)) rest = true := by
  induction fs generalizing rest with
  | nil => exact hcheck
  | cons f fs ih =>
    cases h with
    | cons _ goto below =>
      rw [symbols_cons, List.append_assoc] at hcheck
      obtain ⟨r, hr, hrest, -⟩ := along_cons (ih below hcheck)
      obtain rfl := Option.some.inj (hr.symm.trans goto)
      exact hrest

/-- The front of an item of the state on top is on the stack, and what it belongs to can be read in
front of it. -/
theorem AreLinked.exists_front {start : Start} {fs : List Frame} (h : AreLinked start fs) {i : Item}
    (hi : i ∈ kernel (topOf start fs)) (hdot : i.dot ≠ 0) :
    i.production ∈ i.production.head.productions ∧ ∃ f above below, fs = f :: above ++ below ∧
      above.length + 1 = i.dot ∧ symbols (f :: above) = i.production.body.take i.dot ∧
      ((∃ s, i.production.head = .start s) ∨
        ∃ r, (state (topOf start below)).goto? (.nonterminal i.production.head) = some r) := by
  induction h generalizing i with
  | nil => exact absurd ((checkBegin_parts start).2 i hi) hdot
  | @cons f fs _ goto _ ih =>
    obtain ⟨n, hn⟩ := arrives_of_goto goto hi
    have htake : i.production.body.take i.dot = i.production.body.take n ++ [f.derivation.symbol] := by
      rw [hn.dot, List.take_add_one, hn.symbol]
      rfl
    rw [htake, hn.dot]
    refine ⟨hn.known, ?_⟩
    by_cases hzero : n = 0
    · subst hzero
      exact ⟨f, [], fs, rfl, rfl, rfl, hn.opens rfl⟩
    · obtain ⟨j, hj, hdotj, hsame⟩ := hn.before hzero
      obtain ⟨-, g, above, below, rfl, hlength, hsymbols, hhead⟩ := ih hj (hdotj.symm ▸ hzero)
      rw [hsame, hdotj] at hsymbols
      rw [hsame] at hhead
      refine ⟨f, g :: above, below, rfl, ?_, ?_, hhead⟩
      · rw [List.length_cons, hlength, hdotj]
      · rw [symbols_cons, hsymbols]

/-- With a piece on top of the stack, the parser can read on to the end of a text, with something that
may follow the piece. -/
def Completes (b : Stack) (q : Nat) (e : Derivation) : Prop :=
  ∃ d ts, Reads d (b.push q e) ts ∧ (∀ t ∈ ts, t.IsSample) ∧
    ∀ n, e.symbol = .nonterminal n → MayFollow (topOf b.start b.frames) n (following ts)

/-- The rest of a body is read and the whole is reduced. -/
theorem completes_of_item {b : Stack} {f : Frame} {above : List Frame} {p : Production} {r : Nat}
    (hlinked : (b.under (f :: above)).IsLinked) (hp : p ∈ p.head.productions)
    (hfront : symbols (f :: above) = p.body.take (above.length + 1))
    (hr : b.top.goto? (.nonterminal p.head) = some r)
    (h : ∀ ds, (b.push r (.node p ds)).IsLinked → Completes b r (.node p ds)) :
    Completes (b.under above) f.state f.derivation := by
  have hderivable : ∀ x ∈ p.body.drop (above.length + 1), x.IsDerivable := fun x hx => by
    rw [← List.drop_tail] at hx
    exact Derivation.isDerivable_of_mem_tail hp (List.mem_of_mem_drop hx)
  obtain ⟨ds, hds, hrest, hsamples⟩ := Derivation.exists_derivations hderivable
  have hbody : symbols (f :: above) ++ ds.map Derivation.symbol = p.body := by
    rw [hfront, hrest, List.take_append_drop]
  -- what may follow each symbol of the rest
  have hcheck := checkAlong_of_goto hr hp
  rw [← hbody, symbols_cons, List.append_assoc] at hcheck
  obtain ⟨hbelow, hgoto⟩ : (b.under above).IsLinked ∧
      (b.under above).top.goto? f.derivation.symbol = some f.state := by
    cases hlinked with
    | cons _ goto below => exact ⟨below, goto⟩
  obtain ⟨r', hr', hcheck, hbeside⟩ := along_cons (hbelow.along_under hcheck)
  obtain rfl := Option.some.inj (hr'.symm.trans hgoto)
  -- the reduction
  let children := ((f :: above).map (·.derivation)).reverse ++ ds
  have hsymbols : children.map Derivation.symbol = p.body := by
    rw [← hbody, List.map_append, List.map_reverse, List.map_map]
    rfl
  have hall : Derivation.AllOf .full children := by
    refine Derivation.allOf_iff.mpr (List.forall_mem_append.mpr ⟨fun d hd => ?_, ?_⟩)
    · obtain ⟨g, hg, rfl⟩ := List.mem_map.mp (List.mem_reverse.mp hd)
      exact AreLinked.isOf hlinked (List.mem_append_left _ hg)
    · exact Derivation.allOf_iff.mp hds.full
  have hpush : (b.push r (.node p children)).IsLinked := by
    have hb : AreLinked b.start ((above ++ b.frames).drop above.length) :=
      AreLinked.drop hbelow above.length
    rw [List.drop_left] at hb
    exact IsLinked.push hb ⟨hp, hsymbols, hall⟩ hr
  obtain ⟨d, ts, hreads, htokens, hfollow⟩ := h children hpush
  have hfollow := hfollow p.head rfl
  refine ⟨d, Derivation.tokensOfList ds ++ ts, ?_, List.forall_mem_append.mpr ⟨hsamples, htokens⟩,
    fun n hn => mayFollow_of_checkBeside hds hfollow (hn ▸ hbeside)⟩
  refine Reads.forest ds hds (b.under (f :: above)) p _ ts hlinked hcheck hfollow
    fun fs hfs hlinked' hend => ?_
  have hunder : (b.under (f :: above)).under fs = b.under (fs ++ f :: above) := by simp [under]
  have hpieces : ((fs ++ f :: above).map (·.derivation)).reverse = children := by
    rw [List.map_append, List.reverse_append, hfs, List.reverse_reverse]
  have hlength : (fs ++ f :: above).length = p.body.length := by
    rw [← hsymbols, ← hpieces, List.length_map, List.length_reverse, List.length_map]
  have hreduce := reduce?_under hlength hr
  rw [hpieces, ← hunder] at hreduce
  exact .reduce hlinked' (action?_of_checkEnd hend hfollow) hreduce hreads

/-- A whole text is on the stack. -/
theorem completes_of_isWholeText {b : Stack} {q : Nat} {e : Derivation}
    (hlinked : (b.push q e).IsLinked)
    (h : IsWholeText (topOf b.start b.frames) e.symbol) : Completes b q e := by
  obtain ⟨s, hstart, hsymbol⟩ := h
  obtain ⟨hgoto, hbelow⟩ : b.top.goto? e.symbol = some q ∧ b.IsLinked := by
    cases hlinked with
    | cons _ goto below => exact ⟨goto, below⟩
  obtain ⟨start, frames⟩ := b
  cases frames with
  | cons f fs =>
    cases hbelow with
    | cons _ goto _ => exact absurd hstart (ne_startState_of_goto goto s)
  | nil =>
    obtain rfl : start = s := by
      revert hstart
      cases start <;> cases s <;> decide
    obtain ⟨hfollow, q', hq', hend⟩ := checkStart_parts start
    obtain rfl := Option.some.inj (hgoto.symm.trans (hsymbol ▸ hq'))
    have hresult : (Stack.push ⟨start, []⟩ q e).result? = some e := by
      cases e with
      | leaf t => cases hsymbol
      | node p ds => exact if_pos (Symbol.nonterminal.inj hsymbol)
    refine ⟨e, [], .done ?_, List.forall_mem_nil _, fun n hn => ?_⟩
    · rw [feed_of_none (s := Stack.push ⟨start, []⟩ q e) hend]
      exact hresult
    · obtain rfl := Symbol.nonterminal.inj (hsymbol.symm.trans hn)
      exact hfollow

/-- Some way on behind the piece on top leads to a shorter stack, or to a larger piece on top. -/
theorem completes_of_goesOn {b : Stack} {q n : Nat} {e : Derivation}
    (hlinked : (b.push q e).IsLinked) (hgoes : goesOn n (topOf b.start b.frames) q = true)
    (h : ∀ b' q' e', b'.frames.length < b.frames.length → (b'.push q' e').IsLinked →
      Completes b' q' e') : Completes b q e := by
  induction n generalizing q e with
  | zero => cases hgoes
  | succ n ih =>
    obtain ⟨i, hi, hway⟩ := exists_item_of_goesOn hgoes
    have hdot : i.dot ≠ 0 := by
      cases hlinked with
      | cons _ goto _ =>
        obtain ⟨m, hm⟩ := arrives_of_goto goto hi
        rw [hm.dot]
        exact Nat.succ_ne_zero m
    obtain ⟨hp, f, above, below, hframes, hlength, hfront, hhead⟩ := hlinked.exists_front hi hdot
    obtain ⟨rfl, hrest⟩ := List.cons.inj hframes
    obtain ⟨start, frames⟩ := b
    obtain rfl : frames = above ++ below := hrest
    rw [← hlength] at hfront hway
    by_cases hmany : 1 < above.length + 1
    · have hlt : below.length < (above ++ below).length := by
        rw [List.length_append]
        omega
      have hhead : ∃ r, (state (topOf start below)).goto? (.nonterminal i.production.head) = some r := by
        refine hhead.resolve_left ?_
        rintro ⟨s, hs⟩
        -- the body of a start is one symbol
        rw [hs] at hp
        have hbody := congrArg List.length hfront
        rw [List.mem_singleton.mp hp, List.length_take, symbols, List.length_reverse,
          List.length_map] at hbody
        have hone : s.production.body.length = 1 := rfl
        rw [hone, List.length_cons] at hbody
        omega
      obtain ⟨r, hr⟩ := hhead
      exact completes_of_item (b := ⟨start, below⟩) (f := ⟨q, e⟩) hlinked hp hfront hr
        fun ds hds => h ⟨start, below⟩ r _ hlt hds
    · obtain rfl : above = [] := List.eq_nil_of_length_eq_zero (by omega)
      rcases hway.resolve_left hmany with hwhole | ⟨r, hr, hgoes⟩
      · obtain ⟨s, hstart, hsymbol⟩ := hwhole
        obtain ⟨-, r, hr, -⟩ := checkStart_parts s
        rw [← hstart, ← hsymbol] at hr
        exact completes_of_item (b := ⟨start, below⟩) (f := ⟨q, e⟩) hlinked hp hfront hr
          fun ds hds => completes_of_isWholeText hds ⟨s, hstart, hsymbol⟩
      · exact completes_of_item (b := ⟨start, below⟩) (f := ⟨q, e⟩) hlinked hp hfront hr
          fun ds hds => ih hds hgoes

theorem IsLinked.completes {b : Stack} {q : Nat} {e : Derivation} (h : (b.push q e).IsLinked) :
    Completes b q e := by
  induction hn : b.frames.length using Nat.strongRecOn generalizing b q e with
  | ind n ih =>
    cases h with
    | cons piece goto below =>
      rcases isWholeText_or_goesOn goto with hwhole | hgoes
      · exact completes_of_isWholeText (.cons piece goto below) hwhole
      · refine completes_of_goesOn (.cons piece goto below) hgoes fun b' q' e' hlt hlinked => ?_
        exact ih b'.frames.length (hn ▸ hlt) hlinked rfl

/-- Whatever is on the stack, the parser can read on to the end of a text. -/
theorem IsLinked.exists_reads {s : Stack} (h : s.IsLinked) :
    ∃ d ts, Reads d s ts ∧ ∀ t ∈ ts, t.IsSample := by
  obtain ⟨start, frames⟩ := s
  cases frames with
  | nil =>
    obtain ⟨d, hd, hsymbol, hsamples⟩ := Derivation.isDerivable_nonterminal (.rule start.rule)
    exact ⟨d, d.tokens, reads_of_isOf hd hsymbol, hsamples⟩
  | cons f fs =>
    obtain ⟨d, ts, hreads, hsamples, -⟩ :=
      IsLinked.completes (b := ⟨start, fs⟩) (q := f.state) (e := f.derivation) h
    exact ⟨d, ts, hreads, hsamples⟩

end Stack

end GraphQLDoc
