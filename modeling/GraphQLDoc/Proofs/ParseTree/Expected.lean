import GraphQLDoc.Proofs.Parse.Ignored
import GraphQLDoc.Proofs.ParseTree.Completion
import GraphQLDoc.Proofs.ParseTree.ErrorPlace

/-!
What is expected at the end of a text. Each terminal that a syntax error lists there goes on with the
text: with some token of it and others behind it the text is parsed. Before the error is told, the end
of the input may have reduced what is on the stack, also where something else is to come; but what can
be read behind these reductions can be read in front of them too.
-/
namespace GraphQLDoc

open Automaton

namespace Stack

variable {s s' b : Stack} {l : Lookahead} {p : Production} {n q : Nat}

/-! What follows a reduction. -/

/-- A reduction gathers the pieces of its body, and its head can be read in front of them. -/
theorem IsLinked.exists_under (hs : s.IsLinked) (h : s.top.action? l = some (.reduce p))
    (hreduce : s.reduce? p = some s') :
    p ∈ p.head.productions ∧ ∃ (b : Stack) (above : List Frame) (r : Nat) (ds : List Derivation),
      s = b.under above ∧ symbols above = p.body ∧ b.top.goto? (.nonterminal p.head) = some r ∧
        s' = b.push r (.node p ds) := by
  obtain ⟨hp, hbody⟩ := hs.body h
  simp only [Stack.reduce?] at hreduce
  split at hreduce
  · cases hreduce
  · obtain ⟨r, hr, rfl⟩ := Option.map_eq_some_iff.mp hreduce
    refine ⟨hp, { s with frames := s.frames.drop p.body.length }, s.frames.take p.body.length, r, _,
      ?_, ?_, hr, rfl⟩
    · simp only [under, List.take_append_drop]
    · refine Eq.trans ?_ hbody
      rw [symbols, List.map_reverse, List.map_map]
      rfl

/-- What is shifted in the end may follow the piece on top. -/
theorem IsLinked.follows_of_settle {e : Derivation} {n : Nonterminal} {fuel : Nat}
    (hlinked : (b.push q e).IsLinked) (he : e.symbol = .nonterminal n)
    (h : (settle l fuel (b.push q e)).2.isSome = true) : Follows (topOf b.start b.frames) n l := by
  induction fuel generalizing b q e n with
  | zero => cases h
  | succ fuel ih =>
    obtain ⟨hgoto, hbelow⟩ : b.top.goto? (.nonterminal n) = some q ∧ b.IsLinked := by
      cases hlinked with
      | cons _ goto below => exact ⟨he ▸ goto, below⟩
    rw [settle] at h
    split at h
    · cases h
    · rename_i r haction
      obtain ⟨t, rfl, hr⟩ := State.goto?_of_action? haction
      exact (checkUp_parts hgoto).1 _ (has_shifted hr)
    · rename_i p haction
      split at h
      · cases h
      · rename_i s' hreduce
        obtain ⟨hp, b', above, r, ds, hunder, hbody, hr, rfl⟩ := hlinked.exists_under haction hreduce
        have hfollows := ih (hlinked.reduce? haction hreduce).1 rfl h
        -- the piece on top is the last of the body
        obtain ⟨f, above, rfl⟩ : ∃ f fs, above = f :: fs := by
          refine List.exists_cons_of_ne_nil ?_
          rintro rfl
          exact ((checkClimb_parts _).2 p hp).1 hbody.symm
        obtain ⟨start, frames⟩ := b
        obtain ⟨rfl, hframes⟩ := Stack.mk.inj hunder
        obtain ⟨rfl, rfl⟩ := List.cons.inj hframes
        have hcheck := (checkUp_parts hr).2 p hp
        rw [← hbody, symbols_cons] at hcheck
        obtain ⟨-, -, -, hbeside⟩ := along_cons (IsLinked.along_under (b := b') hbelow hcheck)
        rw [he] at hbeside
        exact Has.of_isWithin hbeside hfollows

/-- What can be read behind a reduction can be read in front of it. -/
theorem IsLinked.feed_of_reduced {t : Terminal} (hs : s.IsLinked)
    (haction : s.top.action? l = some (.reduce p)) (hreduce : s.reduce? p = some s')
    (h : (s'.feed (some t)).2.isSome = true) : (s.feed (some t)).2.isSome = true := by
  obtain ⟨hp, b, above, r, ds, rfl, hbody, hr, rfl⟩ := hs.exists_under haction hreduce
  have hfollows := (hs.reduce? haction hreduce).1.follows_of_settle rfl h
  have hcheck := (checkUp_parts hr).2 p hp
  rw [← hbody, ← List.append_nil (symbols above)] at hcheck
  have hend := IsLinked.along_under hs hcheck
  rcases action?_of_checkUpAlong hend hfollows with ⟨q, hshift⟩ | hagain
  · rw [feed_of_shift (s := b.under above) hshift]
    rfl
  · rwa [hs.feed_of_reduce hagain hreduce]

theorem IsLinked.feed_of_settled {t : Terminal} (hs : s.IsLinked)
    (h : ((settle l n s).1.feed (some t)).2.isSome = true) : (s.feed (some t)).2.isSome = true := by
  induction n generalizing s with
  | zero => exact h
  | succ n ih =>
    rw [settle] at h
    split at h
    · exact h
    · exact h
    · rename_i p haction
      split at h
      · exact h
      · rename_i s' hreduce
        exact hs.feed_of_reduced haction hreduce (ih (hs.reduce? haction hreduce).1 h)

theorem IsLinked.feed_settle (hs : s.IsLinked) (hn : potential s.frames < n) :
    (settle l n s).1.feed l = settle l n s := by
  induction n generalizing s with
  | zero => omega
  | succ n ih =>
    rw [settle]
    split
    · rename_i haction
      exact feed_of_none haction
    · rename_i q haction
      exact feed_of_shift haction
    · rename_i p haction
      split
      · rename_i hreduce
        obtain ⟨m, hm⟩ := Nat.exists_eq_succ_of_ne_zero (Nat.ne_of_gt s.reductionBound_pos)
        simp only [feed, hm, settle, haction, hreduce]
      · rename_i s' hreduce
        have hlt := hs.potential_reduce? haction hreduce
        exact ih (hs.reduce? haction hreduce).1 (by omega)

/-- A lookahead that has been fed leads nowhere else. -/
theorem IsLinked.feed_feed (hs : s.IsLinked) (l : Lookahead) : (s.feed l).1.feed l = s.feed l :=
  hs.feed_settle s.potential_lt

theorem accepts_some {t : Terminal} : s.accepts (some t) = (s.feed (some t)).2.isSome := by
  unfold accepts
  split
  · rename_i h
    rw [h]
    rfl
  · rename_i h
    rw [h]
    rfl

/-! Going on. -/

/-- If the end of the input is unexpected, some terminals are expected, and no end. -/
structure Expects (s : Stack) (ls : List Lookahead) : Prop where
  nonempty : ls ≠ []
  goesOn : ∀ l ∈ ls, ∃ t settled q, l = some t ∧ t ∈ s.wanted ∧ s.feed (some t) = (settled, some q)

theorem IsLinked.expects (hs : s.IsLinked) (h : (s.feed none).1.result? = none) :
    Expects s (s.feed none).1.expected := by
  have hfeed := hs.feed_feed none
  have hlinked : (s.feed none).1.IsLinked := (hs.fed rfl).1
  have hend (q : Nat) (hq : (s.feed none).2 = some q) : False := by
    obtain ⟨t, ht, -⟩ := (hs.fed (l := none) rfl).2.2 q hq
    cases ht
  constructor
  · obtain ⟨d, ts, hreads, -⟩ := hlinked.exists_reads
    cases hreads with
    | done result =>
      rw [hfeed, h] at result
      cases result
    | @next _ settled t ts q wanted feed rest =>
      obtain ⟨l, hl, rfl⟩ := List.mem_filterMap.mp wanted
      refine List.ne_nil_of_mem (List.mem_filter.mpr ⟨hl, ?_⟩)
      show Stack.accepts _ (some t.terminal) = true
      rw [accepts_some, feed]
      rfl
  · intro l hl
    have haccepts := (List.mem_filter.mp hl).2
    cases l with
    | none =>
      unfold accepts at haccepts
      rw [hfeed] at haccepts
      split at haccepts
      · rename_i q hq
        exact (hend q (congrArg Prod.snd hq)).elim
      · rename_i hnone
        rw [hnone] at h
        rw [h] at haccepts
        cases haccepts
    | some t =>
      rw [accepts_some] at haccepts
      obtain ⟨q, hq⟩ := Option.isSome_iff_exists.mp (hs.feed_of_settled haccepts)
      refine ⟨t, (s.feed (some t)).1, q, rfl, ?_, Prod.ext rfl hq⟩
      cases haction : s.top.action? (some t) with
      | some a => exact mem_wanted haction
      | none =>
        rw [feed_of_none haction] at hq
        cases hq

/-! The text. -/

/-- Where tokens stand makes no difference to what is read. -/
theorem Reads.alike {d : Derivation} {s t : Stack} {ts us : List Token} (h : Reads d s ts)
    (hst : s.Alike t) (hts : List.Forall₂ Token.Alike ts us) : ∃ e, Reads e t us := by
  induction h generalizing t us with
  | done result =>
    cases hts
    obtain ⟨e, he, -⟩ := (hst.feed none).2.result? result
    exact ⟨e, .done he⟩
  | next wanted feed _ ih =>
    cases hts with
    | cons hab hrest =>
      obtain ⟨t', hread, hst'⟩ := hst.read? hab (read?_eq_some.mpr ⟨_, _, feed, rfl⟩)
      obtain ⟨settled, q, hfeed, rfl⟩ := read?_eq_some.mp hread
      obtain ⟨e, he⟩ := ih hst' hrest
      rw [hst.wanted_eq, hab.1] at wanted
      exact ⟨e, .next wanted hfeed he⟩

theorem Reads.run {d : Derivation} {s : Stack} {i : Input} {ts : List Token} (h : Reads d s ts)
    (hi : i.ReadsAs ts) : Run d s i ts := by
  induction h generalizing i with
  | done result =>
    cases hi with
    | done empty => exact .done empty result
  | next wanted feed _ ih =>
    cases hi with
    | next token _ tail =>
      exact .next (token _ wanted) (read?_eq_some.mpr ⟨_, _, feed, rfl⟩) (ih tail)

end Stack

namespace Input

/-- A text may begin with any terminal and go on with words. -/
theorem readsAs_sample (t : Terminal) {ws : List Word} (hws : ∀ w ∈ ws, IsSpelling w.1 w.2)
    (p : Position) :
    (⟨p, spellOut ((t, t.sample) :: ws)⟩ : Input).ReadsAs (tokensFrom p ((t, t.sample) :: ws)) := by
  by_cases ht : t = .blockString
  · subst ht
    exact readsAs_spellOut_cons (by simp [Terminal.sample, Block.quotes]) (fun _ => rfl)
      (fun _ _ _ hwanted => Match.first?_blockString hwanted rfl) hws (readsAs_spellOut hws) p
  · exact readsAs_spellOut (List.forall_mem_cons.mpr ⟨Terminal.isSpelling_sample ht, hws⟩) p

/-- The input with a line break and more behind it. -/
def continued (i : Input) (v : List Char) : Input := ⟨i.position, i.text ++ '\n' :: v⟩

variable {i rest : Input} {v : List Char} {wanted : List Terminal} {t : Token}

/-- Without three quotes, what is read does not depend on what comes behind a line break. -/
theorem token?_continued (hquotes : ¬ HasQuotes i.text)
    (h : i.skipIgnored.token? wanted = some (t, rest)) :
    (i.continued v).skipIgnored.token? wanted = some (t, rest.continued v) := by
  obtain ⟨hsplit, hspan, hposition, -⟩ := token?_spec h
  have htext : i.text = i.text.take (ignoredLength false i.text) ++ (t.text ++ rest.text) := by
    rw [← hsplit, skipIgnored_text, List.take_append_drop]
  have hcontinued : (i.continued v).text =
      i.text.take (ignoredLength false i.text) ++ (t.text ++ (rest.text ++ '\n' :: v)) := by
    rw [← List.append_assoc t.text, ← List.append_assoc, ← htext]
    rfl
  have hreplaces : Replaces t.text rest.text (rest.text ++ '\n' :: v) := by
    have hnone : ¬ HasQuotes (t.text ++ rest.text) := fun hq => hquotes <| by
      rw [htext]
      exact hq.trans (List.suffix_append _ _).isInfix
    refine ⟨?_, fun hq => absurd hq hnone, fun hq => absurd hq hnone⟩
    cases rest.text with
    | nil => exact .inr fun c hc => .inl (Option.some.inj hc ▸ rfl)
    | cons c cs => exact .inl rfl
  rw [token?_replaced h rfl hcontinued hreplaces rfl,
    show (i.continued v).position.after _ = i.skipIgnored.position from rfl, ← hposition]
  obtain ⟨terminal, text, span⟩ := t
  obtain rfl : span = _ := hspan
  rfl

/-- Behind ignored text and the line break the rest is read. -/
theorem skipIgnored_continued (h : i.skipIgnored.text = []) :
    (i.continued v).skipIgnored =
      skipIgnored ⟨i.position.after (i.text ++ ['\n']), v⟩ := by
  have hall : i.text.length ≤ ignoredLength false (i.text ++ []) := by
    rw [skipIgnored_text, List.drop_eq_nil_iff] at h
    rwa [List.append_nil]
  obtain ⟨b, hb⟩ := ignoredLength_append hall
  have hbreak : ignoredLength b ('\n' :: v) = 1 + ignoredLength false v := by
    rw [Nat.add_comm]
    cases b <;> rfl
  have hlength : ignoredLength false (i.continued v).text =
      (i.text ++ ['\n']).length + ignoredLength false v := by
    rw [continued, hb, hbreak, List.length_append, List.length_singleton]
    omega
  have htext : (i.continued v).text = (i.text ++ ['\n']) ++ v := by
    rw [continued, List.append_assoc, List.singleton_append]
  rw [skipIgnored, hlength, drop, htext, List.take_length_add_append, List.drop_length_add_append,
    Position.after_append]
  rfl

end Input

namespace Parse

variable {text : List Char} {s s' : Stack} {i i' : Input} {w : List Token} {e : SyntaxError}

theorem read?_of_more (h : step text s i = .ok (.more s' i')) :
    ∃ t, i.skipIgnored.token? s.wanted = some (t, i') ∧ s.read? t = some s' := by
  simp only [step] at h
  split at h
  · split at h <;> simp at h
  · split at h
    · rename_i token rest htoken
      split at h
      · rename_i settled q hfeed
        obtain ⟨rfl, rfl⟩ := by simpa using h
        exact ⟨token, htoken, Stack.read?_eq_some.mpr ⟨settled, q, hfeed, rfl⟩⟩
      · simp at h
    · split at h <;> simp at h

/-- The end of the input is unexpected where it leads to no whole text. -/
theorem step_endOfInput (h : step text s i = .error e) (hfound : e.found = .endOfInput) :
    i.skipIgnored.text = [] ∧ (s.feed none).1.result? = none ∧
      e.expected = Lookahead.list (s.feed none).1.expected := by
  simp only [step] at h
  split at h
  · rename_i hends
    split at h
    · simp at h
    · rename_i hresult
      obtain rfl := by simpa using h
      exact ⟨hends, hresult, rfl⟩
  · split at h
    · split at h
      · simp at h
      · obtain rfl := by simpa using h
        cases hfound
    · split at h
      · obtain rfl := by simpa using h
        cases hfound
      · obtain rfl := by simpa using h
        cases hfound

theorem Takes.isLinked (h : Takes text s i w s' i') (hs : s.IsLinked) : s'.IsLinked := by
  induction h with
  | none => exact hs
  | more step _ _ ih => exact ih (step_more hs step).1

/-- The same tokens are taken where the text goes on behind a line break. -/
theorem Takes.run_continued {d : Derivation} {ts : List Token} {v : List Char}
    (h : Takes text s i w s' i') (hquotes : ¬ HasQuotes i.text)
    (hrun : Stack.Run d s' (i'.continued v) ts) : Stack.Run d s (i.continued v) (w ++ ts) := by
  induction h with
  | none => exact hrun
  | more step read tail ih =>
    obtain ⟨t, htoken, hread⟩ := read?_of_more step
    obtain ⟨rfl⟩ : [t] = _ := List.append_cancel_left ((Stack.tokens_read? hread).symm.trans read)
    obtain ⟨gap, -, htext, -⟩ := Input.token?_skipIgnored htoken
    refine .next (Input.token?_continued hquotes htoken) hread (ih (fun hq => hquotes ?_) hrun)
    rw [htext]
    exact hq.trans ((List.suffix_append _ _).trans (List.suffix_append _ _)).isInfix

end Parse

namespace Lookahead

theorem mem_list {ls : List Lookahead} {entry : String} (h : entry ∈ list ls) :
    ∃ l ∈ ls, l.description = entry := by
  simp only [list, List.mem_mergeSort, List.mem_eraseDups, List.mem_map] at h
  obtain ⟨l, hl, hentry⟩ := h
  refine ⟨l, ?_, hentry⟩
  split at hl
  · exact (List.mem_filter.mp hl).1
  · exact hl

/-- Where something is expected, something is listed. -/
theorem list_ne_nil {ls : List Lookahead} (h : ls ≠ []) : list ls ≠ [] := by
  have hmem {l : Lookahead} (hl : l ∈ if some .name ∈ ls then
      ls.filter fun l => !(l.any Terminal.isKeyword) else ls) : list ls ≠ [] := by
    refine List.ne_nil_of_mem (a := l.description) ?_
    simp only [list, List.mem_mergeSort, List.mem_eraseDups]
    exact List.mem_map_of_mem hl
  by_cases hname : some .name ∈ ls
  · exact hmem (l := some .name) (by rw [if_pos hname]; exact List.mem_filter.mpr ⟨hname, rfl⟩)
  · obtain ⟨l, hl⟩ := List.exists_mem_of_ne_nil ls h
    exact hmem (l := l) (by rwa [if_neg hname])

end Lookahead

theorem Token.alike_of_word {as bs : List Token} (h : as.map Token.word = bs.map Token.word) :
    List.Forall₂ Token.Alike as bs := by
  induction as generalizing bs with
  | nil =>
    obtain rfl := List.map_eq_nil_iff.mp h.symm
    exact .nil
  | cons a as ih =>
    cases bs with
    | nil => cases h
    | cons b bs =>
      obtain ⟨hword, hrest⟩ := List.cons.inj h
      obtain ⟨hterminal, htext⟩ := Prod.mk.inj hword
      exact .cons ⟨hterminal, .inl htext⟩ (ih hrest)

namespace Stack

/-- A terminal that is shifted, and what it takes to read on to the end of a text. -/
theorem IsLinked.exists_run {s settled : Stack} {t : Terminal} {q : Nat} (hs : s.IsLinked)
    (hwanted : t ∈ s.wanted) (hfeed : s.feed (some t) = (settled, some q)) (p : Position) :
    ∃ v d a ts, a.terminal = t ∧ a.span.first = p ∧
      ∀ i : Input, i.skipIgnored = Input.skipIgnored ⟨p, v⟩ → Run d s i (a :: ts) := by
  let a : Token := ⟨t, t.sample, ⟨p, p.after t.sample⟩⟩
  obtain ⟨hsettled, -, hshift⟩ := hs.fed hfeed
  obtain ⟨u, hu, hgoto⟩ := hshift q rfl
  obtain rfl := Option.some.inj hu
  have hpush : (settled.push q (.leaf a)).IsLinked :=
    hsettled.push (d := .leaf a) (Token.isLexeme_of_sample rfl) hgoto
  obtain ⟨d, ts, hreads, hsamples⟩ := hpush.exists_reads
  -- the tokens are moved to the places where they are written
  have hwords : ∀ w ∈ ts.map Token.word, IsSpelling w.1 w.2 := by
    intro w hw
    obtain ⟨b, hb, rfl⟩ := List.mem_map.mp hw
    exact (hsamples b hb).isSpelling
  let us := tokensFrom ((p.after t.sample).next ' ') (ts.map Token.word)
  obtain ⟨e, he⟩ : ∃ e, Reads e (settled.push q (.leaf a)) us :=
    hreads.alike (.refl _) (Token.alike_of_word (map_word_tokensFrom _ _).symm)
  refine ⟨spellOut ((t, t.sample) :: ts.map Token.word), e, a, us, rfl, rfl, fun i hi => ?_⟩
  exact (Reads.next hwanted hfeed he).run ((Input.readsAs_sample t hwords p).of_skipIgnored hi.symm)

end Stack

/-- Behind a text and a line break, `v` begins with a token of a terminal and goes on to the end of a
text that is derived. -/
def GoesOnWith (start : Start) (text v : List Char) (t : Terminal) : Prop :=
  ∃ d read a coming, derive start (text ++ '\n' :: v) = .ok d ∧ d.tokens = read ++ a :: coming ∧
    a.terminal = t ∧ a.span.first.offset = text.length + 1

/-- Where the end of a text is unexpected, something is expected, and each entry names a terminal that
goes on with the text. -/
theorem expected_goesOn {start : Start} {text : List Char} {e : SyntaxError}
    (h : parseTree start text = .error e) (hfound : e.found = .endOfInput)
    (hquotes : ¬ HasQuotes text) :
    e.expected ≠ [] ∧ ∀ entry ∈ e.expected, ∃ t v, t.description = entry ∧
      GoesOnWith start text v t ∧ ∃ tree, parseTree start (text ++ '\n' :: v) = .ok tree := by
  have hderive : derive start text = .error e := by
    cases hd : derive start text with
    | ok d => simp [parseTree, hd] at h
    | error e' => simpa [parseTree, hd] using h
  obtain ⟨w, s, i, htakes, hstep⟩ := Parse.loop_error (Nat.lt_succ_self _) hderive
  obtain ⟨hends, hresult, hexpected⟩ := Parse.step_endOfInput hstep hfound
  have hlinked : s.IsLinked := htakes.isLinked .nil
  have hexpects := hlinked.expects hresult
  rw [hexpected]
  refine ⟨Lookahead.list_ne_nil hexpects.nonempty, fun entry hentry => ?_⟩
  obtain ⟨l, hl, rfl⟩ := Lookahead.mem_list hentry
  obtain ⟨t, settled, q, rfl, hwanted, hfeed⟩ := hexpects.goesOn l hl
  obtain ⟨v, d, a, ts, hterminal, hfirst, hrun⟩ :=
    hlinked.exists_run hwanted hfeed (i.position.after (i.text ++ ['\n']))
  have hwhole := htakes.run_continued hquotes (hrun _ (Input.skipIgnored_continued hends))
  have htokens : d.tokens = w ++ a :: ts := hwhole.tokens_eq
  have hd : derive start (text ++ '\n' :: v) = .ok d :=
    derive_eq_ok_iff.mpr (by rw [htokens]; exact hwhole)
  refine ⟨t, v, rfl, ⟨d, w, a, ts, hd, htokens, hterminal, ?_⟩, ?_⟩
  · obtain ⟨front, htext, hoffset⟩ := (htakes.isIn .ofText).offset_eq
    rw [hfirst, Position.after_offset, hoffset, htext]
    simp only [List.length_append, List.length_singleton, Nat.add_assoc]
  · rw [parseTree, hd]
    exact ⟨_, rfl⟩

/-- A selection set that is not closed can be gone on with. -/
theorem openText_goesOn : ∃ e, parseTree .document openText = .error e ∧ e.found = .endOfInput ∧
    ¬ HasQuotes openText ∧ e.expected ≠ [] ∧ ∀ entry ∈ e.expected, ∃ t v, t.description = entry ∧
      GoesOnWith .document openText v t ∧
        ∃ tree, parseTree .document (openText ++ '\n' :: v) = .ok tree := by
  obtain ⟨e, h, hfound⟩ := exists_openText_error
  have hquotes : ¬ HasQuotes openText := by
    unfold HasQuotes
    decide
  exact ⟨e, h, hfound, hquotes, expected_goesOn h hfound hquotes⟩

end GraphQLDoc
