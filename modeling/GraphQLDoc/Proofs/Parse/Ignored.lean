import GraphQLDoc.Proofs.Agreement.Document
import GraphQLDoc.Proofs.Parse.Outcome
import GraphQLDoc.Proofs.Token.Follow

/-!
Ignored text is insignificant: separators and comments may be added between two tokens, in front of
the first and behind the last, and the text still means the same. What is added has no double quotes,
since a block string that is not closed otherwise depends on the quotes behind it.
-/
namespace GraphQLDoc

/-- Separators, and comments with the line breaks that end them. -/
inductive IsFiller : List Char → Prop where
  | nil : IsFiller []
  | separator {c : Char} {cs : List Char} (hc : isSeparator c = true) (rest : IsFiller cs) :
      IsFiller (c :: cs)
  | comment {body cs : List Char} {c : Char} (hbody : ∀ c ∈ body, isLineBreak c = false)
      (hc : isLineBreak c = true) (rest : IsFiller cs) : IsFiller ('#' :: body ++ c :: cs)

/-- The place behind `u` in a text `u ++ v` that begins at an offset: the tokens that have been read
end there at the latest, and `v` is ignored text up to the next token, or up to the end. A place
inside a comment is none. -/
structure IsPlace (offset : Nat) (read coming : List Token) (u v : List Char) : Prop where
  behind : ∀ t ∈ read, t.span.last.offset ≤ offset + u.length
  next : ∀ t ∈ coming.head?, t.span.first.offset = offset + u.length + ignoredLength false v
  ends : coming = [] → ignoredLength false v = v.length

/-- Two parts of a text that is derived, where no token and no comment is cut. -/
def IsSplit (start : Start) (u v : List Char) : Prop :=
  ∃ d read coming, derive start (u ++ v) = .ok d ∧ d.tokens = read ++ coming ∧
    IsPlace 0 read coming u v

/-! Passing over ignored text. -/

theorem ignoredLength_le (b : Bool) (cs : List Char) : ignoredLength b cs ≤ cs.length := by
  induction cs generalizing b with
  | nil => exact Nat.le_refl 0
  | cons c cs ih =>
    rw [ignoredLength, List.length_cons]
    split
    · exact Nat.succ_le_succ (ih _)
    split
    · exact Nat.succ_le_succ (ih _)
    · exact Nat.zero_le _

/-- Behind ignored text it only matters whether it ends in a comment. -/
theorem ignoredLength_append {b : Bool} {u v : List Char}
    (h : u.length ≤ ignoredLength b (u ++ v)) :
    ∃ s, ∀ w, ignoredLength b (u ++ w) = u.length + ignoredLength s w := by
  induction u generalizing b with
  | nil => exact ⟨b, fun w => (Nat.zero_add _).symm⟩
  | cons c u ih =>
    simp only [List.cons_append, ignoredLength, List.length_cons] at h ⊢
    split at h
    · rename_i hc
      obtain ⟨s, hs⟩ := ih (Nat.le_of_succ_le_succ h)
      exact ⟨s, fun w => by rw [if_pos hc, hs]; omega⟩
    split at h
    · rename_i hc hcomment
      obtain ⟨s, hs⟩ := ih (Nat.le_of_succ_le_succ h)
      exact ⟨s, fun w => by rw [if_neg hc, if_pos hcomment, hs]; omega⟩
    · exact absurd h (Nat.not_succ_le_zero _)

theorem goesOn_eq (b : Bool) (c : Char) :
    (b && c != '\n' && c != '\r') = (b && !isLineBreak c) := by
  simp only [isLineBreak, Bool.not_or, Bool.and_assoc, bne]

theorem isSeparator_of_isLineBreak {c : Char} (h : isLineBreak c = true) : isSeparator c = true := by
  simp only [isLineBreak, Bool.or_eq_true, beq_iff_eq] at h
  rcases h with rfl | rfl <;> decide

theorem ignoredLength_comment {body : List Char} (hbody : ∀ c ∈ body, isLineBreak c = false)
    (w : List Char) : ignoredLength true (body ++ w) = body.length + ignoredLength true w := by
  induction body with
  | nil => exact (Nat.zero_add _).symm
  | cons c body ih =>
    obtain ⟨hc, hbody⟩ := List.forall_mem_cons.mp hbody
    have hstep : ignoredLength true (c :: (body ++ w)) = ignoredLength true (body ++ w) + 1 := by
      rw [ignoredLength, goesOn_eq, hc]
      exact ite_self _
    rw [List.cons_append, hstep, ih hbody, List.length_cons]
    omega

/-- A filler is passed over, and a comment that it stands in either goes on behind it or ends. -/
theorem IsFiller.ignoredLength {g : List Char} (hg : IsFiller g) (b : Bool) :
    ∃ s, (s = false ∨ s = b) ∧
      ∀ w, GraphQLDoc.ignoredLength b (g ++ w) = g.length + GraphQLDoc.ignoredLength s w := by
  induction hg generalizing b with
  | nil => exact ⟨b, .inr rfl, fun w => (Nat.zero_add _).symm⟩
  | @separator c cs hc _ ih =>
    obtain ⟨s, hs, hw⟩ := ih (b && c != '\n' && c != '\r')
    refine ⟨s, ?_, fun w => ?_⟩
    · cases b <;> simp_all
    · rw [List.cons_append, GraphQLDoc.ignoredLength, if_pos hc, hw, List.length_cons]
      omega
  | @comment body cs c hbody hc _ ih =>
    obtain ⟨s, hs, hw⟩ := ih false
    obtain rfl : s = false := hs.elim id id
    refine ⟨false, .inl rfl, fun w => ?_⟩
    have hhash (w : List Char) : GraphQLDoc.ignoredLength b ('#' :: w) =
        GraphQLDoc.ignoredLength true w + 1 := by
      cases b <;> rfl
    have hbreak (w : List Char) : GraphQLDoc.ignoredLength true (c :: w) =
        GraphQLDoc.ignoredLength false w + 1 := by
      rw [GraphQLDoc.ignoredLength, if_pos (isSeparator_of_isLineBreak hc), goesOn_eq, hc]
      rfl
    simp only [List.cons_append, List.append_assoc, hhash, ignoredLength_comment hbody, hbreak, hw,
      List.length_cons, List.length_append]
    omega

/-- In front of a token nothing more is passed over, whatever follows the token. -/
theorem ignoredLength_token {gap x rest : List Char} (hx : 0 < x.length)
    (h : gap.length = ignoredLength false (gap ++ (x ++ rest))) (rest' : List Char) :
    ignoredLength false (gap ++ (x ++ rest')) = gap.length := by
  obtain ⟨s, hs⟩ := ignoredLength_append (Nat.le_of_eq h)
  obtain ⟨c, cs, rfl⟩ := List.exists_cons_of_length_pos hx
  have hzero : ignoredLength s (c :: cs ++ rest) = 0 := by
    have := hs (c :: cs ++ rest)
    omega
  have hzero' : ignoredLength s (c :: cs ++ rest') = 0 := by
    simp only [List.cons_append, ignoredLength] at hzero ⊢
    split at hzero
    · cases hzero
    split at hzero
    · cases hzero
    · rename_i hc hcomment
      rw [if_neg hc, if_neg hcomment]
  rw [hs, hzero', Nat.add_zero]

/-- A filler in ignored text is passed over with it. -/
theorem ignoredLength_insert {u v g : List Char} (hg : IsFiller g)
    (h : ignoredLength false (u ++ v) = u.length + ignoredLength false v) :
    ignoredLength false (u ++ (g ++ v)) = u.length + g.length + ignoredLength false v := by
  obtain ⟨s, hs⟩ := ignoredLength_append (h ▸ Nat.le_add_right _ _ : u.length ≤ ignoredLength false (u ++ v))
  have hv : ignoredLength s v = ignoredLength false v := by
    have := hs v
    omega
  obtain ⟨s', hs', hw⟩ := hg.ignoredLength s
  have hv' : ignoredLength s' v = ignoredLength false v := by
    rcases hs' with rfl | rfl
    · rfl
    · exact hv
  rw [hs, hw, hv']
  omega

/-! What follows a token. -/

theorem IsFiller.stops {g v : List Char} (hg : IsFiller g) (hne : g ≠ []) : Stops (g ++ v) := by
  intro c hc
  cases hg with
  | nil => exact absurd rfl hne
  | separator h => exact .inl (Option.some.inj hc ▸ h)
  | comment => exact .inr (Option.some.inj hc).symm

theorem HasQuotes.of_append {g v : List Char} (hg : '"' ∉ g) (h : HasQuotes (g ++ v)) :
    HasQuotes v := by
  induction g with
  | nil => exact h
  | cons c g ih =>
    obtain ⟨hc, hg⟩ := not_or.mp (mt List.mem_cons.mpr hg)
    exact ih hg (h.of_cons fun _ hc' _ => hc hc'.symm)

/-- Text without quotes does not put quotes together. -/
theorem HasQuotes.of_insert {u v g : List Char} (hne : g ≠ []) (hg : '"' ∉ g)
    (h : HasQuotes (u ++ (g ++ v))) : HasQuotes (u ++ v) := by
  obtain ⟨d, g', rfl⟩ := List.exists_cons_of_ne_nil hne
  have hd : d ≠ '"' := fun hd => hg (hd ▸ List.mem_cons_self)
  induction u with
  | nil => exact HasQuotes.of_append hg h
  | cons c u ih =>
    by_cases hfront : ∃ tail, c = '"' ∧ u = '"' :: '"' :: tail
    · obtain ⟨tail, rfl, rfl⟩ := hfront
      exact ⟨[], tail ++ v, rfl⟩
    · refine HasQuotes.cons (ih (HasQuotes.of_cons h fun tail hc htail => ?_))
      match u, htail with
      | [], htail => exact hd (List.cons.inj htail).1
      | [_], htail => exact hd (List.cons.inj (List.cons.inj htail).2).1
      | x :: y :: u, htail =>
        obtain ⟨rfl, hrest⟩ := List.cons.inj htail
        obtain ⟨rfl, -⟩ := List.cons.inj hrest
        exact hfront ⟨u, hc, rfl⟩

theorem replaces_insert (x u v : List Char) {g : List Char} (hg : IsFiller g) (hquote : '"' ∉ g) :
    Replaces x (u ++ v) (u ++ (g ++ v)) := by
  by_cases hne : g = []
  · subst hne
    exact .refl _ _
  refine ⟨?_, fun _ => .of_insert hne hquote, fun _ hhead h => ?_⟩
  · cases u with
    | nil => exact .inr (hg.stops hne)
    | cons c u => exact .inl rfl
  · cases u with
    | nil => exact absurd rfl (Stops.of_separator_ne (hg.stops hne _ hhead)).2.2
    | cons c u => exact HasQuotes.of_insert hne hquote h

/-! Reading on. -/

namespace Input

/-- An input with the same text gives the same token at its own place. -/
theorem token?_of_text_eq {i j rest : Input} {wanted : List Terminal} {a : Token}
    (htext : j.text = i.text) (h : i.token? wanted = some (a, rest)) :
    ∃ b rest', j.token? wanted = some (b, rest') ∧ a.Alike b ∧ rest'.text = rest.text := by
  obtain ⟨m, hm, heq⟩ := Option.map_eq_some_iff.mp h
  obtain ⟨rfl, rfl⟩ := Prod.mk.inj heq
  refine ⟨_, _, Option.map_eq_some_iff.mpr ⟨m, htext ▸ hm, rfl⟩, ⟨rfl, .inl ?_⟩, ?_⟩
  · rw [htext]
  · rw [drop_text, drop_text, htext]

/-- The second input still has the same text, or the filler is still to come in it. -/
def HasInserted (g : List Char) (i j : Input) (ts : List Token) : Prop :=
  j.text = i.text ∨ ∃ u v read coming, i.text = u ++ v ∧ j.text = u ++ (g ++ v) ∧
    ts = read ++ coming ∧ IsPlace i.position.offset read coming u v

variable {g : List Char} {i j rest : Input} {ts : List Token} {a : Token} {wanted : List Terminal}

theorem skipIgnored_text (i : Input) :
    i.skipIgnored.text = i.text.drop (ignoredLength false i.text) := rfl

theorem skipIgnored_offset (i : Input) :
    i.skipIgnored.position.offset = i.position.offset + ignoredLength false i.text := by
  show (i.position.after (i.text.take _)).offset = _
  rw [Position.after_offset, List.length_take, Nat.min_eq_left (ignoredLength_le _ _)]

/-- What is read stays the same when what follows it is replaced. -/
theorem token?_replaced {gap rest' : List Char} {q : Position}
    (h : i.skipIgnored.token? wanted = some (a, rest))
    (hgap : gap = i.text.take (ignoredLength false i.text))
    (htext : j.text = gap ++ (a.text ++ rest')) (hrest : Replaces a.text rest.text rest')
    (hq : q = j.position.after gap) :
    j.skipIgnored.token? wanted =
      some (⟨a.terminal, a.text, ⟨q, q.after a.text⟩⟩, ⟨q.after a.text, rest'⟩) := by
  obtain ⟨hsplit, -, -, hmatch⟩ := token?_spec h
  have hi : i.text = gap ++ (a.text ++ rest.text) := by
    rw [hgap, ← hsplit, skipIgnored_text, List.take_append_drop]
  have hlength : gap.length = ignoredLength false (gap ++ (a.text ++ rest.text)) := by
    rw [hgap, List.length_take_of_le (ignoredLength_le false i.text), ← hgap, ← hi]
  have hskip : j.skipIgnored = ⟨q, a.text ++ rest'⟩ := by
    rw [skipIgnored, drop, htext, ignoredLength_token (Pattern.of_spec hmatch).1 hlength rest',
      List.take_left, List.drop_left, hq]
  rw [hskip]
  exact token?_of_first? rfl (Match.first?_append (hsplit ▸ first?_of_token? h) rfl hrest)

theorem HasInserted.ends (hg : IsFiller g) (h : HasInserted g i j [])
    (hi : i.skipIgnored.text = []) : j.skipIgnored.text = [] := by
  rcases h with htext | ⟨u, v, read, coming, hiu, hju, hts, hplace⟩
  · rwa [skipIgnored_text, htext]
  · obtain ⟨rfl, rfl⟩ := List.append_eq_nil_iff.mp hts.symm
    have hv := hplace.ends rfl
    rw [skipIgnored_text, hiu, List.drop_eq_nil_iff, List.length_append] at hi
    have hle := ignoredLength_le false (u ++ v)
    rw [List.length_append] at hle
    rw [skipIgnored_text, hju, ignoredLength_insert hg (by omega), List.drop_eq_nil_iff, hv]
    simp only [List.length_append]
    omega

theorem HasInserted.reads (hg : IsFiller g) (hquote : '"' ∉ g) (h : HasInserted g i j (a :: ts))
    (ha : i.skipIgnored.token? wanted = some (a, rest)) :
    ∃ b rest', j.skipIgnored.token? wanted = some (b, rest') ∧ a.Alike b ∧
      HasInserted g rest rest' ts := by
  rcases h with htext | ⟨u, v, read, coming, hiu, hju, hts, hplace⟩
  · have hskip : j.skipIgnored.text = i.skipIgnored.text := by
      rw [skipIgnored_text, skipIgnored_text, htext]
    obtain ⟨b, rest', hb, hab, hrest⟩ := token?_of_text_eq hskip ha
    exact ⟨b, rest', hb, hab, .inl hrest⟩
  obtain ⟨hsplit, hspan, hposition, hmatch⟩ := token?_spec ha
  have hle := ignoredLength_le false i.text
  cases read with
  | nil =>
    obtain rfl : coming = a :: ts := hts.symm
    have hnext := hplace.next a rfl
    rw [hspan, skipIgnored_offset, hiu] at hnext
    have hskip : j.skipIgnored.text = i.skipIgnored.text := by
      have hlength : ignoredLength false (u ++ v) = u.length + ignoredLength false v := by omega
      rw [skipIgnored_text, skipIgnored_text, hiu, hju, ignoredLength_insert hg hlength, hlength,
        Nat.add_assoc, List.drop_length_add_append, List.drop_length_add_append,
        List.drop_length_add_append]
    obtain ⟨b, rest', hb, hab, hrest⟩ := token?_of_text_eq hskip ha
    exact ⟨b, rest', hb, hab, .inl hrest⟩
  | cons a' read =>
    obtain ⟨rfl, rfl⟩ := List.cons.inj hts
    -- the token lies in front of the place, so that only what follows it differs
    obtain ⟨u', rfl, hrest⟩ : ∃ u', u = i.text.take (ignoredLength false i.text) ++ a.text ++ u' ∧
        rest.text = u' ++ v := by
      refine Pattern.exists_tail _ ?_ ?_
      · rw [← hiu, List.append_assoc, ← hsplit, skipIgnored_text, List.take_append_drop]
      · have hbehind := hplace.behind a List.mem_cons_self
        rw [hspan, hposition, Position.after_offset, skipIgnored_offset] at hbehind
        rw [List.length_append, List.length_take_of_le hle]
        omega
    have hgap := List.length_take_of_le hle
    have htext : j.text = i.text.take (ignoredLength false i.text) ++
        (a.text ++ (u' ++ (g ++ v))) := by
      rw [hju]
      simp only [List.append_assoc]
    have htoken := token?_replaced ha rfl htext (hrest ▸ replaces_insert _ u' v hg hquote) rfl
    have hoffset : rest.position.offset =
        i.position.offset + ignoredLength false i.text + a.text.length := by
      rw [hposition, Position.after_offset, skipIgnored_offset]
    refine ⟨_, _, htoken, ⟨rfl, .inl rfl⟩, .inr ?_⟩
    refine ⟨u', v, read, coming, hrest, rfl, rfl, ?_⟩
    have hplace' : rest.position.offset + u'.length = i.position.offset +
        (i.text.take (ignoredLength false i.text) ++ a.text ++ u').length := by
      simp only [List.length_append, hgap]
      omega
    exact ⟨fun t ht => hplace' ▸ hplace.behind t (List.mem_cons_of_mem _ ht),
      fun t ht => hplace' ▸ hplace.next t ht, hplace.ends⟩

end Input

/-- A filler may be put at any place between two tokens of a text that is derived. -/
theorem exists_derive_insert {start : Start} {u v g : List Char} (hg : IsFiller g)
    (hquote : '"' ∉ g) (h : IsSplit start u v) :
    ∃ d e, derive start (u ++ v) = .ok d ∧ derive start (u ++ (g ++ v)) = .ok e ∧ d.Alike e := by
  obtain ⟨d, read, coming, hd, htokens, hplace⟩ := h
  have hinserted : Input.HasInserted g (.ofText (u ++ v)) (.ofText (u ++ (g ++ v))) d.tokens :=
    .inr ⟨u, v, read, coming, rfl, rfl, htokens, hplace⟩
  obtain ⟨e, he, hde⟩ := derive_follow (fun h => h.ends hg) (fun h => h.reads hg hquote) hd hinserted
  exact ⟨d, e, hd, he, hde⟩

theorem parseWith_insert {α : Type} {start : Start} {convert : ParseTree → Converted α}
    (hconvert : SameOnAlike convert) {u v g : List Char} (hg : IsFiller g) (hquote : '"' ∉ g)
    (h : IsSplit start u v) :
    SameOutcome (parseWith start convert (u ++ v)) (parseWith start convert (u ++ (g ++ v))) := by
  obtain ⟨d, e, hd, he, hde⟩ := exists_derive_insert hg hquote h
  exact sameOutcome_of_alike hconvert hd he hde

/-- The front of a text is a place in front of its first token. -/
theorem isSplit_front {start : Start} {text : List Char} {d : Derivation}
    (h : derive start text = .ok d) : IsSplit start [] text := by
  have hplace {ts : List Token} (hrun : Stack.Run d ⟨start, []⟩ (.ofText text) ts) :
      IsPlace 0 [] ts [] text := by
    cases hrun with
    | done hends =>
      exact ⟨by simp, by simp, fun _ =>
        Nat.le_antisymm (ignoredLength_le _ _) (List.drop_eq_nil_iff.mp hends)⟩
    | next token =>
      refine ⟨by simp, fun t ht => ?_, by simp⟩
      obtain rfl := Option.some.inj ht
      rw [(Input.token?_spec token).2.1, Input.skipIgnored_offset]
      rfl
  exact ⟨d, [], d.tokens, h, rfl, hplace (derive_eq_ok_iff.mp h)⟩

/-- The end of a text is a place behind its last token. -/
theorem isSplit_back {start : Start} {text : List Char} {d : Derivation}
    (h : derive start text = .ok d) : IsSplit start text [] := by
  have hend {i : Input} {ts : List Token} (h : i.SplitsInto ts) :
      ∀ t ∈ ts, t.span.last.offset ≤ i.position.offset + i.text.length := by
    induction h with
    | done => simp
    | @next i rest t ts gap ignored text span position isMatch tail ih =>
      have hlength := congrArg List.length text
      have hoffset := congrArg Position.offset position
      simp only [List.length_append] at hlength
      rw [span, Position.after_offset, Position.after_offset] at hoffset
      refine List.forall_mem_cons.mpr ⟨?_, fun u hu => ?_⟩
      · rw [span]
        show rest.position.offset ≤ _
        omega
      · have hu := ih u hu
        omega
  exact ⟨d, d.tokens, [], by rwa [List.append_nil], (List.append_nil _).symm,
    hend (derive_tokens h), by simp, fun _ => rfl⟩

/-- Ignored text may be inserted between any two tokens of a text that is accepted, in front of the
first and behind the last: the longer text is accepted too and means the same. -/
theorem parse_insert [Machine] :
    (∀ {u v g : List Char} {d : Document}, IsFiller g → '"' ∉ g → IsSplit .document u v →
      parseDocument (u ++ v) = .ok d → parseDocument (u ++ (g ++ v)) = .ok d) ∧
    (∀ {u v g : List Char} {x : Value}, IsFiller g → '"' ∉ g → IsSplit .value u v →
      parseValue (u ++ v) = .ok x → parseValue (u ++ (g ++ v)) = .ok x) ∧
    (∀ {u v g : List Char} {r : TypeRef}, IsFiller g → '"' ∉ g → IsSplit .type u v →
      parseType (u ++ v) = .ok r → parseType (u ++ (g ++ v)) = .ok r) := by
  refine ⟨fun hg hquote h hd => ?_, fun hg hquote h hx => ?_, fun hg hquote h hr => ?_⟩
  · have hsame := parseWith_insert Conversion.same_document hg hquote h
    exact (hd ▸ hsame : SameOutcome (.ok _) _).eq_ok
  · have hsame := parseWith_insert Conversion.same_valueLiteral hg hquote h
    exact (hx ▸ hsame : SameOutcome (.ok _) _).eq_ok
  · have hsame := parseWith_insert Conversion.same_typeReference hg hquote h
    exact (hr ▸ hsame : SameOutcome (.ok _) _).eq_ok

/-- The name `A` is a value and a type. -/
theorem exists_derive_exampleName [Machine] :
    (∃ d, derive .value "A".toList = .ok d ∧ parseValue "A".toList = .ok (.enum "A")) ∧
      ∃ d, derive .type "A".toList = .ok d ∧ parseType "A".toList = .ok (.named "A") := by
  let name : Token := ⟨.name, "A".toList, ⟨.start, Position.start.after "A".toList⟩⟩
  have hspelling : IsSpelling .name "A".toList := .name (by decide) fun k => by cases k <;> decide
  have hlexeme : name.IsLexeme := Token.isLexeme_of_spelling hspelling
  have hreads : (Input.ofText "A".toList).ReadsAs [name] :=
    @Input.readsAs_spellOut [(.name, "A".toList)] (by simpa using hspelling) .start
  let rule (r : Rule) (children : List Derivation) : Derivation :=
    .node ⟨.rule r, children.map Derivation.symbol⟩ children
  have hvalue : derive .value "A".toList =
      .ok (rule .valueLiteral [rule .value [rule .enumValue [rule .enumName [.leaf name]]]]) := by
    refine derive_complete ?_ rfl hreads
    simp only [rule, Derivation.IsOf, Derivation.AllOf, Derivation.symbol, List.map_cons,
      List.map_nil, and_true, true_and]
    exact ⟨by decide, by decide, by decide, by decide, hlexeme⟩
  have htype : derive .type "A".toList =
      .ok (rule .typeReference [rule .anyType [rule .namedType [rule .name [.leaf name]]]]) := by
    refine derive_complete ?_ rfl hreads
    simp only [rule, Derivation.IsOf, Derivation.AllOf, Derivation.symbol, List.map_cons,
      List.map_nil, and_true, true_and]
    exact ⟨by decide, by decide, by decide, by decide, hlexeme⟩
  have hvalueTree : ∃ s₁ s₂ s₃, parseTree .value "A".toList = .ok (.rule "value_literal" s₁
      [.rule "enum_value" s₂ [.rule "enum_name" s₃ [.token "NAME" "A" name.span]]]) := by
    rw [parseTree, hvalue, ← String.ofList_toList (s := "A")]
    exact ⟨_, _, _, rfl⟩
  have htypeTree : ∃ s₁ s₂ s₃, parseTree .type "A".toList = .ok (.rule "type_reference" s₁
      [.rule "named_type" s₂ [.rule "name" s₃ [.token "NAME" "A" name.span]]]) := by
    rw [parseTree, htype, ← String.ofList_toList (s := "A")]
    exact ⟨_, _, _, rfl⟩
  obtain ⟨_, _, _, hvalueTree⟩ := hvalueTree
  obtain ⟨_, _, _, htypeTree⟩ := htypeTree
  refine ⟨⟨_, hvalue, ?_⟩, _, htype, ?_⟩
  · rw [parseValue, parseWith, hvalueTree]
    rfl
  · rw [parseType, parseWith, htypeTree]
    rfl

theorem exampleText_insert :
    ∃ g, IsFiller g ∧ '"' ∉ g ∧ g ≠ [] ∧
      (∃ d, IsSplit .document [] exampleText ∧ @parseDocument .usual exampleText = .ok d ∧
        @parseDocument .usual (g ++ exampleText) = .ok d) ∧
      (∃ x, IsSplit .value "A".toList [] ∧ @parseValue .usual "A".toList = .ok x ∧
        @parseValue .usual ("A".toList ++ (g ++ [])) = .ok x) ∧
      ∃ r, IsSplit .type [] "A".toList ∧ parseType "A".toList = .ok r ∧
        parseType (g ++ "A".toList) = .ok r := by
  have hg : IsFiller [',', '#', 'c', '\n'] :=
    .separator (by decide) (@IsFiller.comment ['c'] [] '\n' (by simp [isLineBreak]) (by decide) .nil)
  have hquote : '"' ∉ [',', '#', 'c', '\n'] := by decide
  obtain ⟨_, _, -, hderive⟩ := exists_derive_exampleText
  obtain ⟨⟨_, hvalue, hx⟩, _, htype, hr⟩ := @exists_derive_exampleName .usual
  obtain ⟨hdocument, hvalues, htypes⟩ := @parse_insert .usual
  exact ⟨_, hg, hquote, by decide,
    ⟨_, isSplit_front hderive, @parseDocument_exampleText .usual,
      @hdocument [] exampleText _ _ hg hquote (isSplit_front hderive)
        (@parseDocument_exampleText .usual)⟩,
    ⟨_, isSplit_back hvalue, hx, @hvalues "A".toList [] _ _ hg hquote (isSplit_back hvalue) hx⟩,
    _, isSplit_front htype, hr, @htypes [] "A".toList _ _ hg hquote (isSplit_front htype) hr⟩

end GraphQLDoc
