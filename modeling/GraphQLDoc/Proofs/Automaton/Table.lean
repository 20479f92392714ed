import GraphQLDoc.Proofs.Automaton.Check

/-!
What the check says of the parse table, with symbols and sets in place of their numbers.
-/
namespace GraphQLDoc

theorem Nonterminal.mem_all (n : Nonterminal) : n ∈ all := by
  cases n with
  | start s => cases s <;> decide
  | rule r => simp [all, Rule.mem_all]
  | repetition r => simp [all, Repetition.mem_all]

theorem Nonterminal.head_of_mem_productions {n : Nonterminal} {p : Production}
    (h : p ∈ n.productions) : p.head = n := by
  cases n with
  | start s => rw [List.mem_singleton.mp h]; rfl
  | rule r =>
    simp only [productions, Rule.productions, List.mem_flatMap, List.mem_map] at h
    obtain ⟨_, _, _, _, rfl⟩ := h
    rfl
  | repetition r =>
    simp only [productions, Repetition.productions, List.mem_cons, List.not_mem_nil,
      or_false] at h
    rcases h with rfl | rfl <;> rfl

namespace Automaton

theorem lookahead_at (l : Lookahead) :
    (none :: Terminal.all.map some)[lookaheadNumber l]? = some l := by
  rcases l with _ | t
  · rfl
  · cases t with
    | keyword k => cases k <;> rfl
    | punctuator p => cases p <;> rfl
    | _ => rfl

theorem lookaheadNumber_injective {l m : Lookahead} (h : lookaheadNumber l = lookaheadNumber m) :
    l = m := by
  have hl := lookahead_at l
  rw [h, lookahead_at m] at hl
  exact (Option.some.inj hl).symm

theorem lookaheadNumber_lt (l : Lookahead) : lookaheadNumber l < firstNonterminal :=
  (List.getElem?_eq_some_iff.mp (lookahead_at l)).1

theorem nonterminal_at (n : Nonterminal) : Nonterminal.all[nonterminalPlace n]? = some n := by
  cases n with
  | start s => cases s <;> rfl
  | rule r => cases r <;> rfl
  | repetition r => cases r <;> rfl

theorem symbolNumber_injective {x y : Symbol} (h : symbolNumber x = symbolNumber y) : x = y := by
  rcases x with t | m <;> rcases y with u | n <;> simp only [symbolNumber] at h
  · exact congrArg Symbol.terminal (Option.some.inj (lookaheadNumber_injective h))
  · have := lookaheadNumber_lt (some t)
    omega
  · have := lookaheadNumber_lt (some u)
    omega
  · have hm := nonterminal_at m
    rw [Nat.add_left_cancel h, nonterminal_at n] at hm
    exact congrArg Symbol.nonterminal (Option.some.inj hm).symm

theorem map_symbolNumber_injective {xs ys : List Symbol}
    (h : xs.map symbolNumber = ys.map symbolNumber) : xs = ys :=
  (List.map_inj_right fun _ _ => symbolNumber_injective).mp h

theorem beginsWith_iff {as bs : List Nat} : beginsWith as bs = true ↔ as <+: bs := by
  induction as generalizing bs with
  | nil => simp [beginsWith]
  | cons a as ih =>
    cases bs with
    | nil => simp [beginsWith]
    | cons b bs => simp [beginsWith, ih, List.cons_prefix_cons]

theorem eq_of_beginsWith {xs ys : List Symbol} (hn : xs.length = ys.length)
    (h : beginsWith (xs.map symbolNumber) (ys.map symbolNumber) = true) : xs = ys :=
  map_symbolNumber_injective ((beginsWith_iff.mp h).eq_of_length (by simpa using hn))

/-- Productions with the same numbers are the same. -/
theorem eq_of_isSame {p r : Production} (h : isSame p r = true) : p = r := by
  simp only [isSame, Bool.and_eq_true, Nat.beq_eq] at h
  obtain ⟨⟨hhead, hlength⟩, hbody⟩ := h
  have hhead := Symbol.nonterminal.inj (symbolNumber_injective hhead)
  have hbody := eq_of_beginsWith hlength hbody
  cases p; cases r
  simp_all

theorem mem_of_isKnown {p : Production} (h : isKnown p = true) : p ∈ p.head.productions := by
  obtain ⟨r, hr, hsame⟩ := List.any_eq_true.mp h
  exact eq_of_isSame hsame ▸ hr

/-- Whether a lookahead is in a set. -/
def Has (set : Nat) (l : Lookahead) : Prop := set.testBit (lookaheadNumber l) = true

theorem Has.or_left {a : Nat} {l : Lookahead} (h : Has a l) (b : Nat) : Has (a ||| b) l := by
  unfold Has at h ⊢
  rw [Nat.testBit_or, h, Bool.true_or]

theorem Has.or_right {b : Nat} {l : Lookahead} (h : Has b l) (a : Nat) : Has (a ||| b) l := by
  unfold Has at h ⊢
  rw [Nat.testBit_or, h, Bool.or_true]

theorem Has.of_isWithin {a b : Nat} (h : isWithin a b = true) {l : Lookahead} (ha : Has a l) :
    Has b l := by
  have hb : a ||| b = b := by simpa [isWithin] using h
  exact hb ▸ ha.or_left b

theorem has_of_disjoint {a b : Nat} (h : (a &&& b).beq 0 = true) {l : Lookahead} (hb : Has b l) :
    ¬ Has a l := by
  intro ha
  have h0 : (a &&& b).testBit (lookaheadNumber l) = true := by
    rw [Nat.testBit_and, ha, hb]; rfl
  simp [Nat.eq_of_beq_eq_true h] at h0

theorem has_shiftLeft (l : Lookahead) : Has (1 <<< lookaheadNumber l) l := by
  simp [Has, Nat.testBit_shiftLeft]

theorem state_eq (q : Nat) : state q = (table.get? q).getD ⟨[], []⟩ := by
  cases q <;> with_unfolding_all rfl

theorem get?_table (q : Nat) : table.get? q = states[q]? := by
  unfold table
  exact Braun.get?_ofList states q

/-- What holds for each state of the table, and for a state that does nothing, holds for all. -/
theorem forall_state {P : State → Nat → Prop} (h : ∀ s ∈ states.zipIdx, P s.1 s.2)
    (hnone : ∀ q, P ⟨[], []⟩ q) (q : Nat) : P (state q) q := by
  rw [state_eq, get?_table]
  cases hq : states[q]? with
  | none => exact hnone q
  | some s =>
    have hmem : (s, q) ∈ states.zipIdx := by
      simpa [List.mem_zipIdx_iff_getElem?] using hq
    exact h (s, q) hmem

/-- The parts of the check. -/
structure IsChecked : Prop where
  past : checkPast = true
  first : checkFirst = true
  readings : checkReadings = true
  starts : Start.all.all checkStart = true
  climb : checkClimb = true
  words : checkWords = true
  quotes : checkQuotes = true
  ups : checkUps = true
  edges : checkEdges = true
  begins : Start.all.all checkBegin = true
  productive : checkProductive = true

theorem isChecked : IsChecked := by
  have hbehind := checkBehind_true
  have hwanted := checkWanted_true
  have hitems := checkItems_true
  simp only [checkBehind, checkWanted, checkItems, Bool.and_eq_true] at hbehind hwanted hitems
  obtain ⟨readings, starts⟩ := hbehind
  obtain ⟨⟨ups, words⟩, quotes⟩ := hwanted
  obtain ⟨⟨⟨⟨⟨past, first⟩, climb⟩, edges⟩, begins⟩, productive⟩ := hitems
  exact ⟨past, first, readings, starts, climb, words, quotes, ups, edges, begins, productive⟩

theorem target?_mem {x q : Nat} {es : List Edge} (h : target? x es = some q) : ⟨x, q⟩ ∈ es := by
  induction es with
  | nil => simp [target?] at h
  | cons e es ih =>
    unfold target? at h
    cases hx : x.beq e.symbol with
    | false => rw [hx] at h; exact List.mem_cons_of_mem _ (ih h)
    | true =>
      rw [hx] at h
      obtain rfl := Nat.eq_of_beq_eq_true hx
      obtain rfl := Option.some.inj h
      exact List.mem_cons_self

theorem past_startState (s : Start) : past (startState s) = [] := by
  have h := isChecked.past
  simp only [checkPast, Bool.and_eq_true, List.all_eq_true] at h
  exact List.isEmpty_iff.mp (h.1 s (by cases s <;> decide))

theorem checkPastAt_state (q : Nat) : checkPastAt (state q) q = true := by
  have h := isChecked.past
  simp only [checkPast, Bool.and_eq_true, List.all_eq_true] at h
  exact forall_state (P := fun s q => checkPastAt s q = true) h.2 (fun _ => rfl) q

theorem past_goto {q r : Nat} {x : Symbol} (h : (state q).goto? x = some r) :
    past r <+: symbolNumber x :: past q := by
  have hq := checkPastAt_state q
  simp only [checkPastAt, Bool.and_eq_true, List.all_eq_true] at hq
  unfold State.goto? at h
  have hr := hq.1 ⟨symbolNumber x, r⟩ (target?_mem h)
  exact beginsWith_iff.mp hr

theorem past_reduction {q : Nat} {r : Reduction} (h : r ∈ (state q).reductions) :
    r.production.body.reverse.map symbolNumber <+: past q ∧
      r.production ∈ r.production.head.productions := by
  have hq := checkPastAt_state q
  simp only [checkPastAt, Bool.and_eq_true, List.all_eq_true] at hq
  obtain ⟨hp, hk⟩ := hq.2 r h
  exact ⟨beginsWith_iff.mp hp, mem_of_isKnown hk⟩

theorem has_foldl_shifted {l : Lookahead} {es : List Edge} {set : Nat}
    (h : Has set l ∨ ∃ e ∈ es, e.symbol = lookaheadNumber l) :
    Has (es.foldl (fun set e =>
      bif e.symbol.blt firstNonterminal then set ||| 1 <<< e.symbol else set) set) l := by
  induction es generalizing set with
  | nil => simpa using h
  | cons e es ih =>
    rw [List.foldl_cons]
    apply ih
    rcases h with h | ⟨d, hd, hl⟩
    · left
      cases e.symbol.blt firstNonterminal with
      | false => exact h
      | true => exact h.or_left _
    · rcases List.mem_cons.mp hd with rfl | hd
      · left
        have hlt : d.symbol.blt firstNonterminal = true :=
          Nat.ble_eq_true_of_le (hl ▸ lookaheadNumber_lt l)
        have hbit : Has (1 <<< d.symbol) l := by
          rw [hl]; exact has_shiftLeft l
        rw [hlt]
        exact hbit.or_right set
      · exact .inr ⟨d, hd, hl⟩

theorem has_shifted {s : State} {t : Terminal} {q : Nat} (h : s.goto? (.terminal t) = some q) :
    Has (shifted s.edges) (some t) :=
  has_foldl_shifted (.inr ⟨_, target?_mem h, rfl⟩)

theorem of_has_foldl_shifted {l : Lookahead} {es : List Edge} {set : Nat}
    (h : Has (es.foldl (fun set e =>
      bif e.symbol.blt firstNonterminal then set ||| 1 <<< e.symbol else set) set) l) :
    Has set l ∨ ∃ e ∈ es, e.symbol = lookaheadNumber l := by
  induction es generalizing set with
  | nil => exact .inl h
  | cons e es ih =>
    rw [List.foldl_cons] at h
    rcases ih h with h | ⟨d, hd, hl⟩
    · cases hlt : e.symbol.blt firstNonterminal with
      | false =>
        rw [hlt] at h
        exact .inl h
      | true =>
        rw [hlt] at h
        simp only [Has, cond_true, Nat.testBit_or, Nat.one_shiftLeft, Nat.testBit_two_pow,
          Bool.or_eq_true, decide_eq_true_eq] at h
        exact h.imp_right fun he => ⟨e, List.mem_cons_self, he⟩
    · exact .inr ⟨d, List.mem_cons_of_mem e hd, hl⟩

theorem exists_target? {x : Nat} {es : List Edge} (h : ∃ e ∈ es, e.symbol = x) :
    ∃ q, target? x es = some q := by
  induction es with
  | nil => simp at h
  | cons e es ih =>
    unfold target?
    cases hx : x.beq e.symbol with
    | true => exact ⟨e.target, rfl⟩
    | false =>
      obtain ⟨d, hd, rfl⟩ := h
      rcases List.mem_cons.mp hd with rfl | hd
      · cases (Nat.beq_refl d.symbol).symm.trans hx
      · exact ih ⟨d, hd, rfl⟩

/-- The terminals that are shifted are those that a state has a way for. -/
theorem exists_goto? {s : State} {t : Terminal} (h : Has (shifted s.edges) (some t)) :
    ∃ q, s.goto? (.terminal t) = some q := by
  rcases of_has_foldl_shifted h with h | h
  · simp [Has] at h
  · exact exists_target? h

/-- The table reduces at the end of a body on all that may follow. -/
theorem action?_of_checkEnd {p : Production} {set : Nat} {s : State} {l : Lookahead}
    (h : checkEnd p set s = true) (hl : Has set l) : s.action? l = some (.reduce p) := by
  simp only [checkEnd, Bool.and_eq_true] at h
  obtain ⟨hshift, h⟩ := h
  have hreduction : s.reduction? l = some p := by
    unfold State.reduction?
    split at h
    · rename_i r hr
      obtain ⟨hset, hsame⟩ := Bool.and_eq_true_iff.mp h
      have hbit : r.lookaheads.testBit (lookaheadNumber l) = true := Has.of_isWithin hset hl
      simp only [hr, List.find?_cons, hbit, Option.map_some]
      rw [eq_of_isSame hsame]
    · simp at h
  cases l with
  | none => simp [State.action?, hreduction]
  | some t =>
    cases hg : s.goto? (.terminal t) with
    | none => simp [State.action?, hreduction, hg]
    | some r => exact absurd (has_shifted hg) (has_of_disjoint hshift hl)

/-- What may follow a nonterminal that is read in a state. -/
def MayFollow (q : Nat) (n : Nonterminal) (l : Lookahead) : Prop :=
  Has (canonicalFollow.get q (symbolNumber (.nonterminal n))) l

theorem along_cons {beside : Nat → Symbol → List Symbol → Bool} {atEnd : Nat → Bool} {q : Nat}
    {x : Symbol} {rest : List Symbol} (h : along beside atEnd q (x :: rest) = true) :
    ∃ r, (state q).goto? x = some r ∧ along beside atEnd r rest = true ∧ beside q x rest = true := by
  rw [along] at h
  split at h
  · cases h
  · rename_i r hr
    exact ⟨r, hr, Bool.and_eq_true_iff.mp h⟩

/-- A condition that is checked on all readings holds of each. -/
theorem of_checkReadings {check : Nat → Nonterminal → Nat → Bool}
    (h : (states.zipIdx.all fun (s, q) => checkReadingsAt check s q) = true) {q r : Nat}
    {n : Nonterminal} (hr : (state q).goto? (.nonterminal n) = some r) : check q n r = true := by
  have hq := forall_state (P := fun s q => checkReadingsAt check s q = true) (List.all_eq_true.mp h)
    (fun _ => rfl) q
  have hedge := List.all_eq_true.mp hq ⟨symbolNumber (.nonterminal n), r⟩ (target?_mem hr)
  have hnumber : symbolNumber (.nonterminal n) - firstNonterminal = nonterminalPlace n :=
    Nat.add_sub_cancel_left _ _
  have hplace : nonterminals.get? (symbolNumber (.nonterminal n) - firstNonterminal) = some n := by
    rw [hnumber, nonterminals, Braun.get?_ofList, nonterminal_at]
  have hterminal : (symbolNumber (.nonterminal n)).blt firstNonterminal = false := by
    refine Bool.eq_false_iff.mpr fun hlt => ?_
    exact absurd (Nat.blt_eq.mp hlt) (Nat.not_lt.mpr (Nat.le_add_right _ _))
  simpa only [hterminal, hplace, Bool.false_or] using hedge

theorem checkAlong_of_goto {q r : Nat} {n : Nonterminal}
    (h : (state q).goto? (.nonterminal n) = some r) {p : Production} (hp : p ∈ n.productions) :
    checkAlong p (canonicalFollow.get q (symbolNumber (.nonterminal n))) q p.body = true :=
  List.all_eq_true.mp (of_checkReadings isChecked.readings h) p hp

theorem checkStart_parts (s : Start) :
    MayFollow (startState s) (.rule s.rule) none ∧
      ∃ q, (state (startState s)).goto? (.nonterminal (.rule s.rule)) = some q ∧
        (state q).action? none = none := by
  have h := List.all_eq_true.mp isChecked.starts s (by cases s <;> decide)
  simp only [checkStart, Bool.and_eq_true] at h
  refine ⟨h.1, ?_⟩
  have h := h.2
  split at h
  · simp at h
  · rename_i q hq
    exact ⟨q, hq, by simpa using h⟩

theorem has_first {n : Nonterminal} {p : Production} (hp : p ∈ n.productions)
    (hs : isShorthand p = false) {x : Symbol} {rest : List Symbol} (hb : p.body = x :: rest)
    {l : Lookahead} (h : Has (first x) l) : Has (first (.nonterminal n)) l := by
  have hc := isChecked.first
  simp only [checkFirst, List.all_eq_true, Bool.or_eq_true] at hc
  have hc := hc n (Nonterminal.mem_all n) p hp
  rw [hs, hb] at hc
  exact h.of_isWithin (by simpa using hc)

theorem checkClimb_parts (n : Nonterminal) :
    climb (.nonterminal n) < Nonterminal.all.length ∧ ∀ p ∈ n.productions,
      p.body ≠ [] ∧ ∀ x, p.body = [x] → climb x < climb (.nonterminal n) := by
  have hc := isChecked.climb
  simp only [checkClimb, List.all_eq_true, Bool.and_eq_true] at hc
  obtain ⟨hlt, hp⟩ := hc n (Nonterminal.mem_all n)
  refine ⟨Nat.le_of_ble_eq_true hlt, fun p hmem => ?_⟩
  have h := hp p hmem
  split at h
  · simp at h
  · rename_i x hx
    exact ⟨by simp [hx], fun y hy => by
      obtain rfl : x = y := by simpa [hx] using hy
      exact Nat.le_of_ble_eq_true h⟩
  · rename_i hnil hone
    exact ⟨hnil, fun x hx => absurd hx (hone x)⟩

/-! What a state is known by. -/

theorem checkEdge_of_goto {q r : Nat} {x : Symbol} (h : (state q).goto? x = some r) :
    checkEdge q ⟨symbolNumber x, r⟩ = true := by
  have hq := forall_state (P := fun s q => s.edges.all (checkEdge q) = true)
    (List.all_eq_true.mp isChecked.edges) (fun _ => rfl) q
  exact List.all_eq_true.mp hq _ (target?_mem h)

/-- An item of a state, on the way that leads there. -/
structure Arrives (q : Nat) (x : Symbol) (i : Item) (n : Nat) : Prop where
  known : i.production ∈ i.production.head.productions
  dot : i.dot = n + 1
  symbol : i.production.body[n]? = some x
  /-- Nothing more has been read of the body. -/
  opens : n = 0 → (∃ s, i.production.head = .start s) ∨
    ∃ r, (state q).goto? (.nonterminal i.production.head) = some r
  /-- The item with the dot in front of the symbol. -/
  before : n ≠ 0 → ∃ j ∈ kernel q, j.dot = n ∧ j.production = i.production

theorem arrives_of_goto {q r : Nat} {x : Symbol} (h : (state q).goto? x = some r) {i : Item}
    (hi : i ∈ kernel r) : ∃ n, Arrives q x i n := by
  have hall := (Bool.and_eq_true_iff.mp (checkEdge_of_goto h)).1
  have hitem := List.all_eq_true.mp hall i hi
  simp only [checkItem, Bool.and_eq_true] at hitem
  obtain ⟨hknown, hitem⟩ := hitem
  split at hitem
  · cases hitem
  · rename_i n hdot
    obtain ⟨hsymbol, hbefore⟩ := Bool.and_eq_true_iff.mp hitem
    refine ⟨n, mem_of_isKnown hknown, hdot, ?_, ?_, ?_⟩
    · split at hsymbol
      · cases hsymbol
      · rename_i y hy
        rw [hy, symbolNumber_injective (Nat.eq_of_beq_eq_true hsymbol)]
    · rintro rfl
      dsimp only at hbefore
      split at hbefore
      · rename_i s hhead
        exact .inl ⟨s, hhead⟩
      · exact .inr (Option.isSome_iff_exists.mp hbefore)
    · intro hn
      obtain ⟨m, rfl⟩ := Nat.exists_eq_succ_of_ne_zero hn
      obtain ⟨j, hj, hsame⟩ := List.any_eq_true.mp hbefore
      obtain ⟨hdot, hsame⟩ := Bool.and_eq_true_iff.mp hsame
      exact ⟨j, hj, Nat.eq_of_beq_eq_true hdot, eq_of_isSame hsame⟩

theorem checkBegin_parts (s : Start) :
    kernel (startState s) ≠ [] ∧ ∀ i ∈ kernel (startState s), i.dot = 0 := by
  have h := List.all_eq_true.mp isChecked.begins s (by cases s <;> decide)
  simp only [checkBegin, Bool.and_eq_true, Bool.not_eq_true', List.isEmpty_eq_false_iff,
    List.all_eq_true] at h
  exact ⟨h.1, fun i hi => Nat.eq_of_beq_eq_true (h.2 i hi)⟩

/-- No way leads to the state of a start. -/
theorem ne_startState_of_goto {q r : Nat} {x : Symbol} (h : (state q).goto? x = some r) (s : Start) :
    r ≠ startState s := by
  rintro rfl
  obtain ⟨hne, hdots⟩ := checkBegin_parts s
  obtain ⟨i, hi⟩ := List.exists_mem_of_ne_nil _ hne
  obtain ⟨n, hn⟩ := arrives_of_goto h hi
  cases (hdots i hi).symm.trans hn.dot

/-- The symbol is a whole text that begins in the state. -/
def IsWholeText (q : Nat) (x : Symbol) : Prop :=
  ∃ s : Start, q = startState s ∧ x = .nonterminal (.rule s.rule)

theorem isWholeText_of_isWhole {q : Nat} {x : Symbol} (h : isWhole q (symbolNumber x) = true) :
    IsWholeText q x := by
  obtain ⟨s, -, hs⟩ := List.any_eq_true.mp h
  obtain ⟨hq, hx⟩ := Bool.and_eq_true_iff.mp hs
  exact ⟨s, Nat.eq_of_beq_eq_true hq, symbolNumber_injective (Nat.eq_of_beq_eq_true hx)⟩

/-- How a text goes on behind a symbol. -/
theorem isWholeText_or_goesOn {q r : Nat} {x : Symbol} (h : (state q).goto? x = some r) :
    IsWholeText q x ∨ goesOn 16 q r = true :=
  (Bool.or_eq_true_iff.mp (Bool.and_eq_true_iff.mp (checkEdge_of_goto h)).2).imp_left
    isWholeText_of_isWhole

theorem exists_item_of_goesOn {n q r : Nat} (h : goesOn (n + 1) q r = true) :
    ∃ i ∈ kernel r, 1 < i.dot ∨ IsWholeText q (.nonterminal i.production.head) ∨
      ∃ r', (state q).goto? (.nonterminal i.production.head) = some r' ∧ goesOn n q r' = true := by
  obtain ⟨i, hi, hgoes⟩ := List.any_eq_true.mp h
  refine ⟨i, hi, ?_⟩
  rcases Bool.or_eq_true_iff.mp hgoes with hgoes | hgoes
  · exact (Bool.or_eq_true_iff.mp hgoes).imp Nat.blt_eq.mp fun h => .inl (isWholeText_of_isWhole h)
  · split at hgoes
    · cases hgoes
    · rename_i r' hr'
      exact .inr (.inr ⟨r', hr', hgoes⟩)

/-! What follows a head in any document. -/

/-- What may follow a nonterminal that is read in a state, in any document. -/
def Follows (q : Nat) (n : Nonterminal) (l : Lookahead) : Prop :=
  Has (follow.get q (symbolNumber (.nonterminal n))) l

theorem checkUp_parts {q r : Nat} {n : Nonterminal}
    (h : (state q).goto? (.nonterminal n) = some r) :
    (∀ l, Has (shifted (state r).edges) l → Follows q n l) ∧ ∀ p ∈ n.productions,
      checkUpAlong p (follow.get q (symbolNumber (.nonterminal n))) q p.body = true := by
  obtain ⟨hshifted, hall⟩ := Bool.and_eq_true_iff.mp (of_checkReadings isChecked.ups h)
  exact ⟨fun _ hl => Has.of_isWithin hshifted hl, List.all_eq_true.mp hall⟩

/-- At the end of a body, what follows its head is shifted or lets the body be reduced. -/
theorem action?_of_checkUpAlong {p : Production} {q : Nat} {set : Nat}
    (h : checkUpAlong p set q [] = true) {t : Terminal} (ht : Has set (some t)) :
    (∃ r, (state q).action? (some t) = some (.shift r)) ∨
      (state q).action? (some t) = some (.reduce p) := by
  cases hshift : (state q).goto? (.terminal t) with
  | some r => exact .inl ⟨r, by simp only [State.action?, hshift]⟩
  | none =>
    refine .inr ?_
    simp only [checkUpAlong, along] at h
    split at h
    · rename_i r hr
      obtain ⟨hset, hsame⟩ := Bool.and_eq_true_iff.mp h
      have hbit : r.lookaheads.testBit (lookaheadNumber (some t)) = true := by
        have hall := Has.of_isWithin hset ht
        rw [Has, Nat.testBit_or, Bool.or_eq_true] at hall
        refine hall.resolve_left fun hshifted => ?_
        obtain ⟨r', hr'⟩ := exists_goto? hshifted
        cases hr'.symm.trans hshift
      simp only [State.action?, hshift, State.reduction?, hr, List.find?_cons, hbit, Option.map_some,
        eq_of_isSame hsame]
    · cases h

theorem State.mem_lookaheads {s : State} {l : Lookahead} :
    l ∈ s.lookaheads ↔ s.wants l = true := by
  have hall : l ∈ none :: Terminal.all.map some := List.mem_of_getElem? (lookahead_at l)
  simp [State.lookaheads, State.wants, hall]

/-- A lookahead that some state wants in the place of another is wanted wherever that is. -/
theorem wants_of_all {l m : Lookahead}
    (h : ∀ s ∈ states, (!s.wants l || s.wants m) = true) {q : Nat}
    (hq : l ∈ (state q).lookaheads) : m ∈ (state q).lookaheads := by
  have hnone : (State.mk [] []).wants l = false := by cases l <;> rfl
  have hs := forall_state (P := fun s _ => (!s.wants l || s.wants m) = true)
    (fun s hs => h s.1 (List.mem_of_getElem? (List.mem_zipIdx_iff_getElem?.mp hs)))
    (fun _ => by rw [hnone]; rfl) q
  rw [State.mem_lookaheads] at hq ⊢
  simpa [hq] using hs

/-- Where a word for a value is wanted, a name is wanted too. -/
theorem name_mem_lookaheads {q : Nat} {k : Keyword} (hk : k ∈ valueWords)
    (h : some (.keyword k) ∈ (state q).lookaheads) : some .name ∈ (state q).lookaheads := by
  have hc := isChecked.words
  simp only [checkWords, Bool.and_eq_true, List.all_eq_true] at hc
  exact wants_of_all (fun s hs => hc.2 s hs k hk) h

/-- Where a string is wanted, a block string is wanted too. -/
theorem blockString_mem_lookaheads {q : Nat} (h : some .string ∈ (state q).lookaheads) :
    some .blockString ∈ (state q).lookaheads :=
  wants_of_all (List.all_eq_true.mp isChecked.quotes) h

/-- A document does not begin with a name. -/
theorem name_notMem_start : some .name ∉ (state (startState .document)).lookaheads := by
  have hc := isChecked.words
  simp only [checkWords, Bool.and_eq_true, Bool.not_eq_true'] at hc
  rw [State.mem_lookaheads, hc.1]
  exact Bool.false_ne_true

theorem climb_lt (x : Symbol) : climb x < Nonterminal.all.length := by
  cases x with
  | terminal t => exact Nat.zero_lt_succ _
  | nonterminal n => exact (checkClimb_parts n).1

end Automaton

end GraphQLDoc
