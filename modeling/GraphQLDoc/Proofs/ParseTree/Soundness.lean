import GraphQLDoc.ParseTree.Parse
import GraphQLDoc.Proofs.ParseTree.Derivation

/-!
What the parser derives is a derivation of the grammar. The states on the stack are linked: each is
the one that the table gives for the piece below it. So the symbols that the state on top takes to
have been read are those of the pieces on the stack, and a reduction finds its body there.
-/
namespace GraphQLDoc

open Automaton

namespace Match

theorem named_spec {wanted : List Terminal} {text : List Char} {n : Nat}
    (h : Pattern.name text = some n) :
    Pattern.of (named wanted text n).terminal text = some (named wanted text n).length := by
  unfold named
  cases hk : Keyword.all.find? fun k => .keyword k ∈ wanted && k.word.toList == text.take n with
  | none => simpa [Pattern.of] using h
  | some k =>
    have hword := List.find?_some hk
    simp only [Bool.and_eq_true, beq_iff_eq] at hword
    have hfront : k.word.toList <+: text := hword.2 ▸ List.take_prefix n text
    have hlength : k.word.toList.length = n := by
      have hn : n ≤ text.length := by
        cases text with
        | nil => simp [Pattern.name] at h
        | cons c cs =>
          simp only [Pattern.name, Option.ite_none_right_eq_some, Option.some.injEq] at h
          have hrest : cs.takeWhile isNameRest <+: cs := List.takeWhile_prefix _
          have hle := hrest.length_le
          simp only [List.length_cons]
          omega
      simpa [Nat.min_eq_left hn] using congrArg List.length hword.2
    simp [Pattern.of, Pattern.word, hfront, ← hlength]

theorem one?_spec {wanted : List Terminal} {text : List Char} {t : Terminal} {m : Match}
    (h : one? wanted text t = some m) : Pattern.of m.terminal text = some m.length := by
  unfold one? at h
  split at h
  case h_1 =>
    obtain ⟨n, hn, rfl⟩ := Option.map_eq_some_iff.mp h
    exact named_spec hn
  case h_6 =>
    split at h
    · simp at h
    · obtain ⟨n, hn, rfl⟩ := Option.map_eq_some_iff.mp h
      exact hn
  all_goals
    obtain ⟨n, hn, rfl⟩ := Option.map_eq_some_iff.mp h
    exact hn

end Match

theorem Input.isLexeme_of_token? {wanted : List Terminal} {i rest : Input} {t : Token}
    (h : i.token? wanted = some (t, rest)) : t.IsLexeme := by
  obtain ⟨m, hm, heq⟩ := Option.map_eq_some_iff.mp h
  obtain ⟨rfl, -⟩ := Prod.mk.inj heq
  obtain ⟨u, -, hu⟩ := List.exists_of_findSome?_eq_some hm
  exact ⟨i.text, m.length, Match.one?_spec hu, rfl⟩

namespace Automaton.State

variable {s : State} {l : Lookahead}

theorem goto?_of_action? {q : Nat} (h : s.action? l = some (.shift q)) :
    ∃ t, l = some t ∧ s.goto? (.terminal t) = some q := by
  unfold action? at h
  cases l with
  | none => simp at h
  | some t =>
    cases hg : s.goto? (.terminal t) with
    | none => simp [hg] at h
    | some r =>
      obtain rfl : r = q := by simpa [hg] using h
      exact ⟨t, rfl, hg⟩

theorem mem_of_action? {p : Production} (h : s.action? l = some (.reduce p)) :
    ∃ r ∈ s.reductions, r.production = p := by
  have hr : s.reduction? l = some p := by
    unfold action? at h
    cases l with
    | none => simpa using h
    | some t => cases hg : s.goto? (.terminal t) <;> simp_all
  obtain ⟨r, hfind, rfl⟩ := Option.map_eq_some_iff.mp hr
  exact ⟨r, List.mem_of_find?_eq_some hfind, rfl⟩

end Automaton.State

namespace Stack

/-- Each state is the one behind the state and the piece below it. -/
inductive AreLinked (start : Start) : List Frame → Prop where
  | nil : AreLinked start []
  | cons {f : Frame} {fs : List Frame} (piece : f.derivation.IsOf .full)
      (goto : (state (topOf start fs)).goto? f.derivation.symbol = some f.state)
      (below : AreLinked start fs) : AreLinked start (f :: fs)

def IsLinked (s : Stack) : Prop := AreLinked s.start s.frames

namespace AreLinked

variable {start : Start} {fs : List Frame}

theorem drop (h : AreLinked start fs) (n : Nat) : AreLinked start (fs.drop n) := by
  induction h generalizing n with
  | nil => rw [List.drop_nil]; exact .nil
  | cons piece goto below ih =>
    cases n with
    | zero => exact .cons piece goto below
    | succ n => exact ih n

theorem isOf (h : AreLinked start fs) {f : Frame} (hf : f ∈ fs) : f.derivation.IsOf .full := by
  induction h with
  | nil => simp at hf
  | cons piece goto below ih =>
    rcases List.mem_cons.mp hf with rfl | hf
    · exact piece
    · exact ih hf

/-- What a state takes to have been read has been read. -/
theorem past_isPrefix (h : AreLinked start fs) :
    past (topOf start fs) <+: fs.map fun f => symbolNumber f.derivation.symbol := by
  induction h with
  | nil => simp [topOf, past_startState]
  | cons piece goto below ih =>
    exact (past_goto goto).trans (List.cons_prefix_cons.mpr ⟨rfl, ih⟩)

end AreLinked

theorem IsLinked.push {s : Stack} (hs : s.IsLinked) {q : Nat} {d : Derivation}
    (hd : d.IsOf .full) (hq : s.top.goto? d.symbol = some q) : (s.push q d).IsLinked :=
  .cons hd hq hs

/-- The pieces that a reduction gathers are its body. -/
theorem IsLinked.body {s : Stack} (hs : s.IsLinked) {l : Lookahead} {p : Production}
    (h : s.top.action? l = some (.reduce p)) :
    p ∈ p.head.productions ∧
      ((s.frames.take p.body.length).map (·.derivation)).reverse.map Derivation.symbol =
        p.body := by
  obtain ⟨r, hr, rfl⟩ := State.mem_of_action? h
  obtain ⟨hbody, hmem⟩ := past_reduction hr
  refine ⟨hmem, ?_⟩
  have hfront := List.prefix_iff_eq_take.mp (hbody.trans hs.past_isPrefix)
  rw [← List.map_take, List.length_map, List.length_reverse] at hfront
  have hsymbols : r.production.body.reverse =
      (s.frames.take r.production.body.length).map fun f => f.derivation.symbol :=
    map_symbolNumber_injective (by rw [hfront, List.map_map]; rfl)
  rw [List.map_reverse, List.map_map]
  exact List.reverse_eq_iff.mpr hsymbols.symm

theorem IsLinked.reduce? {s t : Stack} (hs : s.IsLinked) {l : Lookahead} {p : Production}
    (h : s.top.action? l = some (.reduce p)) (ht : s.reduce? p = some t) :
    t.IsLinked ∧ t.start = s.start := by
  obtain ⟨hmem, hbody⟩ := hs.body h
  simp only [Stack.reduce?] at ht
  split at ht
  · simp at ht
  · obtain ⟨q, hq, rfl⟩ := Option.map_eq_some_iff.mp ht
    have hall : Derivation.AllOf .full
        ((s.frames.take p.body.length).map (·.derivation)).reverse := by
      refine Derivation.allOf_iff.mpr fun d hd => ?_
      obtain ⟨f, hf, rfl⟩ := List.mem_map.mp (List.mem_reverse.mp hd)
      exact AreLinked.isOf hs (List.mem_of_mem_take hf)
    exact ⟨IsLinked.push (s := { s with frames := s.frames.drop p.body.length }) (hs.drop _)
      ⟨hmem, hbody, hall⟩ hq, rfl⟩

theorem IsLinked.settled {l : Lookahead} {n : Nat} {s : Stack} (hs : s.IsLinked) :
    (settle l n s).1.IsLinked ∧ (settle l n s).1.start = s.start ∧
      ∀ q, (settle l n s).2 = some q →
        ∃ t, l = some t ∧ (settle l n s).1.top.goto? (.terminal t) = some q := by
  induction n generalizing s with
  | zero => exact ⟨hs, rfl, nofun⟩
  | succ n ih =>
    unfold Stack.settle
    split
    case h_1 => exact ⟨hs, rfl, nofun⟩
    case h_2 q ha =>
      refine ⟨hs, rfl, fun r hr => ?_⟩
      obtain rfl := Option.some.inj hr
      exact State.goto?_of_action? ha
    case h_3 p ha =>
      split
      case h_1 => exact ⟨hs, rfl, nofun⟩
      case h_2 t hr =>
        obtain ⟨ht, hstart⟩ := hs.reduce? ha hr
        obtain ⟨h₁, h₂, h₃⟩ := ih ht
        exact ⟨h₁, h₂.trans hstart, h₃⟩

theorem IsLinked.fed {s t : Stack} {q? : Option Nat} (hs : s.IsLinked) {l : Lookahead}
    (h : s.feed l = (t, q?)) : t.IsLinked ∧ t.start = s.start ∧
      ∀ q, q? = some q → ∃ u, l = some u ∧ t.top.goto? (.terminal u) = some q := by
  have hsettled := hs.settled (l := l) (n := s.reductionBound)
  rwa [show Stack.settle l s.reductionBound s = (t, q?) from h] at hsettled

theorem IsLinked.result? {s : Stack} (hs : s.IsLinked) {d : Derivation} (h : s.result? = some d) :
    d.IsOf .full ∧ d.symbol = .nonterminal (.rule s.start.rule) := by
  unfold Stack.result? at h
  split at h
  · rename_i hframes
    simp only [Option.ite_none_right_eq_some, Option.some.injEq] at h
    obtain ⟨hhead, rfl⟩ := h
    exact ⟨hs.isOf (by rw [hframes]; exact List.mem_singleton_self _),
      congrArg Symbol.nonterminal hhead⟩
  · simp at h

end Stack

namespace Parse

theorem step_more {text : List Char} {stack next : Stack} {input rest : Input}
    (hs : stack.IsLinked) (h : step text stack input = .ok (.more next rest)) :
    next.IsLinked ∧ next.start = stack.start := by
  simp only [step] at h
  split at h
  · split at h <;> simp at h
  · split at h
    · rename_i token rest' htoken
      split at h
      · rename_i settled q hfeed
        obtain ⟨rfl, rfl⟩ := by simpa using h
        obtain ⟨hlinked, hstart, hgoto⟩ := hs.fed hfeed
        obtain ⟨t, ht, hq⟩ := hgoto q rfl
        obtain rfl := Option.some.inj ht
        exact ⟨hlinked.push (Input.isLexeme_of_token? htoken) hq, hstart⟩
      · simp at h
    · split at h <;> simp at h

theorem step_done {text : List Char} {stack : Stack} {input : Input} {d : Derivation}
    (hs : stack.IsLinked) (h : step text stack input = .ok (.done d)) :
    d.IsOf .full ∧ d.symbol = .nonterminal (.rule stack.start.rule) := by
  simp only [step] at h
  split at h
  · split at h
    · rename_i hresult
      obtain rfl := by simpa using h
      obtain ⟨hlinked, hstart, -⟩ := hs.fed (l := none) rfl
      rw [← hstart]
      exact hlinked.result? hresult
    · simp at h
  · split at h
    · split at h <;> simp at h
    · split at h <;> simp at h

theorem loop_sound {text : List Char} {fuel : Nat} {stack : Stack} {input : Input}
    {d : Derivation} (hs : stack.IsLinked) (h : loop text fuel stack input = .ok d) :
    d.IsOf .full ∧ d.symbol = .nonterminal (.rule stack.start.rule) := by
  induction fuel generalizing stack input with
  | zero => simp [loop] at h
  | succ n ih =>
    unfold loop at h
    split at h
    · simp at h
    · rename_i hstep
      obtain rfl := Except.ok.inj h
      exact step_done hs hstep
    · rename_i hstep
      obtain ⟨hnext, hstart⟩ := step_more hs hstep
      rw [← hstart]
      exact ih hnext h

end Parse

/-- What the parser derives is a derivation of the grammar from the start that it was given. -/
theorem derive_sound {start : Start} {text : List Char} {d : Derivation}
    (h : derive start text = .ok d) :
    d.IsOf .full ∧ d.symbol = .nonterminal (.rule start.rule) :=
  have hs : Stack.IsLinked ⟨start, []⟩ := .nil
  Parse.loop_sound hs h

end GraphQLDoc
