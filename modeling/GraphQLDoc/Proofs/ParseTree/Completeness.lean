import GraphQLDoc.Proofs.ParseTree.Soundness

/-!
The parser derives every canonical document. It is run along the derivation: where a nonterminal
that is read in a state is followed by what may follow it there, the table goes on by one of its
productions and reduces at the end of the body.

A lookahead never lets more reductions happen than the parser allows for: a reduction of one piece
climbs in the grammar, and one of several pieces shortens the stack.
-/
namespace GraphQLDoc

open Automaton

namespace Derivation

mutual

theorem IsOf.full : {d : Derivation} → d.IsOf .canonical → d.IsOf .full
  | leaf _, h => h
  | node _ _, ⟨hp, hbody, hall⟩ => ⟨(List.mem_filter.mp hp).1, hbody, AllOf.full hall⟩

theorem AllOf.full : {ds : List Derivation} → AllOf .canonical ds → AllOf .full ds
  | [], _ => trivial
  | _ :: _, ⟨hd, hds⟩ => ⟨hd.full, hds.full⟩

end

theorem mem_canonical {n : Nonterminal} {p : Production} (h : p ∈ Grammar.canonical.productions n) :
    p ∈ n.productions ∧ isShorthand p = false := by
  simpa [Grammar.canonical] using h

/-- What comes next, when these are the tokens to come. -/
def following (ts : List Token) : Lookahead := ts.head?.map (·.terminal)

mutual

theorem has_first_following (ts : List Token) :
    (d : Derivation) → d.IsOf .canonical → Has (first d.symbol) (following (d.tokens ++ ts))
  | leaf t, _ => has_shiftLeft (some t.terminal)
  | node p children, ⟨hp, hbody, hall⟩ => by
    obtain ⟨hmem, hlong⟩ := mem_canonical hp
    obtain ⟨x, rest, hx⟩ := List.exists_cons_of_ne_nil ((checkClimb_parts _).2 p hmem).1
    exact has_first hmem hlong hx
      (has_first_following_of_list ts children hall x rest (hbody.trans hx))

theorem has_first_following_of_list (ts : List Token) :
    (ds : List Derivation) → AllOf .canonical ds → ∀ x rest, ds.map symbol = x :: rest →
      Has (first x) (following (tokensOfList ds ++ ts))
  | d :: ds, ⟨hd, _⟩, x, rest, h => by
    obtain ⟨rfl, -⟩ := List.cons.inj h
    rw [tokensOfList, List.append_assoc]
    exact has_first_following _ d hd

end

end Derivation

open GraphQLDoc.Derivation (following)

/-- What comes behind a nonterminal of a body may follow it. -/
theorem mayFollow_of_checkBeside {ds : List Derivation} (hds : Derivation.AllOf .canonical ds)
    {set q : Nat} {n : Nonterminal} {ts : List Token} (hset : Has set (following ts))
    (h : checkBeside set q (.nonterminal n) (ds.map Derivation.symbol) = true) :
    MayFollow q n (following (Derivation.tokensOfList ds ++ ts)) := by
  cases ds with
  | nil => exact hset.of_isWithin h
  | cons d ds =>
    rw [Derivation.tokensOfList, List.append_assoc]
    exact (Derivation.has_first_following _ d hds.1).of_isWithin h

namespace Stack

/-- A bound on the reductions that any lookahead can still cause. -/
def potential : List Frame → Nat
  | [] => 0
  | f :: fs => (f :: fs).length * Nonterminal.all.length - climb f.derivation.symbol

theorem potential_le (fs : List Frame) : potential fs ≤ fs.length * Nonterminal.all.length := by
  cases fs with
  | nil => exact Nat.zero_le _
  | cons f fs => exact Nat.sub_le _ _

theorem reduce?_eq_some {s t : Stack} {p : Production} (h : s.reduce? p = some t) :
    p.body.length ≤ s.frames.length ∧ ∃ q d, d.symbol = .nonterminal p.head ∧
      t.frames = ⟨q, d⟩ :: s.frames.drop p.body.length := by
  simp only [reduce?] at h
  split at h
  · simp at h
  · rename_i hn
    obtain ⟨q, -, rfl⟩ := Option.map_eq_some_iff.mp h
    exact ⟨by omega, q, _, rfl, rfl⟩

theorem IsLinked.potential_reduce? {s t : Stack} (hs : s.IsLinked) {l : Lookahead}
    {p : Production} (h : s.top.action? l = some (.reduce p)) (ht : s.reduce? p = some t) :
    potential t.frames < potential s.frames := by
  obtain ⟨hmem, hbody⟩ := hs.body h
  obtain ⟨hlength, q, d, hd, hframes⟩ := reduce?_eq_some ht
  obtain ⟨hne, hunit⟩ := (checkClimb_parts _).2 p hmem
  have hhead := climb_lt (.nonterminal p.head)
  cases hf : s.frames with
  | nil =>
    rw [hf] at hlength
    exact absurd (List.length_eq_zero_iff.mp (Nat.le_zero.mp hlength)) hne
  | cons f fs =>
    have htop := climb_lt f.derivation.symbol
    rw [hf] at hlength
    simp only [hframes, potential, hd, List.length_cons, List.length_drop, hf] at hlength ⊢
    rw [show Nonterminal.all.length = 90 from rfl] at *
    rcases Nat.lt_or_ge 1 p.body.length with hmany | hone
    · omega
    · have hpos := List.length_pos_iff.mpr hne
      obtain ⟨x, hx⟩ := List.length_eq_one_iff.mp (show p.body.length = 1 by omega)
      have hclimb := hunit x hx
      have hx' : f.derivation.symbol = x := by simpa [hx, hf] using hbody
      rw [hx'] at htop ⊢
      simp only [hx, List.length_cons, List.length_nil]
      omega

/-- Where there is fuel enough, more of it makes no difference. -/
theorem IsLinked.settle_add {s : Stack} (hs : s.IsLinked) (l : Lookahead) {n : Nat}
    (hn : potential s.frames < n) (k : Nat) : Stack.settle l (n + k) s = Stack.settle l n s := by
  induction n generalizing s with
  | zero => omega
  | succ n ih =>
    rw [Nat.add_right_comm]
    simp only [Stack.settle]
    split
    case h_1 => rfl
    case h_2 => rfl
    case h_3 p ha =>
      split
      case h_1 => rfl
      case h_2 t ht =>
        have hlt := hs.potential_reduce? ha ht
        exact ih (hs.reduce? ha ht).1 (by omega)

theorem reductionBound_pos (s : Stack) : 0 < s.reductionBound :=
  Nat.add_pos_left (by decide) _

theorem potential_lt (s : Stack) : potential s.frames < s.reductionBound := by
  have h := potential_le s.frames
  have hpos : 0 < Nonterminal.all.length := by decide
  unfold reductionBound
  omega

theorem feed_of_shift {s : Stack} {l : Lookahead} {q : Nat}
    (h : s.top.action? l = some (.shift q)) : s.feed l = (s, some q) := by
  obtain ⟨n, hn⟩ := Nat.exists_eq_succ_of_ne_zero (Nat.ne_of_gt s.reductionBound_pos)
  simp only [feed, hn, settle, h]

theorem feed_of_none {s : Stack} {l : Lookahead} (h : s.top.action? l = none) :
    s.feed l = (s, none) := by
  obtain ⟨n, hn⟩ := Nat.exists_eq_succ_of_ne_zero (Nat.ne_of_gt s.reductionBound_pos)
  simp only [feed, hn, settle, h]

theorem IsLinked.feed_of_reduce {s t : Stack} (hs : s.IsLinked) {l : Lookahead} {p : Production}
    (h : s.top.action? l = some (.reduce p)) (ht : s.reduce? p = some t) :
    s.feed l = t.feed l := by
  obtain ⟨n, hn⟩ := Nat.exists_eq_succ_of_ne_zero (Nat.ne_of_gt s.reductionBound_pos)
  have hlinked := (hs.reduce? h ht).1
  have hlt := hs.potential_reduce? h ht
  have hbound := s.potential_lt
  have hs' : s.feed l = Stack.settle l n t := by simp only [feed, hn, Stack.settle, h, ht]
  have hn' := hlinked.settle_add l (show potential t.frames < n by omega) t.reductionBound
  have ht' := hlinked.settle_add l t.potential_lt n
  rw [hs', feed, ← hn', ← ht', Nat.add_comm]

/-- The parser, with a stack, reads the tokens to the end and has derived `d` then. -/
inductive Reads (d : Derivation) : Stack → List Token → Prop where
  | done {s : Stack} (result : (s.feed none).1.result? = some d) : Reads d s []
  | next {s settled : Stack} {t : Token} {ts : List Token} {q : Nat}
      (wanted : t.terminal ∈ s.wanted) (feed : s.feed (some t.terminal) = (settled, some q))
      (rest : Reads d (settled.push q (.leaf t)) ts) : Reads d s (t :: ts)

theorem mem_wanted {s : Stack} {t : Terminal} {a : Action}
    (h : s.top.action? (some t) = some a) : t ∈ s.wanted := by
  simp only [wanted, State.lookaheads, List.mem_filterMap, List.mem_filter]
  refine ⟨some t, ⟨?_, by rw [h]; rfl⟩, rfl⟩
  exact List.mem_cons_of_mem _ (List.mem_map_of_mem (Terminal.mem_all t))

theorem Reads.shift {s : Stack} {t : Token} {ts : List Token} {q : Nat} {d : Derivation}
    (h : s.top.action? (some t.terminal) = some (.shift q))
    (hd : Reads d (s.push q (.leaf t)) ts) : Reads d s (t :: ts) :=
  .next (mem_wanted h) (feed_of_shift h) hd

theorem Reads.reduce {s t : Stack} (hs : s.IsLinked) {ts : List Token} {p : Production}
    {d : Derivation} (h : s.top.action? (following ts) = some (.reduce p))
    (ht : s.reduce? p = some t) (hd : Reads d t ts) : Reads d s ts := by
  have hfeed := hs.feed_of_reduce h ht
  cases hd with
  | done result =>
    have hfeed : s.feed none = t.feed none := hfeed
    exact .done (hfeed ▸ result)
  | @next _ settled u ts q wanted feed rest =>
    have hfeed : s.feed (some u.terminal) = t.feed (some u.terminal) := hfeed
    exact .next (mem_wanted h) (hfeed.trans feed) rest

/-- The stack with more pieces on it. -/
def under (s : Stack) (fs : List Frame) : Stack := { s with frames := fs ++ s.frames }

theorem reduce?_under {s : Stack} {fs : List Frame} {p : Production} {q : Nat}
    (hn : fs.length = p.body.length) (hq : s.top.goto? (.nonterminal p.head) = some q) :
    (s.under fs).reduce? p = some (s.push q (.node p (fs.map (·.derivation)).reverse)) := by
  have htop : Stack.top ⟨s.start, s.frames⟩ = s.top := rfl
  simp only [reduce?, under, ← hn, List.drop_left, List.take_left, List.length_append, htop, hq]
  rw [if_neg (by omega)]
  rfl

mutual

/-- The parser reads what derives a symbol where the table goes on with that symbol. -/
theorem Reads.tree {D : Derivation} :
    (d : Derivation) → d.IsOf .canonical → ∀ (s : Stack) (q : Nat) (ts : List Token),
      s.IsLinked → s.top.goto? d.symbol = some q →
      (∀ n, d.symbol = .nonterminal n → MayFollow (topOf s.start s.frames) n (following ts)) →
      Reads D (s.push q d) ts → Reads D s (d.tokens ++ ts)
  | .leaf t, _ => by
    intro s q ts hs hq _ h
    have hq : s.top.goto? (.terminal t.terminal) = some q := hq
    have ha : s.top.action? (some t.terminal) = some (.shift q) := by
      simp only [State.action?, hq]
    exact .shift ha h
  | .node p children, ⟨hp, hbody, hall⟩ => by
    intro s q ts hs hq hfollow h
    have hmem := (Derivation.mem_canonical hp).1
    have hfollow := hfollow _ rfl
    have hcheck := checkAlong_of_goto hq hmem
    rw [← hbody] at hcheck
    refine Reads.forest children hall s p _ ts hs hcheck hfollow fun fs hfs hlinked hend => ?_
    have hlength : fs.length = p.body.length := by
      simpa [← hbody] using congrArg List.length hfs
    have hreduce := reduce?_under hlength hq
    rw [hfs, List.reverse_reverse] at hreduce
    exact .reduce hlinked (action?_of_checkEnd hend hfollow) hreduce h

/-- Along a body: the pieces are put on the stack, and the end of the body is reached. -/
theorem Reads.forest {D : Derivation} :
    (ds : List Derivation) → Derivation.AllOf .canonical ds →
      ∀ (s : Stack) (p : Production) (set : Nat) (ts : List Token), s.IsLinked →
      checkAlong p set (topOf s.start s.frames) (ds.map Derivation.symbol) = true →
      Has set (following ts) →
      (∀ fs, fs.map (·.derivation) = ds.reverse → (s.under fs).IsLinked →
        checkEnd p set (s.under fs).top = true → Reads D (s.under fs) ts) →
      Reads D s (Derivation.tokensOfList ds ++ ts)
  | [], _ => by
    intro s p set ts hs hcheck _ h
    exact h [] rfl hs hcheck
  | d :: ds, ⟨hd, hds⟩ => by
    intro s p set ts hs hcheck hset h
    obtain ⟨q, hq, hrest, hbeside⟩ := along_cons hcheck
    rw [Derivation.tokensOfList, List.append_assoc]
    refine Reads.tree d hd s q _ hs hq (fun n hn => mayFollow_of_checkBeside hds hset ?_) ?_
    · rwa [hn] at hbeside
    · refine Reads.forest ds hds (s.push q d) p set ts (hs.push hd.full hq) hrest hset
        fun fs hfs hlinked hend => ?_
      have happend : (s.push q d).under fs = s.under (fs ++ [⟨q, d⟩]) := by
        simp [under, push]
      rw [happend] at hlinked hend ⊢
      exact h _ (by simp [hfs]) hlinked hend

end

theorem reads_of_isOf {start : Start} {d : Derivation} (hd : d.IsOf .canonical)
    (hsymbol : d.symbol = .nonterminal (.rule start.rule)) : Reads d ⟨start, []⟩ d.tokens := by
  obtain ⟨hfollow, q, hq, hend⟩ := checkStart_parts start
  have hresult : (Stack.push ⟨start, []⟩ q d).result? = some d := by
    cases d with
    | leaf t => simp [Derivation.symbol] at hsymbol
    | node p children =>
      have hhead : p.head = .rule start.rule := Symbol.nonterminal.inj hsymbol
      simp [push, result?, hhead]
  have hlast : Reads d (Stack.push ⟨start, []⟩ q d) [] :=
    .done (by rw [feed_of_none (s := Stack.push ⟨start, []⟩ q d) hend]; exact hresult)
  have h := Reads.tree d hd ⟨start, []⟩ q [] .nil (by rw [hsymbol]; exact hq)
    (fun n hn => by
      obtain rfl := Symbol.nonterminal.inj (hsymbol.symm.trans hn)
      exact hfollow) hlast
  rwa [List.append_nil] at h

end Stack

/-- The input is read as the tokens, whatever terminals are wanted beside those that come. -/
inductive Input.ReadsAs : Input → List Token → Prop where
  | done {i : Input} (empty : i.skipIgnored.text = []) : ReadsAs i []
  | next {i rest : Input} {t : Token} {ts : List Token}
      (token : ∀ wanted, t.terminal ∈ wanted → i.skipIgnored.token? wanted = some (t, rest))
      (shorter : rest.text.length < i.skipIgnored.text.length) (tail : ReadsAs rest ts) :
      ReadsAs i (t :: ts)

theorem Parse.loop_complete {text : List Char} {stack : Stack} {ts : List Token}
    {d : Derivation} (hd : stack.Reads d ts) {input : Input} (hi : input.ReadsAs ts)
    {fuel : Nat} (hf : ts.length < fuel) : loop text fuel stack input = .ok d := by
  induction hd generalizing input fuel with
  | done result =>
    obtain ⟨n, rfl⟩ := Nat.exists_eq_add_of_lt hf
    cases hi with
    | done empty => simp [loop, step, empty, result]
  | @next s settled t ts q wanted feed rest ih =>
    cases hi with
    | @next _ rest' _ _ token shorter tail =>
      cases fuel with
      | zero => omega
      | succ n =>
        have hstep : step text s input = .ok (.more (settled.push q (.leaf t)) rest') := by
          simp only [step]
          split
          · rename_i hnil
            simp [hnil] at shorter
          · simp only [token _ wanted, feed]
        rw [loop, hstep]
        exact ih tail (by simpa using hf)

theorem Input.ReadsAs.length_le {i : Input} {ts : List Token} (h : i.ReadsAs ts) :
    ts.length ≤ i.text.length := by
  induction h with
  | done => exact Nat.zero_le _
  | @next i rest t ts token shorter tail ih =>
    have hskip : i.skipIgnored.text.length ≤ i.text.length := by
      rw [skipIgnored, drop_text, List.length_drop]
      exact Nat.sub_le _ _
    simp only [List.length_cons]
    omega

/-- The parser derives what has a canonical derivation. -/
theorem derive_complete {start : Start} {text : List Char} {d : Derivation}
    (hd : d.IsOf .canonical) (hsymbol : d.symbol = .nonterminal (.rule start.rule))
    (hi : (Input.ofText text).ReadsAs d.tokens) : derive start text = .ok d :=
  Parse.loop_complete (Stack.reads_of_isOf hd hsymbol) hi (Nat.lt_succ_of_le hi.length_le)

end GraphQLDoc
