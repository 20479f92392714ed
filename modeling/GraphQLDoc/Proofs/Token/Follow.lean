import GraphQLDoc.Proofs.Token.Spelling
import GraphQLDoc.Proofs.Token.Split

/-!
What a token depends on behind its last character. A name or a number ends where the next character
is none of its own; a string ends with its quote; a block string also depends on whether three quotes
follow anywhere, since only then its last escaped quotes are a part of it. So a token stays what it is
when what follows is replaced by something that begins alike, or with ignored text.
-/
namespace GraphQLDoc

/-- Ignored text follows, or nothing. -/
def Stops (rest : List Char) : Prop := ∀ c ∈ rest.head?, isSeparator c = true ∨ c = '#'

/-- Three quotes occur in the text. -/
def HasQuotes (cs : List Char) : Prop := ['"', '"', '"'] <:+: cs

theorem HasQuotes.cons {cs : List Char} {c : Char} (h : HasQuotes cs) : HasQuotes (c :: cs) :=
  h.trans (List.suffix_cons c cs).isInfix

theorem HasQuotes.of_cons {cs : List Char} {c : Char} (h : HasQuotes (c :: cs))
    (hfront : ∀ tail, c = '"' → cs = '"' :: '"' :: tail → False) : HasQuotes cs := by
  rcases List.infix_cons_iff.mp h with hbegins | hinfix
  · obtain ⟨tail, htail⟩ := hbegins
    obtain ⟨hc, hcs⟩ := List.cons.inj htail
    exact (hfront tail hc.symm hcs.symm).elim
  · exact hinfix

/-- What may stand behind the text `x` of a token in the place of `rest`. Quotes that follow matter
only where there are three quotes before. -/
structure Replaces (x rest rest' : List Char) : Prop where
  head : rest'.head? = rest.head? ∨ Stops rest'
  quotes : HasQuotes (x ++ rest) → HasQuotes rest' → HasQuotes rest
  tailQuotes : HasQuotes (x ++ rest) → rest'.head? = some '"' → HasQuotes rest'.tail →
    HasQuotes rest.tail

/-- Characters and escapes, and the closing quote. -/
inductive IsStringBody : List Char → Prop where
  | close : IsStringBody ['"']
  | unicode {a b c d : Char} {rest : List Char} (hex : [a, b, c, d].all isHexDigit = true)
      (h : IsStringBody rest) : IsStringBody ('\\' :: 'u' :: a :: b :: c :: d :: rest)
  | escape {c : Char} {rest : List Char} (hc : c ∈ ['"', '\\', '/', 'b', 'f', 'n', 'r', 't'])
      (h : IsStringBody rest) : IsStringBody ('\\' :: c :: rest)
  | plain {c : Char} {rest : List Char} (hc : c ∉ ['"', '\\', '\n', '\r']) (h : IsStringBody rest) :
      IsStringBody (c :: rest)

theorem Stops.of_separator_ne {c : Char} (h : isSeparator c = true ∨ c = '#') :
    isNameRest c = false ∧ c ≠ '.' ∧ c ≠ '"' := by
  simp only [isSeparator, Bool.or_eq_true, beq_iff_eq] at h
  rcases h with (((((rfl | rfl) | rfl) | rfl) | rfl) | rfl) | rfl <;> decide

namespace Replaces

variable {x rest rest' : List Char}

theorem refl (x rest : List Char) : Replaces x rest rest := ⟨.inl rfl, fun _ => id, fun _ _ => id⟩

/-- A character that may follow still follows. -/
theorem head_of {P : Char → Prop} (h : Replaces x rest rest') (hrest : ∀ c ∈ rest.head?, P c)
    (hstop : ∀ c, isSeparator c = true ∨ c = '#' → P c) : ∀ c ∈ rest'.head?, P c := by
  intro c hc
  rcases h.head with hhead | hstops
  · exact hrest c (hhead ▸ hc)
  · exact hstop c (hstops c hc)

theorem endsNumber (h : Replaces x rest rest') (hrest : Pattern.endsNumber rest = true) :
    Pattern.endsNumber rest' = true := by
  have hiff (cs : List Char) : Pattern.endsNumber cs = true ↔
      ∀ c ∈ cs.head?, isNameRest c = false ∧ c ≠ '.' := by
    cases cs <;> simp [Pattern.endsNumber]
  rw [hiff] at hrest ⊢
  exact h.head_of hrest fun c hc => ⟨(Stops.of_separator_ne hc).1, (Stops.of_separator_ne hc).2.1⟩

end Replaces

namespace Pattern

theorem name_iff {cs : List Char} {n : Nat} : name cs = some n ↔
    ∃ x rest, cs = x ++ rest ∧ n = x.length ∧ isName x = true ∧
      ∀ c ∈ rest.head?, isNameRest c = false := by
  constructor
  · intro h
    cases cs with
    | nil => cases h
    | cons a cs =>
      simp only [name, Option.ite_none_right_eq_some, Option.some.injEq] at h
      obtain ⟨ha, rfl⟩ := h
      refine ⟨a :: cs.takeWhile isNameRest, cs.dropWhile isNameRest, ?_, Nat.add_comm _ _, ?_, ?_⟩
      · rw [List.cons_append, List.takeWhile_append_dropWhile]
      · simp only [isName, ha, Bool.true_and]
        exact List.all_takeWhile
      · intro c hc
        have hhead := List.head?_dropWhile_not isNameRest cs
        rw [Option.mem_def.mp hc] at hhead
        simpa using hhead
  · rintro ⟨x, rest, rfl, rfl, hx, hrest⟩
    have hstop : rest.takeWhile isNameRest = [] := by
      cases rest with
      | nil => rfl
      | cons c rest => simp [hrest c rfl]
    cases x with
    | nil => cases hx
    | cons c cs =>
      simp only [isName, Bool.and_eq_true, List.all_eq_true] at hx
      rw [List.cons_append, name, if_pos hx.1, List.takeWhile_append_of_pos hx.2, hstop,
        List.append_nil, Nat.add_comm, List.length_cons]

theorem stringBody_iff {n m : Nat} {cs : List Char} : stringBody n cs = some m ↔
    ∃ x rest, cs = x ++ rest ∧ m = n + x.length ∧ IsStringBody x := by
  constructor
  · intro h
    fun_induction stringBody n cs with
    | case1 => cases h
    | case2 n rest => exact ⟨['"'], rest, rfl, (Option.some.inj h).symm, .close⟩
    | case3 n a b c d rest hex ih =>
      obtain ⟨x, r, rfl, rfl, hx⟩ := ih h
      exact ⟨_ :: _ :: _ :: _ :: _ :: _ :: x, r, rfl, by simp only [List.length_cons]; omega,
        .unicode hex hx⟩
    | case4 => cases h
    | case5 n c rest _ hc ih =>
      obtain ⟨x, r, rfl, rfl, hx⟩ := ih h
      exact ⟨_ :: _ :: x, r, rfl, by simp only [List.length_cons]; omega, .escape hc hx⟩
    | case6 => cases h
    | case7 => cases h
    | case8 n c rest hquote _ _ hc ih =>
      obtain ⟨x, r, rfl, rfl, hx⟩ := ih h
      exact ⟨_ :: x, r, rfl, by simp only [List.length_cons]; omega, .plain (by grind) hx⟩
  · rintro ⟨x, rest, rfl, rfl, hx⟩
    induction hx generalizing n with
    | close => rfl
    | unicode hex h ih =>
      simp only [List.cons_append, stringBody, hex, if_true, ih, List.length_cons]
      congr 1
      omega
    | @escape c tail hc h ih =>
      have hu : c ≠ 'u' := by
        rintro rfl
        simp at hc
      simp only [List.cons_append, List.length_cons]
      unfold stringBody
      split <;> grind
    | plain hc h ih =>
      simp only [List.cons_append, List.length_cons]
      unfold stringBody
      split <;> grind

theorem string_iff {cs : List Char} {n : Nat} : string cs = some n ↔
    ∃ x rest, cs = '"' :: x ++ rest ∧ n = x.length + 1 ∧ IsStringBody x := by
  constructor
  · intro h
    unfold string at h
    split at h
    · obtain ⟨x, rest, rfl, rfl, hx⟩ := stringBody_iff.mp h
      exact ⟨x, rest, rfl, Nat.add_comm _ _, hx⟩
    · cases h
  · rintro ⟨x, rest, rfl, rfl, hx⟩
    exact stringBody_iff.mpr ⟨x, rest, rfl, Nat.add_comm _ _, hx⟩

theorem word_iff {w : String} {cs : List Char} {n : Nat} : word w cs = some n ↔
    ∃ rest, cs = w.toList ++ rest ∧ n = w.toList.length := by
  simp only [word, List.isPrefixOf_iff_prefix, Option.ite_none_right_eq_some, Option.some.injEq]
  constructor
  · rintro ⟨⟨rest, rfl⟩, rfl⟩
    exact ⟨rest, rfl, rfl⟩
  · rintro ⟨rest, rfl, rfl⟩
    exact ⟨List.prefix_append _ _, rfl⟩

variable {x rest rest' : List Char}

theorem exists_tail (front : List Char) {tail : List Char} (h : x ++ rest = front ++ tail)
    (hle : front.length ≤ x.length) : ∃ y, x = front ++ y ∧ tail = y ++ rest := by
  obtain ⟨y, rfl⟩ := List.prefix_of_prefix_length_le (List.prefix_append front tail)
    (h ▸ List.prefix_append x rest) hle
  rw [List.append_assoc] at h
  exact ⟨y, rfl, (List.append_cancel_left h).symm⟩

/-! Block strings. -/

section

variable {n m : Nat} {escaped : Option Nat} {cs : List Char}

/-- Without three quotes, a block string is closed by the last ones that were escaped. -/
theorem blockBody_of_not (h : ¬ HasQuotes cs) : blockBody n escaped cs = escaped := by
  fun_induction blockBody n escaped cs with
  | case1 n escaped rest => exact absurd ⟨['\\'], rest, rfl⟩ h
  | case2 n escaped rest => exact absurd ⟨[], rest, rfl⟩ h
  | case3 n escaped c rest _ _ ih => exact ih fun hrest => h (HasQuotes.cons hrest)
  | case4 => rfl

/-- Three quotes close a block string, if not at their place then later. -/
theorem blockBody_of_quotes (h : HasQuotes cs) : ∃ m, n < m ∧ blockBody n escaped cs = some m := by
  fun_induction blockBody n escaped cs with
  | case1 n escaped rest ih =>
    by_cases hrest : HasQuotes rest
    · obtain ⟨m, hm, heq⟩ := ih hrest
      exact ⟨m, by omega, heq⟩
    · exact ⟨n + 4, by omega, blockBody_of_not hrest⟩
  | case2 n escaped rest => exact ⟨n + 3, by omega, rfl⟩
  | case3 n escaped c rest _ hfront ih =>
    obtain ⟨m, hm, heq⟩ := ih (h.of_cons fun tail hc hrest => hfront tail hc hrest)
    exact ⟨m, by omega, heq⟩
  | case4 =>
    exact absurd h.length_le (by decide)

/-- The end of a block string lies behind what has been read, or it is the end of the last escaped
quotes and no three quotes follow. -/
theorem blockBody_end (h : blockBody n escaped cs = some m) :
    HasQuotes cs ∧ n < m ∨ ¬ HasQuotes cs ∧ escaped = some m := by
  by_cases hq : HasQuotes cs
  · obtain ⟨k, hk, heq⟩ := @blockBody_of_quotes n escaped cs hq
    rw [heq] at h
    obtain rfl := Option.some.inj h
    exact .inl ⟨hq, hk⟩
  · rw [blockBody_of_not hq] at h
    exact .inr ⟨hq, h⟩

theorem blockBody_append (h : blockBody n escaped (x ++ rest) = some (n + x.length)) (hx : x ≠ [])
    (hescaped : ∀ k ∈ escaped, k ≤ n) (hquotes : HasQuotes rest' → HasQuotes rest) :
    ['"', '"', '"'] <:+ x ∧ blockBody n escaped (x ++ rest') = some (n + x.length) := by
  generalize hcs : x ++ rest = cs at h
  fun_induction blockBody n escaped cs generalizing x with
  | case1 n escaped tail ih =>
    have hend := blockBody_end h
    have hlong : 4 ≤ x.length := by
      rcases hend with ⟨-, hlt⟩ | ⟨-, heq⟩
      · omega
      · have := Option.some.inj heq
        omega
    obtain ⟨y, rfl, rfl⟩ := exists_tail ['\\', '"', '"', '"'] hcs hlong
    have hlength : n + (['\\', '"', '"', '"'] ++ y).length = n + 4 + y.length := by
      simp only [List.length_append, List.length_cons, List.length_nil]
      omega
    rw [hlength] at h ⊢
    show _ ∧ blockBody (n + 4) (some (n + 4)) (y ++ rest') = _
    by_cases hy : y = []
    · subst hy
      have hnot : ¬ HasQuotes rest' := by
        rcases hend with ⟨hq, hlt⟩ | ⟨hq, -⟩
        · simp only [List.length_append, List.length_cons, List.length_nil] at hlt
          omega
        · exact fun h => hq (hquotes h)
      exact ⟨⟨['\\'], rfl⟩, blockBody_of_not hnot⟩
    · obtain ⟨hquotes, hrest⟩ := ih hy (by simp) rfl h
      exact ⟨hquotes.trans (List.suffix_append _ y), hrest⟩
  | case2 n escaped tail =>
    have hlong : x.length = 3 := by
      have := Option.some.inj h
      omega
    obtain ⟨y, rfl, -⟩ := exists_tail ['"', '"', '"'] hcs (Nat.le_of_eq hlong.symm)
    obtain rfl : y = [] := by simpa using hlong
    exact ⟨List.suffix_rfl, rfl⟩
  | case3 n escaped c tail hplain hopen ih =>
    obtain ⟨y, rfl, rfl⟩ := exists_tail [c] hcs (List.length_pos_iff.mpr hx)
    have hlength : n + ([c] ++ y).length = n + 1 + y.length := by
      simp only [List.length_append, List.length_cons, List.length_nil]
      omega
    rw [hlength] at h ⊢
    have hy : y ≠ [] := by
      rintro rfl
      rcases blockBody_end h with ⟨-, hlt⟩ | ⟨-, heq⟩
      · exact Nat.lt_irrefl _ hlt
      · exact Nat.lt_irrefl _ (hescaped _ heq)
    obtain ⟨hquoted, hrest⟩ := ih hy (fun k hk => Nat.le_succ_of_le (hescaped k hk)) rfl h
    refine ⟨hquoted.trans (List.suffix_append _ y), ?_⟩
    have hlong : 3 ≤ y.length := hquoted.length_le
    obtain ⟨y₁, y₂, y₃, y, rfl⟩ : ∃ y₁ y₂ y₃ tail, y = y₁ :: y₂ :: y₃ :: tail := by
      obtain _ | ⟨y₁, _ | ⟨y₂, _ | ⟨y₃, y⟩⟩⟩ := y
      case cons.cons.cons => exact ⟨y₁, y₂, y₃, y, rfl⟩
      all_goals simp at hlong
    rw [← hrest]
    -- what the two first cases look at lies in the literal itself
    simp only [List.cons_append, List.nil_append] at hplain hopen ⊢
    refine blockBody.eq_3 n escaped c _ (fun tail hc htail => ?_) fun tail hc htail => ?_
    · obtain ⟨rfl, rfl, rfl, -⟩ := by simpa using htail
      exact hplain _ hc rfl
    · obtain ⟨rfl, rfl, -⟩ := by simpa using htail
      exact hopen _ hc rfl
  | case4 n escaped =>
    exact absurd (List.append_eq_nil_iff.mp hcs).1 hx

end

theorem hasQuotes_of_blockString {cs : List Char} {n : Nat} (h : blockString cs = some n) :
    HasQuotes cs := by
  unfold blockString at h
  split at h
  · rename_i tail
    exact ⟨[], tail, rfl⟩
  · cases h

/-- Three quotes stand at both ends of a block string. -/
theorem blockString_append (h : blockString (x ++ rest) = some x.length)
    (hquotes : HasQuotes rest' → HasQuotes rest) :
    (∃ inner, x = ['"', '"', '"'] ++ inner ++ ['"', '"', '"']) ∧
      blockString (x ++ rest') = some x.length := by
  unfold blockString at h
  split at h
  · rename_i tail heq
    have hlong : 3 < x.length := by
      rcases blockBody_end h with ⟨-, hlt⟩ | ⟨-, hnone⟩
      · exact hlt
      · cases hnone
    obtain ⟨y, rfl, rfl⟩ := exists_tail ['"', '"', '"'] heq (Nat.le_of_lt hlong)
    rw [List.length_append, List.length_cons, List.length_cons, List.length_cons] at h hlong ⊢
    have hy : y ≠ [] := by
      rintro rfl
      exact Nat.lt_irrefl 3 hlong
    obtain ⟨⟨inner, hinner⟩, hbody⟩ := blockBody_append h hy (by simp) hquotes
    exact ⟨⟨inner, by rw [← hinner, List.append_assoc]⟩, hbody⟩
  · cases h

/-- Two quotes that begin no block string begin none if what follows is replaced. -/
theorem blockString_none_append (hstring : string (x ++ rest) = some x.length)
    (h : blockString (x ++ rest) = none) (hrest : Replaces x rest rest') :
    blockString (x ++ rest') = none := by
  obtain ⟨y, tail, hsplit, hlength, hy⟩ := string_iff.mp hstring
  obtain ⟨rfl, rfl⟩ := List.append_inj hsplit hlength
  have hother {c : Char} {cs : List Char} (hc : c ≠ '"') : blockString ('"' :: c :: cs) = none := by
    simp [blockString, hc]
  cases hy with
  | unicode | escape => exact hother (by decide)
  | plain hc => exact hother fun heq => hc (heq ▸ List.mem_cons_self)
  | close =>
    have hquoteNext {cs : List Char} (hcs : ¬ HasQuotes cs) :
        blockString ('"' :: '"' :: '"' :: cs) = none := blockBody_of_not hcs
    cases rest' with
    | nil => rfl
    | cons c cs =>
      by_cases hc : c = '"'
      · subst hc
        refine hquoteNext fun hquotes => ?_
        have hhead : rest.head? = some '"' := by
          rcases hrest.head with hhead | hstops
          · exact hhead.symm
          · exact absurd rfl (Stops.of_separator_ne (hstops '"' rfl)).2.2
        obtain ⟨tail, rfl⟩ := List.head?_eq_some_iff.mp hhead
        have hthree : HasQuotes (['"', '"'] ++ '"' :: tail) := ⟨[], tail, rfl⟩
        obtain ⟨m, -, hm⟩ := @blockBody_of_quotes 3 none tail (hrest.tailQuotes hthree rfl hquotes)
        cases h.symm.trans hm
      · simp [blockString, hc]

/-- A match depends on its own text and on what may follow it. -/
theorem of_append {t : Terminal} (h : of t (x ++ rest) = some x.length)
    (hrest : Replaces x rest rest') : of t (x ++ rest') = some x.length := by
  cases t with
  | blockString => exact (blockString_append h (hrest.quotes (hasQuotes_of_blockString h))).2
  | name =>
    obtain ⟨y, tail, hsplit, hlength, hy, htail⟩ := name_iff.mp h
    obtain ⟨rfl, rfl⟩ := List.append_inj hsplit hlength
    exact name_iff.mpr ⟨x, rest', rfl, rfl, hy, hrest.head_of htail fun c hc =>
      (Stops.of_separator_ne hc).1⟩
  | int =>
    obtain ⟨negative, ds, tail, hsplit, hlength, hds, htail⟩ := int_iff.mp h
    rw [← List.append_assoc] at hsplit
    obtain ⟨rfl, rfl⟩ := List.append_inj hsplit (by rw [hlength, List.length_append])
    exact int_iff.mpr ⟨negative, ds, rest', List.append_assoc _ _ _, hlength, hds,
      hrest.endsNumber htail⟩
  | float =>
    obtain ⟨number, tail, hsplit, hlength, hnumber, htail⟩ := float_iff.mp h
    obtain ⟨rfl, rfl⟩ := List.append_inj hsplit hlength
    exact float_iff.mpr ⟨number, rest', rfl, rfl, hnumber, hrest.endsNumber htail⟩
  | string =>
    obtain ⟨y, tail, hsplit, hlength, hy⟩ := string_iff.mp h
    obtain ⟨rfl, rfl⟩ := List.append_inj hsplit hlength
    exact string_iff.mpr ⟨y, rest', rfl, rfl, hy⟩
  | keyword k =>
    obtain ⟨tail, hsplit, hlength⟩ := word_iff.mp h
    obtain ⟨rfl, rfl⟩ := List.append_inj hsplit hlength
    exact word_iff.mpr ⟨rest', rfl, rfl⟩
  | punctuator p =>
    obtain ⟨tail, hsplit, hlength⟩ := word_iff.mp h
    obtain ⟨rfl, rfl⟩ := List.append_inj hsplit hlength
    exact word_iff.mpr ⟨rest', rfl, rfl⟩

/-- Integers and floats are told apart by what they consist of. -/
theorem float_eq_none {cs : List Char} {n : Nat} (h : int cs = some n) : float cs = none := by
  refine Option.eq_none_iff_forall_ne_some.mpr fun m hm => ?_
  obtain ⟨t, rest, rfl, -, ht, -⟩ := float_iff.mp hm
  cases (IsSpelling.int_eq_none ht rest).symm.trans h

end Pattern

namespace Match

variable {wanted : List Terminal} {x rest rest' : List Char}

theorem one?_eq_some {text : List Char} {v : Terminal} {m : Match}
    (h : one? wanted text v = some m) :
    Pattern.of v text = some m.length ∧ (v.isKeyword = true → .name ∉ wanted) := by
  cases v with
  | keyword k =>
    obtain ⟨hname, hword⟩ := Option.ite_none_left_eq_some.mp h
    obtain ⟨n, hn, rfl⟩ := Option.map_eq_some_iff.mp hword
    exact ⟨hn, fun _ => hname⟩
  | _ =>
    obtain ⟨n, hn, rfl⟩ := Option.map_eq_some_iff.mp h
    exact ⟨hn, by simp [Terminal.isKeyword]⟩

/-- The match of a terminal stays when what follows is replaced. -/
theorem one?_append {v : Terminal} {m : Match} (h : one? wanted (x ++ rest) v = some m)
    (hlength : m.length = x.length) (hrest : Replaces x rest rest') :
    one? wanted (x ++ rest') v = some m := by
  have hmatch := (one?_eq_some h).1
  rw [hlength] at hmatch
  have hmatch' := Pattern.of_append hmatch hrest
  cases v with
  | name =>
    obtain ⟨n, hn, rfl⟩ := Option.map_eq_some_iff.mp h
    obtain rfl := Option.some.inj (hn.symm.trans hmatch)
    refine Option.map_eq_some_iff.mpr ⟨_, hmatch', ?_⟩
    simp only [named, List.take_left]
  | keyword k =>
    obtain ⟨hname, hword⟩ := Option.ite_none_left_eq_some.mp h
    obtain ⟨n, hn, rfl⟩ := Option.map_eq_some_iff.mp hword
    obtain rfl := Option.some.inj (hn.symm.trans hmatch)
    exact (if_neg hname).trans (Option.map_eq_some_iff.mpr ⟨_, hmatch', rfl⟩)
  | _ =>
    obtain ⟨n, hn, rfl⟩ := Option.map_eq_some_iff.mp h
    obtain rfl := Option.some.inj (hn.symm.trans hmatch)
    exact Option.map_eq_some_iff.mpr ⟨_, hmatch', rfl⟩

/-- Of two words of which none is the other with more behind it, one at most is at the front. -/
theorem word_none_append {w v : String} (hmatch : Pattern.word v (x ++ rest) = some x.length)
    (hfree : w.toList <+: v.toList ∨ v.toList <+: w.toList → False) :
    Pattern.word w (x ++ rest') = none := by
  obtain ⟨tail, hsplit, hlength⟩ := Pattern.word_iff.mp hmatch
  obtain ⟨rfl, rfl⟩ := List.append_inj hsplit hlength
  refine Option.eq_none_iff_forall_ne_some.mpr fun n hn => ?_
  obtain ⟨tail, heq, -⟩ := Pattern.word_iff.mp hn
  exact hfree (List.prefix_or_prefix_of_prefix ⟨tail, heq.symm⟩ (List.prefix_append _ rest'))

/-- A terminal that does not match beside one that does, does not match when what follows is
replaced. -/
theorem one?_none_append {u v : Terminal} {m : Match} (hv : v ∈ wanted)
    (hmatch : one? wanted (x ++ rest) v = some m) (hlength : m.length = x.length)
    (h : one? wanted (x ++ rest) u = none) (hrest : Replaces x rest rest') :
    one? wanted (x ++ rest') u = none := by
  by_cases huv : u = v
  · subst huv
    cases h.symm.trans hmatch
  obtain ⟨hof, hname⟩ := one?_eq_some hmatch
  have hpos := (Pattern.of_spec hof).1
  rw [hlength] at hof hpos
  have hof' := Pattern.of_append hof hrest
  obtain ⟨c, cs, rfl⟩ := List.exists_cons_of_length_pos hpos
  have hkind : .of c = v.kind := by
    refine Decidable.byContradiction fun hne => ?_
    cases (one?_eq_none hne).symm.trans hmatch
  by_cases hu : .of c = u.kind
  case neg => exact one?_eq_none hu
  cases v with
  | name =>
    cases u with
    | name => exact absurd rfl huv
    | keyword j => exact if_pos hv
    | _ => cases hkind.symm.trans hu
  | keyword k =>
    cases u with
    | name =>
      simp only [one?, List.cons_append, Pattern.name, Option.map_eq_none_iff] at h ⊢
      split at h
      · cases h
      · rename_i hc
        exact if_neg hc
    | keyword j =>
      refine (if_neg (hname rfl)).trans (Option.map_eq_none_iff.mpr (word_none_append hof ?_))
      rintro (hbegins | hbegins)
      · exact huv (congrArg _ (Keyword.eq_of_prefix hbegins))
      · exact huv (congrArg _ (Keyword.eq_of_prefix hbegins).symm)
    | _ => cases hkind.symm.trans hu
  | punctuator p =>
    cases u with
    | punctuator q =>
      refine Option.map_eq_none_iff.mpr (word_none_append hof ?_)
      rintro (hbegins | hbegins)
      · exact huv (congrArg _ (Punctuator.eq_of_prefix hbegins))
      · exact huv (congrArg _ (Punctuator.eq_of_prefix hbegins).symm)
    | _ => cases hkind.symm.trans hu
  | int =>
    cases u with
    | int => exact absurd rfl huv
    | float => exact Option.map_eq_none_iff.mpr (Pattern.float_eq_none hof')
    | _ => cases hkind.symm.trans hu
  | float =>
    cases u with
    | float => exact absurd rfl huv
    | int =>
      obtain ⟨t, tail, heq, -, ht, -⟩ := Pattern.float_iff.mp hof'
      rw [heq]
      exact Option.map_eq_none_iff.mpr (IsSpelling.int_eq_none ht tail)
    | _ => cases hkind.symm.trans hu
  | string =>
    cases u with
    | string => exact absurd rfl huv
    | blockString =>
      exact Option.map_eq_none_iff.mpr
        (Pattern.blockString_none_append hof (Option.map_eq_none_iff.mp h) hrest)
    | _ => cases hkind.symm.trans hu
  | blockString =>
    cases u with
    | blockString => exact absurd rfl huv
    | string =>
      simp only [Pattern.of, Pattern.blockString] at hof
      split at hof
      · rename_i heq
        rw [heq] at h
        cases h
      · cases hof
    | _ => cases hkind.symm.trans hu

/-- What is read stays the same when what follows it is replaced. -/
theorem first?_append {m : Match} (h : first? wanted (x ++ rest) = some m)
    (hlength : m.length = x.length) (hrest : Replaces x rest rest') :
    first? wanted (x ++ rest') = some m := by
  obtain ⟨front, v, back, horder, hmatch, hfront⟩ := List.findSome?_eq_some_iff.mp h
  have hv : v ∈ wanted := by
    have hmem : v ∈ order.filter (· ∈ wanted) := by simp [horder]
    simpa using (List.mem_filter.mp hmem).2
  exact List.findSome?_eq_some_iff.mpr ⟨front, v, back, horder, one?_append hmatch hlength hrest,
    fun u hu => one?_none_append hv hmatch hlength (hfront u hu) hrest⟩

end Match

end GraphQLDoc
