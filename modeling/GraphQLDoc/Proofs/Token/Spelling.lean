import GraphQLDoc.Proofs.Token.Number
import GraphQLDoc.Token.Basic

/-!
Texts that are read as one token wherever that is wanted: what follows neither goes on with the token
nor changes it, and no other terminal that may be wanted matches.
-/
namespace GraphQLDoc

/-- The text ends, or a character follows that is a part of no word or number and opens no string. -/
def Breaks (rest : List Char) : Prop := ∀ c ∈ rest.head?, isNameRest c = false ∧ c ≠ '.' ∧ c ≠ '"'

/-- How tokens are spelled. A word that is a keyword is never read as a name where the keyword is
wanted too. -/
inductive IsSpelling : Terminal → List Char → Prop where
  | name {x : List Char} (isName : isName x = true) (free : ∀ k : Keyword, k.word.toList ≠ x) :
    IsSpelling .name x
  | keyword (k : Keyword) : IsSpelling (.keyword k) k.word.toList
  | punctuator (p : Punctuator) : IsSpelling (.punctuator p) p.word.toList
  | int (negative : Bool) {ds : List Char} (whole : Pattern.IsWhole ds) :
    IsSpelling .int (Pattern.signText negative ++ ds)
  | float {t : NumberText} (isFloat : t.IsFloat) : IsSpelling .float t.text
  | string {x : List Char} (quoted : x.head? = some '"')
    (whole : ∀ rest, Pattern.string (x ++ rest) = some x.length)
    (apart : ∀ rest, Breaks rest → Pattern.blockString (x ++ rest) = none) : IsSpelling .string x

namespace Breaks

theorem nil : Breaks [] := nofun

theorem space (rest : List Char) : Breaks (' ' :: rest) := by
  intro c hc
  obtain rfl := Option.some.inj hc
  decide

variable {rest : List Char}

theorem endsNumber (h : Breaks rest) : Pattern.endsNumber rest = true := by
  cases rest with
  | nil => rfl
  | cons c rest =>
    obtain ⟨hname, hdot, -⟩ := h c rfl
    simp [Pattern.endsNumber, hname, hdot]

theorem takeWhile_isNameRest (h : Breaks rest) : rest.takeWhile isNameRest = [] := by
  cases rest with
  | nil => rfl
  | cons c rest => simp [(h c rfl).1]

theorem fractionOrExponent (h : Breaks rest) : Pattern.fractionOrExponent rest = none := by
  cases rest with
  | nil => rfl
  | cons c rest =>
    obtain ⟨hname, hdot, -⟩ := h c rfl
    have hfraction : Pattern.fraction (c :: rest) = none := by
      unfold Pattern.fraction
      split
      · rename_i heq
        exact absurd (List.cons.inj heq).1 hdot
      · rfl
    have hmark : ¬ (c = 'e' ∨ c = 'E') := by
      rintro (rfl | rfl) <;> exact absurd hname (by decide)
    rw [Pattern.fractionOrExponent, hfraction]
    exact if_neg hmark

/-- A word at the front lies in front of the break. -/
theorem prefix_of_append {w x : List Char} (h : Breaks rest) (hw : w.all isNameRest = true)
    (hfront : w <+: x ++ rest) : w <+: x := by
  rcases List.prefix_or_prefix_of_prefix hfront (List.prefix_append x rest) with hx | hx
  · exact hx
  · obtain ⟨tail, rfl⟩ := hx
    cases tail with
    | nil => simp
    | cons c tail =>
      obtain ⟨more, hmore⟩ := (List.prefix_append_right_inj x).mp hfront
      obtain ⟨hname, -⟩ := h c (by rw [← hmore]; rfl)
      simp [hname] at hw

end Breaks

namespace Pattern

variable {c : Char} {cs : List Char}

theorem name_eq_none (h : isNameStart c = false) : name (c :: cs) = none := by
  simp [name, h]

theorem integerPart_eq_none (hminus : c ≠ '-') (hdigit : isDigit c = false) :
    integerPart (c :: cs) = none := by
  refine Option.eq_none_iff_forall_ne_some.mpr fun n hn => ?_
  obtain ⟨negative, ds, rest, htext, -, hds, -⟩ := integerPart_iff.mp hn
  cases negative with
  | true => exact hminus (List.cons.inj htext).1
  | false =>
    obtain ⟨d, tail, rfl, hd⟩ := hds.head
    obtain rfl := (List.cons.inj htext).1
    rw [hdigit] at hd
    exact nomatch hd

theorem string_eq_none (h : c ≠ '"') : string (c :: cs) = none := by
  unfold string
  split
  · rename_i heq
    exact absurd (List.cons.inj heq).1 h
  · rfl

theorem blockString_eq_none (h : c ≠ '"') : blockString (c :: cs) = none := by
  unfold blockString
  split
  · rename_i heq
    exact absurd (List.cons.inj heq).1 h
  · rfl

theorem word_eq_none {w : String} (h : c ∉ w.toList.head?) (hw : w.toList ≠ []) :
    word w (c :: cs) = none := by
  obtain ⟨d, tail, hd⟩ := List.exists_cons_of_ne_nil hw
  have hne : d ≠ c := by simpa [hd] using h
  simp [word, hd, hne]

end Pattern

/-- A word of fixed letters is no other such word with more behind it. -/
theorem Keyword.eq_of_prefix {j k : Keyword} (h : j.word.toList <+: k.word.toList) : j = k := by
  have hall : ∀ j ∈ Keyword.all, ∀ k ∈ Keyword.all, j.word.toList <+: k.word.toList → j = k := by
    decide
  exact hall j j.mem_all k k.mem_all h

theorem Punctuator.eq_of_prefix {p q : Punctuator} (h : p.word.toList <+: q.word.toList) : p = q := by
  have hall : ∀ p ∈ Punctuator.all, ∀ q ∈ Punctuator.all, p.word.toList <+: q.word.toList → p = q := by
    decide
  exact hall p p.mem_all q q.mem_all h

namespace Match

/-- What the terminals may match, of which one does. -/
theorem first?_eq {wanted : List Terminal} {text : List Char} {m : Match}
    (hnone : ∀ t ∈ wanted, one? wanted text t = none ∨ one? wanted text t = some m)
    (hsome : ∃ t ∈ wanted, one? wanted text t = some m) : first? wanted text = some m := by
  have horder (t : Terminal) : t ∈ order := by
    cases t with
    | keyword k => simp [order, Keyword.mem_all]
    | punctuator p => simp [order, Punctuator.mem_all]
    | _ => decide
  unfold first?
  cases h : (order.filter (· ∈ wanted)).findSome? (one? wanted text) with
  | none =>
    obtain ⟨t, ht, hm⟩ := hsome
    have hnot := List.findSome?_eq_none_iff.mp h t (List.mem_filter.mpr ⟨horder t, by simpa using ht⟩)
    rw [hnot] at hm
    exact hm
  | some m' =>
    obtain ⟨t, ht, hm⟩ := List.exists_of_findSome?_eq_some h
    rcases hnone t (by simpa using (List.mem_filter.mp ht).2) with h' | h'
    · exact nomatch h'.symm.trans hm
    · exact hm.symm.trans h'

end Match

/-- The kinds of terminals that a first character tells apart. -/
inductive Terminal.Kind where
  | word | number | quoted | mark
deriving DecidableEq

def Terminal.Kind.of (c : Char) : Terminal.Kind :=
  if isNameStart c then .word
  else if c = '-' ∨ isDigit c = true then .number
  else if c = '"' then .quoted
  else .mark

def Terminal.kind : Terminal → Terminal.Kind
  | .name | .keyword _ => .word
  | .int | .float => .number
  | .string | .blockString => .quoted
  | .punctuator _ => .mark

namespace Terminal.Kind

theorem of_digit {c : Char} (h : isDigit c = true) : of c = .number := by
  have hstart : isNameStart c = false := by
    simp only [isDigit, Bool.and_eq_true, decide_eq_true_eq] at h
    simp only [isNameStart, Bool.or_eq_false_iff, beq_eq_false_iff_ne, Bool.and_eq_false_iff,
      decide_eq_false_iff_not]
    have hhigh : c.toNat ≤ 57 := h.2
    refine ⟨⟨?_, .inl fun hle => ?_⟩, .inl fun hle => ?_⟩
    · rintro rfl
      exact absurd hhigh (by decide)
    · have hlow : 97 ≤ c.toNat := hle
      omega
    · have hlow : 65 ≤ c.toNat := hle
      omega
  simp [of, hstart, h]

theorem of_keyword {k : Keyword} {c : Char} (h : k.word.toList.head? = some c) : of c = .word := by
  cases k <;> obtain rfl := Option.some.inj h <;> decide

theorem of_punctuator {p : Punctuator} {c : Char} (h : p.word.toList.head? = some c) :
    of c = .mark := by
  cases p <;> obtain rfl := Option.some.inj h <;> decide

end Terminal.Kind

namespace Match

variable {wanted : List Terminal} {c : Char} {cs : List Char}

/-- A terminal matches no text that begins as one of another kind. -/
theorem one?_eq_none {t : Terminal} (h : .of c ≠ t.kind) : one? wanted (c :: cs) t = none := by
  cases t with
  | name =>
    have hc : isNameStart c = false := Bool.eq_false_iff.mpr fun hc => h (if_pos hc)
    simp [one?, Pattern.name_eq_none hc]
  | int | float =>
    have hnumber : Pattern.integerPart (c :: cs) = none := by
      refine Pattern.integerPart_eq_none ?_ (Bool.eq_false_iff.mpr fun hc => h (Terminal.Kind.of_digit hc))
      rintro rfl
      exact h rfl
    simp [one?, Pattern.int, Pattern.float, hnumber]
  | string | blockString =>
    have hc : c ≠ '"' := by
      rintro rfl
      exact h rfl
    simp [one?, Pattern.string_eq_none hc, Pattern.blockString_eq_none hc]
  | keyword k =>
    simp [one?, @Pattern.word_eq_none c cs k.word (fun hc => h (Terminal.Kind.of_keyword hc))
      (by cases k <;> decide)]
  | punctuator p =>
    simp [one?, @Pattern.word_eq_none c cs p.word (fun hc => h (Terminal.Kind.of_punctuator hc))
      (by cases p <;> decide)]

end Match

namespace IsSpelling

variable {wanted : List Terminal} {rest : List Char}

theorem name_append {x : List Char} (hx : isName x = true) (hrest : Breaks rest) :
    Pattern.name (x ++ rest) = some x.length := by
  cases x with
  | nil => exact nomatch hx
  | cons c cs =>
    simp only [isName, Bool.and_eq_true, List.all_eq_true] at hx
    rw [List.cons_append, Pattern.name, if_pos hx.1, List.takeWhile_append_of_pos hx.2,
      hrest.takeWhile_isNameRest, List.append_nil, Nat.add_comm, List.length_cons]

/-- A keyword in front of a break is no other one. -/
theorem word_append {k : Keyword} {x : List Char} (hrest : Breaks rest) :
    Pattern.word k.word (x ++ rest) = if k.word.toList <+: x then some k.word.toList.length else none := by
  by_cases h : k.word.toList <+: x
  · simp [Pattern.word, h, h.trans (List.prefix_append x rest)]
  · have hword : k.word.toList.all isNameRest = true := by cases k <;> decide
    have hnot : ¬ k.word.toList <+: x ++ rest := fun hp => h (hrest.prefix_of_append hword hp)
    simp [Pattern.word, h, hnot]

/-- No punctuator is the front of another, whatever follows. -/
theorem mark_append (p q : Punctuator) (rest : List Char) :
    Pattern.word q.word (p.word.toList ++ rest) =
      if q = p then some p.word.toList.length else none := by
  by_cases hq : q = p
  · subst hq
    simp [Pattern.word]
  · have hfront : ¬ q.word.toList <+: p.word.toList ++ rest := fun hfront =>
      hq ((List.prefix_or_prefix_of_prefix hfront (List.prefix_append _ rest)).elim
        Punctuator.eq_of_prefix fun h => (Punctuator.eq_of_prefix h).symm)
    simp [Pattern.word, hfront, hq]

theorem named_keyword {k : Keyword} (hk : .keyword k ∈ wanted) :
    Match.named wanted (k.word.toList ++ rest) k.word.toList.length =
      ⟨.keyword k, k.word.toList.length⟩ := by
  unfold Match.named
  dsimp only
  rw [List.take_left]
  cases hfind : Keyword.all.find? fun j => .keyword j ∈ wanted && j.word.toList == k.word.toList with
  | none =>
    have hnot := List.find?_eq_none.mp hfind k k.mem_all
    simp [hk] at hnot
  | some j =>
    have hj := List.find?_some hfind
    simp only [Bool.and_eq_true, beq_iff_eq] at hj
    rw [Keyword.eq_of_prefix (j := j) (k := k) (hj.2 ▸ List.prefix_refl _)]
    rfl

theorem named_name {x : List Char} (hx : ∀ k : Keyword, k.word.toList ≠ x) :
    Match.named wanted (x ++ rest) x.length = ⟨.name, x.length⟩ := by
  have hfind : (Keyword.all.find? fun j => .keyword j ∈ wanted && j.word.toList == x) = none :=
    List.find?_eq_none.mpr fun j _ => by simp [hx j]
  unfold Match.named
  dsimp only
  rw [List.take_left, hfind]
  rfl

theorem isName_word (k : Keyword) : isName k.word.toList = true := by
  cases k <;> decide

/-- The kind of a spelling shows in its first character. -/
theorem kind_eq {t : Terminal} {x : List Char} (h : IsSpelling t x) :
    ∃ c cs, x = c :: cs ∧ .of c = t.kind := by
  cases h with
  | @name x isName free =>
    cases x with
    | nil => exact nomatch isName
    | cons c cs =>
      simp only [GraphQLDoc.isName, Bool.and_eq_true] at isName
      exact ⟨c, cs, rfl, if_pos isName.1⟩
  | keyword k => cases k <;> exact ⟨_, _, rfl, by decide⟩
  | punctuator p => cases p <;> exact ⟨_, _, rfl, by decide⟩
  | int negative whole =>
    obtain ⟨d, tail, rfl, hd⟩ := whole.head
    cases negative with
    | true => exact ⟨_, _, rfl, by decide⟩
    | false => exact ⟨_, _, rfl, Terminal.Kind.of_digit hd⟩
  | @float t isFloat =>
    obtain ⟨d, tail, hwhole, hd⟩ := isFloat.whole.head
    unfold NumberText.text
    rw [hwhole]
    cases t.negative with
    | true => exact ⟨_, _, rfl, by decide⟩
    | false => exact ⟨_, _, rfl, Terminal.Kind.of_digit hd⟩
  | @string x quoted whole apart =>
    obtain ⟨cs, rfl⟩ := List.head?_eq_some_iff.mp quoted
    exact ⟨_, cs, rfl, rfl⟩

/-- Nothing at the front of a spelling is passed over. -/
theorem ignoredLength_append {t : Terminal} {x : List Char} (h : IsSpelling t x) :
    ignoredLength false (x ++ rest) = 0 := by
  by_cases ht : t.kind = .mark
  · cases h with
    | punctuator p => cases p <;> rfl
    | _ => exact nomatch ht
  · obtain ⟨c, cs, rfl, hkind⟩ := h.kind_eq
    have hmark (hc : isSeparator c = true ∨ c = '#') : .of c = Terminal.Kind.mark := by
      simp only [isSeparator, Bool.or_eq_true, beq_iff_eq] at hc
      rcases hc with (((((rfl | rfl) | rfl) | rfl) | rfl) | rfl) | rfl <;> decide
    have hseparator : isSeparator c = false :=
      Bool.eq_false_iff.mpr fun hc => ht (hkind.symm.trans (hmark (.inl hc)))
    have hcomment : c ≠ '#' := fun hc => ht (hkind.symm.trans (hmark (.inr hc)))
    simp [ignoredLength, hseparator, hcomment]

theorem int_append {negative : Bool} {ds : List Char} (h : Pattern.IsWhole ds) (hrest : Breaks rest) :
    Pattern.int (Pattern.signText negative ++ ds ++ rest) =
        some (Pattern.signText negative ++ ds).length ∧
      Pattern.float (Pattern.signText negative ++ ds ++ rest) = none := by
  have hends := Pattern.endsDigits_of_endsNumber hrest.endsNumber
  have hinteger : Pattern.integerPart (Pattern.signText negative ++ ds ++ rest) =
      some (Pattern.signText negative ++ ds).length :=
    Pattern.integerPart_iff.mpr ⟨negative, ds, rest, List.append_assoc _ _ _, List.length_append,
      h, .inr hends⟩
  constructor
  · exact Pattern.int_iff.mpr ⟨negative, ds, rest, List.append_assoc _ _ _, List.length_append, h,
      hrest.endsNumber⟩
  · rw [Pattern.float, hinteger, Option.bind_some, List.drop_left, hrest.fractionOrExponent]
    rfl

/-- What makes a number a float begins with a dot or an exponent. -/
theorem fraction_append {t : NumberText} (h : t.IsFloat) :
    ∃ c cs, t.fraction ++ t.power = c :: cs ∧ isDigit c = false ∧ Pattern.endsNumber (c :: cs) = false := by
  by_cases hplaces : t.places = []
  · obtain ⟨e, mark, ds, hpower, he, -⟩ := h.power.resolve_left (h.marked.resolve_left fun h => h hplaces)
    have hnil : t.fraction = [] := by rw [NumberText.fraction, hplaces]; rfl
    refine ⟨e, mark ++ ds, by rw [hnil, hpower]; rfl, ?_⟩
    rcases he with rfl | rfl <;> exact ⟨rfl, rfl⟩
  · refine ⟨'.', t.places ++ t.power, ?_, rfl, rfl⟩
    rw [NumberText.fraction, NumberText.fractionText_of_ne_nil hplaces]
    rfl

/-- A float is no integer, whatever follows it. -/
theorem int_eq_none {t : NumberText} (h : t.IsFloat) (rest : List Char) :
    Pattern.int (t.text ++ rest) = none := by
  obtain ⟨c, cs, hmark, hdigit, hnumber⟩ := fraction_append h
  have htext : t.text ++ rest = Pattern.signText t.negative ++ (t.whole ++ (c :: (cs ++ rest))) := by
    rw [NumberText.text, hmark]
    simp
  have hinteger : Pattern.integerPart (t.text ++ rest) =
      some (Pattern.signText t.negative ++ t.whole).length :=
    Pattern.integerPart_iff.mpr ⟨t.negative, t.whole, c :: (cs ++ rest), htext, List.length_append,
      h.whole, .inr fun d hd => Option.some.inj hd ▸ hdigit⟩
  rw [Pattern.int, hinteger, htext, ← List.append_assoc, Option.filter_some, List.drop_left]
  exact if_neg (Bool.eq_false_iff.mp hnumber)

theorem float_append {t : NumberText} (h : t.IsFloat) (hrest : Breaks rest) :
    Pattern.float (t.text ++ rest) = some t.text.length ∧ Pattern.int (t.text ++ rest) = none :=
  ⟨Pattern.float_iff.mpr ⟨t, rest, rfl, rfl, h, hrest.endsNumber⟩, int_eq_none h rest⟩

/-- A spelling is read as its token where that is wanted, a mark whatever follows it. -/
theorem first?_eq {t : Terminal} {x : List Char} (h : IsSpelling t x)
    (hrest : t.kind ≠ .mark → Breaks rest) (ht : t ∈ wanted) :
    Match.first? wanted (x ++ rest) = some ⟨t, x.length⟩ := by
  obtain ⟨c, cs, hx, hkind⟩ := h.kind_eq
  have hother {u : Terminal} (hu : u.kind ≠ t.kind) : Match.one? wanted (x ++ rest) u = none := by
    rw [hx]
    exact Match.one?_eq_none fun hc => hu (hc.symm.trans hkind)
  -- the terminals of the same kind are left
  suffices hsame : (∀ u, u.kind = t.kind → Match.one? wanted (x ++ rest) u = none ∨
      Match.one? wanted (x ++ rest) u = some ⟨t, x.length⟩) ∧
      ∃ u ∈ wanted, Match.one? wanted (x ++ rest) u = some ⟨t, x.length⟩ from
    Match.first?_eq (fun u _ => (Decidable.em (u.kind = t.kind)).elim (hsame.1 u)
      fun hne => .inl (hother hne)) hsame.2
  cases h with
  | name isName free =>
    have hrest := hrest nofun
    have hname : Match.one? wanted (x ++ rest) .name = some ⟨.name, x.length⟩ := by
      simp [Match.one?, name_append isName hrest, named_name free]
    refine ⟨fun u hu => ?_, .name, ht, hname⟩
    cases u with
    | name => exact .inr hname
    | keyword k => exact .inl (if_pos ht)
    | _ => exact nomatch hu
  | keyword k =>
    have hrest := hrest nofun
    have hname : Match.one? wanted (k.word.toList ++ rest) .name =
        some ⟨.keyword k, k.word.toList.length⟩ := by
      simp [Match.one?, name_append (isName_word k) hrest, named_keyword ht]
    have hword (j : Keyword) : Match.one? wanted (k.word.toList ++ rest) (.keyword j) =
        if .name ∉ wanted ∧ j = k then some ⟨.keyword k, k.word.toList.length⟩ else none := by
      have hfront : j.word.toList <+: k.word.toList ↔ j = k :=
        ⟨Keyword.eq_of_prefix, fun h => h ▸ List.prefix_refl _⟩
      by_cases hwanted : .name ∈ wanted
      · simp [Match.one?, hwanted]
      · by_cases hj : j = k
        · subst hj
          simp [Match.one?, hwanted, Pattern.word]
        · simp [Match.one?, hwanted, word_append hrest, hfront, hj]
    refine ⟨fun u hu => ?_, ?_⟩
    · cases u with
      | name => exact .inr hname
      | keyword j =>
        rw [hword]
        split
        · exact .inr rfl
        · exact .inl rfl
      | _ => exact nomatch hu
    · by_cases hwanted : .name ∈ wanted
      · exact ⟨.name, hwanted, hname⟩
      · exact ⟨.keyword k, ht, by rw [hword, if_pos ⟨hwanted, rfl⟩]⟩
  | punctuator p =>
    have hmark (q : Punctuator) : Match.one? wanted (p.word.toList ++ rest) (.punctuator q) =
        if q = p then some ⟨.punctuator p, p.word.toList.length⟩ else none := by
      rw [Match.one?, mark_append]
      split <;> simp_all
    refine ⟨fun u hu => ?_, .punctuator p, ht, by rw [hmark, if_pos rfl]⟩
    cases u with
    | punctuator q =>
      rw [hmark]
      split
      · exact .inr rfl
      · exact .inl rfl
    | _ => exact nomatch hu
  | int negative whole =>
    have hrest := hrest nofun
    obtain ⟨hint, hfloat⟩ := @int_append rest negative _ whole hrest
    have hone : Match.one? wanted _ .int = some _ := congrArg (Option.map _) hint
    refine ⟨fun u hu => ?_, .int, ht, hone⟩
    cases u with
    | int => exact .inr hone
    | float => exact .inl (congrArg (Option.map _) hfloat)
    | _ => exact nomatch hu
  | float isFloat =>
    have hrest := hrest nofun
    obtain ⟨hfloat, hint⟩ := float_append isFloat hrest
    have hone : Match.one? wanted _ .float = some _ := congrArg (Option.map _) hfloat
    refine ⟨fun u hu => ?_, .float, ht, hone⟩
    cases u with
    | int => exact .inl (congrArg (Option.map _) hint)
    | float => exact .inr hone
    | _ => exact nomatch hu
  | string quoted whole apart =>
    have hrest := hrest nofun
    have hone : Match.one? wanted _ .string = some _ := congrArg (Option.map _) (whole rest)
    refine ⟨fun u hu => ?_, .string, ht, hone⟩
    cases u with
    | string => exact .inr hone
    | blockString => exact .inl (congrArg (Option.map _) (apart rest hrest))
    | _ => exact nomatch hu

end IsSpelling

end GraphQLDoc
