import GraphQLDoc.Conversion.Cursor

/-!
What conversions give, and what walks over children read. A walk is given the tags of the children
that it reads; it stops in front of other tags, so walks with different tags can follow one another.
The errors that may occur are a parameter.
-/
namespace GraphQLDoc

section

variable {E : ConversionError → Prop} {α β : Type}

/-- A conversion gives a value with a property, or an error that is allowed. -/
def Gives (E : ConversionError → Prop) (P : α → Prop) : Converted α → Prop
  | .ok a => P a
  | .error e => E e

namespace Gives

theorem bind {P : α → Prop} {Q : β → Prop} {r : Converted α} {k : α → Converted β}
    (h : Gives E P r) (hk : ∀ a, P a → Gives E Q (k a)) : Gives E Q (r >>= k) := by
  cases r with
  | ok a => exact hk a h
  | error e => exact h

theorem map {P : α → Prop} {Q : β → Prop} {r : Converted α} {f : α → β} (h : Gives E P r)
    (hf : ∀ a, P a → Q (f a)) : Gives E Q (r.map f) := by
  cases r with
  | ok a => exact hf a h
  | error e => exact h

theorem mono {P Q : α → Prop} {r : Converted α} (h : Gives E P r) (hPQ : ∀ a, P a → Q a) :
    Gives E Q r := by
  cases r with
  | ok a => exact hPQ a h
  | error e => exact h

@[simp] theorem pure_iff {P : α → Prop} {a : α} : Gives E P (pure a) ↔ P a := Iff.rfl

theorem of_eq_ok {P : α → Prop} {r : Converted α} (h : Gives E P r) {a : α} (ha : r = .ok a) :
    P a := by
  subst ha
  exact h

/-- Where no error is allowed there is a value. -/
theorem eq_ok {a : α} {r : Converted α} (h : Gives (fun _ => False) (· = a) r) : r = .ok a := by
  cases r with
  | ok b => exact congrArg Except.ok h
  | error e => exact h.elim

theorem mapM {P : α → Prop} {convert : ParseTree → Converted α} {ts : List ParseTree}
    (h : ∀ t ∈ ts, Gives E P (convert t)) :
    Gives E (fun as => as.length = ts.length ∧ ∀ a ∈ as, P a) (ts.mapM convert) := by
  induction ts with
  | nil => exact ⟨rfl, nofun⟩
  | cons t ts ih =>
    obtain ⟨ht, hts⟩ := List.forall_mem_cons.mp h
    rw [List.mapM_cons]
    exact ht.bind fun a ha => (ih hts).bind fun as has =>
      ⟨congrArg (· + 1) has.1, List.forall_mem_cons.mpr ⟨ha, has.2⟩⟩

/-- A conversion inside nested calls. -/
theorem nestedIn [Machine] {P : α → Prop} {n : Nat} {convert : Machine → Converted α}
    (hdeep : Machine.calls < n → E .tooDeep)
    (h : n ≤ Machine.calls → Gives E P (convert (Machine.inside n))) :
    Gives E P (nestedIn n convert) := by
  unfold GraphQLDoc.nestedIn Machine.enter?
  by_cases hn : n ≤ Machine.calls
  · rw [if_pos hn]
    exact h hn
  · rw [if_neg hn]
    exact hdeep (Nat.lt_of_not_le hn)

end Gives

/-- A walk gives a value with a property and ends at a place. -/
def Reaches (E : ConversionError → Prop) (P : α → Prop) (d : Cursor) :
    Converted (α × Cursor) → Prop
  | .ok (a, e) => P a ∧ e = d
  | .error e => E e

namespace Reaches

variable {P : α → Prop} {c d : Cursor}

theorem step {Q : β → Prop} {w : Walk α} {k : α → Walk β} {e : Cursor}
    (h : Reaches E P d (w c)) (hk : ∀ a, P a → Reaches E Q e (k a d)) :
    Reaches E Q e ((w >>= k) c) := by
  show Reaches E Q e (Except.bind (w c) fun x => k x.1 x.2)
  cases hw : w c with
  | error x => rw [hw] at h; exact h
  | ok x =>
    rw [hw] at h
    obtain ⟨ha, rfl⟩ := h
    exact hk x.1 ha

theorem mono {P' : α → Prop} {r : Converted (α × Cursor)} (h : Reaches E P d r)
    (hP : ∀ a, P a → P' a) : Reaches E P' d r := by
  cases r with
  | error x => exact h
  | ok x => exact ⟨hP _ h.1, h.2⟩

theorem lift {r : Converted α} (h : Gives E P r) : Reaches E P c (Walk.lift r c) := by
  cases r with
  | error x => exact h
  | ok x => exact ⟨h, rfl⟩

/-- A conversion that goes on with the cursor in hand. -/
theorem bind {Q : β → Prop} {r : Converted (α × Cursor)} {f : α × Cursor → Converted β}
    (h : Reaches E P d r) (hf : ∀ a, P a → Gives E Q (f (a, d))) : Gives E Q (r >>= f) := by
  cases r with
  | error x => exact h
  | ok x =>
    obtain ⟨ha, rfl⟩ := h
    exact hf x.1 ha

theorem value {r : Converted (α × Cursor)} (h : Reaches E P d r) :
    Gives E P (r.map (·.1)) := by
  cases r with
  | error x => exact h
  | ok x => exact h.1

end Reaches

theorem gives_checkNames {fields : List (String × String)} {P : Unit → Prop} (hP : P ())
    (h : ∀ f ∈ fields, isName f.2.toList = true) : Gives E P (checkNames fields) := by
  unfold checkNames
  split
  · exact hP
  · rename_i hwrong
    refine absurd (List.filter_eq_nil_iff.mpr fun f hf => ?_) hwrong
    simpa using h f hf

/-- The trees have one of the tags. -/
def Tagged (tags : List String) (ts : List ParseTree) : Prop := ∀ t ∈ ts, t.tag ∈ tags

theorem Tagged.append {tags₁ tags₂ : List String} {ts₁ ts₂ : List ParseTree}
    (h₁ : Tagged tags₁ ts₁) (h₂ : Tagged tags₂ ts₂) :
    Tagged (tags₁ ++ tags₂) (ts₁ ++ ts₂) := by
  intro t ht
  rcases List.mem_append.mp ht with ht | ht
  · exact List.mem_append_left _ (h₁ t ht)
  · exact List.mem_append_right _ (h₂ t ht)

namespace Cursor

/-- Behind trees that have been read. -/
def past (c : Cursor) (ts rest : List ParseTree) : Cursor :=
  { c with read := c.read + ts.length, rest := rest }

theorem past_nil {c : Cursor} {rest : List ParseTree} (h : c.rest = rest) :
    c.past [] rest = c := by
  subst h
  rfl

end Cursor

namespace Walk

/-- The walk reads the trees and stops in front of other tags. -/
def Runs (E : ConversionError → Prop) (w : Walk α) (tags : List String) (ts : List ParseTree)
    (P : α → Prop) : Prop :=
  ∀ (c : Cursor) (rest : List ParseTree), c.rest = ts ++ rest → (∀ t ∈ rest, t.tag ∉ tags) →
    Reaches E P (c.past ts rest) (w c)

/-- The walk reads the trees, which are the last ones. -/
def Ends (E : ConversionError → Prop) (w : Walk α) (ts : List ParseTree) (P : α → Prop) : Prop :=
  ∀ c : Cursor, c.rest = ts → Reaches E P (c.past ts []) (w c)

variable {w : Walk α} {k : α → Walk β} {tags : List String} {ts ts₁ ts₂ : List ParseTree}
  {P : α → Prop} {Q : β → Prop}

namespace Runs

theorem mono {P' : α → Prop} (h : Runs E w tags ts P) (hP : ∀ a, P a → P' a) :
    Runs E w tags ts P' :=
  fun c rest hc hrest => (h c rest hc hrest).mono hP

/-- What is done behind the last walk leaves the children alone. -/
theorem andThen (h : Runs E w tags ts P) (hk : ∀ a c, P a → Reaches E Q c (k a c)) :
    Runs E (w >>= k) tags ts Q :=
  fun c rest hc hrest => (h c rest hc hrest).step fun a ha => hk a _ ha

theorem ends (h : Runs E w tags ts P) : Ends E w ts P :=
  fun c hc => h c [] (hc.trans (List.append_nil ts).symm) nofun

/-- One walk after the other, in front of other tags than its own. -/
theorem bind (h : Runs E w tags ts₁ P) (hk : ∀ a, P a → Ends E (k a) ts₂ Q)
    (hd : ∀ t ∈ ts₂, t.tag ∉ tags) : Ends E (w >>= k) (ts₁ ++ ts₂) Q := by
  intro c hc
  refine (h c ts₂ hc hd).step fun a ha => ?_
  have hpast : c.past (ts₁ ++ ts₂) [] = (c.past ts₁ ts₂).past ts₂ [] := by
    simp only [Cursor.past, List.length_append, Nat.add_assoc]
  rw [hpast]
  exact hk a ha _ rfl

end Runs

namespace Ends

theorem mono {P' : α → Prop} (h : Ends E w ts P) (hP : ∀ a, P a → P' a) : Ends E w ts P' :=
  fun c hc => (h c hc).mono hP

theorem pure {b : β} (h : Q b) : Ends E (Pure.pure b : Walk β) [] Q :=
  fun _ hc => ⟨h, (Cursor.past_nil hc).symm⟩

theorem lift {r : Converted α} (h : Gives E P r) (hk : ∀ a, P a → Ends E (k a) ts Q) :
    Ends E (Walk.lift r >>= k) ts Q :=
  fun c hc => (Reaches.lift h).step fun a ha => hk a ha c hc

theorem lifted {r : Converted α} (h : Gives E P r) : Ends E (Walk.lift r) [] P := by
  intro c hc
  rw [Cursor.past_nil hc]
  exact .lift h

/-- A walk that looks at what comes first. -/
theorem get {k : Cursor → Walk β} (h : ∀ c : Cursor, c.rest = ts → Ends E (k c) ts Q) :
    Ends E (get >>= k) ts Q :=
  fun c hc => h c hc c hc

end Ends

theorem runs_next {wanted : List String} {t : ParseTree} (ht : t.tag ∈ wanted) :
    Runs E (Walk.next wanted) tags [t] (· = t) := by
  intro c rest hc _
  simp only [Walk.next, Cursor.next, hc, List.cons_append, List.nil_append, ht, if_true]
  exact ⟨rfl, rfl⟩

/-- An optional child. -/
theorem runs_optional {o : Option ParseTree} {tag : String} (ho : ∀ t ∈ o, t.tag = tag) :
    Runs E (Walk.optional tag) [tag] o.toList (· = o) := by
  intro c rest hc hrest
  cases o with
  | none =>
    have hc : c.rest = rest := hc
    have hnone : c.optional tag = (none, c) := by
      cases rest with
      | nil => simp [Cursor.optional, hc]
      | cons t rest =>
        have ht : t.tag ≠ tag := by simpa using hrest t List.mem_cons_self
        simp [Cursor.optional, hc, ht]
    exact ⟨congrArg Prod.fst hnone, (congrArg Prod.snd hnone).trans (Cursor.past_nil hc).symm⟩
  | some t =>
    have ht : t.tag = tag := ho t rfl
    have hc : c.rest = t :: rest := hc
    have hsome : c.optional tag = (some t, c.past [t] rest) := by
      simp [Cursor.optional, hc, ht, Cursor.past]
    exact ⟨congrArg Prod.fst hsome, congrArg Prod.snd hsome⟩

theorem takeWhile_tagged {rest : List ParseTree} (h : Tagged tags ts)
    (hrest : ∀ t ∈ rest, t.tag ∉ tags) : (ts ++ rest).takeWhile (·.tag ∈ tags) = ts := by
  induction ts with
  | nil =>
    cases rest with
    | nil => rfl
    | cons t rest => simp [hrest t List.mem_cons_self]
  | cons t ts ih =>
    obtain ⟨ht, hts⟩ := List.forall_mem_cons.mp h
    simp [ht, ih hts]

theorem runs_repeated (h : Tagged tags ts) : Runs E (Walk.repeated tags) tags ts (· = ts) := by
  intro c rest hc hrest
  have htaken := takeWhile_tagged h hrest
  have hall : c.repeated tags = (ts, c.past ts rest) := by
    simp [Cursor.repeated, hc, htaken, Cursor.past]
  exact ⟨congrArg Prod.fst hall, congrArg Prod.snd hall⟩

end Walk

/-- A walk over all children of a node. -/
theorem gives_whole {rule : String} {span : Option Span} {ts : List ParseTree} {w : Walk α}
    {P : α → Prop} (h : w.Ends E ts P) : Gives E P ((ParseTree.rule rule span ts).whole rule w) := by
  have hrun := h ⟨rule, span, 0, ts⟩ rfl
  have henter : Cursor.enter rule (.rule rule span ts) = .ok ⟨rule, span, 0, ts⟩ := by
    simp [Cursor.enter]
  unfold ParseTree.whole ParseTree.within
  rw [henter]
  refine Gives.bind (P := (· = _)) rfl fun c hc => ?_
  subst hc
  have hfinish : Reaches E P (Cursor.past ⟨rule, span, 0, ts⟩ ts [])
      ((do let a ← w; Walk.finish; return a : Walk α) ⟨rule, span, 0, ts⟩) :=
    hrun.step fun a ha => ⟨ha, rfl⟩
  exact hfinish.value

/-- A node for a name: its only child is the token of the name. -/
def IsNameNode (rule : String) (P : String → Prop) (t : ParseTree) : Prop :=
  ∃ span tag text textSpan, t = .rule rule span [.token tag text textSpan] ∧ P text

namespace Walk

variable {P : α → Prop}

theorem runs_nameOf {rule : String} {P : String → Prop} {tags : List String} {t : ParseTree}
    (h : IsNameNode rule P t) : (Walk.nameOf rule).Runs E tags [t] P := by
  obtain ⟨span, tag, text, textSpan, rfl, hP⟩ := h
  have ht : (ParseTree.rule rule span [.token tag text textSpan]).tag ∈ [rule] :=
    List.mem_singleton_self rule
  refine (runs_next ht).andThen fun u c hu => ?_
  subst hu
  exact ⟨hP, rfl⟩

/-- A clause that is left out, or a node that is converted. -/
theorem runs_node? {rule : String} {convert : ParseTree → Converted α} {o : Option ParseTree}
    {P : Option α → Prop} (hnone : o = none → P none)
    (hsome : ∀ t ∈ o, t.tag = rule ∧ Gives E (fun a => P (some a)) (convert t)) :
    Runs E (do
      match ← optional rule with
      | none => return none
      | some t =>
        let a ← lift (convert t)
        return some a) [rule] o.toList P := by
  refine (runs_optional fun t ht => (hsome t ht).1).andThen fun t c ht => ?_
  subst ht
  cases t with
  | none => exact ⟨hnone rfl, rfl⟩
  | some t => exact (Reaches.lift (hsome t rfl).2).step fun a ha => ⟨ha, rfl⟩

/-- The items of a node of a list. -/
theorem gives_items {rule item : String} {convert : ParseTree → Converted α}
    {span : Option Span} {items : List ParseTree} {P : List α → Prop}
    (hitems : Tagged [item] items) (h : Gives E P (items.mapM convert)) :
    Gives E P ((ParseTree.rule rule span items).whole rule do
      let children ← repeated [item]
      lift (children.mapM convert)) :=
  gives_whole ((runs_repeated hitems).andThen fun _ _ hchildren => .lift (hchildren ▸ h)).ends

theorem runs_clause {rule item : String} {convert : ParseTree → Converted α} {o : Option ParseTree}
    {P : List α → Prop} (hnone : o = none → P [])
    (hsome : ∀ t ∈ o, ∃ span items, t = .rule rule span items ∧ Tagged [item] items ∧
      Gives E P (items.mapM convert)) :
    (clause rule item convert).Runs E [rule] o.toList P := by
  have h : (clause? rule item convert).Runs E [rule] o.toList (fun as => P (as.getD [])) := by
    refine runs_node? hnone fun t ht => ?_
    obtain ⟨span, items, rfl, hitems, h⟩ := hsome t ht
    exact ⟨rfl, gives_items hitems h⟩
  exact h.andThen fun as _ has => ⟨has, rfl⟩

end Walk

end

end GraphQLDoc
