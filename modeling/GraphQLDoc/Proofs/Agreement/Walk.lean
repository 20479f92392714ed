import GraphQLDoc.Conversion.TypeSystem
import GraphQLDoc.Proofs.ParseTree.Alike

/-!
Conversions of trees that are alike. A conversion looks neither at spans nor at how a block string is
written, so trees that are alike give the same result, or the same error at another place.
-/
namespace GraphQLDoc

/-- The error without its place. -/
def ConversionError.unplaced : ConversionError → ConversionError
  | .shape p _ => .shape p none
  | .literal p _ => .literal p none
  | e => e

/-- Results in a relation, or the same error up to its place. -/
def Agree {α β : Type} (R : α → β → Prop) : Converted α → Converted β → Prop
  | .ok a, .ok b => R a b
  | .error e, .error f => e.unplaced = f.unplaced
  | _, _ => False

namespace Agree

variable {α β γ δ : Type} {R : α → β → Prop} {S : γ → δ → Prop}

theorem pure {a : α} {b : β} (h : R a b) : Agree R (Pure.pure a) (Pure.pure b) := h

theorem error {e f : ConversionError} (h : e.unplaced = f.unplaced) :
    Agree R (.error e) (.error f) := h

theorem bind {r : Converted α} {s : Converted β} {k : α → Converted γ} {l : β → Converted δ}
    (h : Agree R r s) (hk : ∀ a b, R a b → Agree S (k a) (l b)) : Agree S (r >>= k) (s >>= l) := by
  cases r <;> cases s
  case ok.ok a b => exact hk a b h
  case error.error => exact h
  all_goals exact h.elim

theorem map {r : Converted α} {s : Converted β} {f : α → γ} {g : β → δ} (h : Agree R r s)
    (hf : ∀ a b, R a b → S (f a) (g b)) : Agree S (r.map f) (s.map g) := by
  cases r <;> cases s
  case ok.ok a b => exact hf a b h
  case error.error => exact h
  all_goals exact h.elim

theorem mono {R' : α → β → Prop} {r : Converted α} {s : Converted β} (h : Agree R r s)
    (hR : ∀ a b, R a b → R' a b) : Agree R' r s := by
  cases r <;> cases s
  case ok.ok a b => exact hR a b h
  case error.error => exact h
  all_goals exact h.elim

/-- What does not depend on the trees agrees with itself. -/
theorem refl (r : Converted α) : Agree (· = ·) r r := by
  cases r <;> rfl

/-- Inside nested calls, or where there are no more. -/
theorem nestedIn [Machine] {n : Nat} {convert : Machine → Converted α}
    {convert' : Machine → Converted β} (h : ∀ inner, Agree R (convert inner) (convert' inner)) :
    Agree R (nestedIn n convert) (nestedIn n convert') := by
  unfold GraphQLDoc.nestedIn
  split
  · exact .error rfl
  · exact h _

theorem mapM {convert : ParseTree → Converted α} {convert' : ParseTree → Converted β}
    {ts us : List ParseTree} (h : List.Forall₂ ParseTree.Alike ts us)
    (hconvert : ∀ t u, t.Alike u → Agree R (convert t) (convert' u)) :
    Agree (List.Forall₂ R) (ts.mapM convert) (us.mapM convert') := by
  induction h with
  | nil => exact .nil
  | cons htu _ ih =>
    rw [List.mapM_cons, List.mapM_cons]
    exact (hconvert _ _ htu).bind fun a b hab => ih.bind fun as bs habs => .cons hab habs

theorem foldlM {f : α → ParseTree → Converted α} {ts us : List ParseTree}
    (h : List.Forall₂ ParseTree.Alike ts us)
    (hf : ∀ a t u, t.Alike u → Agree (· = ·) (f a t) (f a u)) (a : α) :
    Agree (· = ·) (ts.foldlM f a) (us.foldlM f a) := by
  induction h generalizing a with
  | nil => rfl
  | cons htu _ ih =>
    rw [List.foldlM_cons, List.foldlM_cons]
    exact (hf a _ _ htu).bind fun b c hbc => hbc ▸ ih b

end Agree

/-- Cursors in front of trees that are alike. -/
structure Cursor.Alike (c d : Cursor) : Prop where
  rule : c.rule = d.rule
  read : c.read = d.read
  rest : List.Forall₂ ParseTree.Alike c.rest d.rest

/-- Walks that agree in front of trees that are alike, and stop there again. -/
def Walk.Agrees {α β : Type} (R : α → β → Prop) (w : Walk α) (v : Walk β) : Prop :=
  ∀ c d : Cursor, c.Alike d → Agree (fun x y => R x.1 y.1 ∧ x.2.Alike y.2) (w c) (v d)

/-- Trees that are alike, and have one of the tags. -/
def ParseTree.AlikeIn (tags : List String) (t u : ParseTree) : Prop := t.Alike u ∧ t.tag ∈ tags

namespace Cursor.Alike

variable {c d : Cursor}

theorem peek_eq (h : c.Alike d) : c.peek = d.peek := by
  obtain ⟨rule, span, read, ts⟩ := c
  obtain ⟨rule', span', read', us⟩ := d
  cases h.rest with
  | nil => rfl
  | cons htu _ => exact congrArg some htu.tag_eq

theorem next (h : c.Alike d) (tags : List String) :
    Agree (fun x y => x.1.AlikeIn tags y.1 ∧ x.2.Alike y.2) (c.next tags) (d.next tags) := by
  obtain ⟨rule, span, read, ts⟩ := c
  obtain ⟨rule', span', read', us⟩ := d
  obtain ⟨hrule, hread, hrest⟩ := h
  obtain rfl : rule = rule' := hrule
  obtain rfl : read = read' := hread
  cases hrest with
  | nil => rfl
  | @cons t u ts us htu hrest =>
    simp only [Cursor.next, ← htu.tag_eq]
    split
    · rename_i htag
      exact ⟨⟨htu, htag⟩, rfl, rfl, hrest⟩
    · rfl

theorem finish (h : c.Alike d) : Agree (· = ·) c.finish d.finish := by
  unfold Cursor.finish
  rw [h.peek_eq, h.rule]
  split <;> rfl

theorem optional (h : c.Alike d) (tag : String) :
    Option.Rel (ParseTree.AlikeIn [tag]) (c.optional tag).1 (d.optional tag).1 ∧
      (c.optional tag).2.Alike (d.optional tag).2 := by
  obtain ⟨rule, span, read, ts⟩ := c
  obtain ⟨rule', span', read', us⟩ := d
  obtain ⟨hrule, hread, hrest⟩ := h
  obtain rfl : rule = rule' := hrule
  obtain rfl : read = read' := hread
  cases hrest with
  | nil => exact ⟨.none, rfl, rfl, .nil⟩
  | @cons t u ts us htu hrest =>
    simp only [Cursor.optional, ← htu.tag_eq]
    split
    · rename_i htag
      exact ⟨.some ⟨htu, by simp [htag]⟩, rfl, rfl, hrest⟩
    · exact ⟨.none, rfl, rfl, .cons htu hrest⟩

theorem takeWhile {ts us : List ParseTree} (h : List.Forall₂ ParseTree.Alike ts us)
    (tags : List String) : List.Forall₂ ParseTree.Alike (ts.takeWhile (·.tag ∈ tags))
      (us.takeWhile (·.tag ∈ tags)) := by
  induction h with
  | nil => exact .nil
  | cons htu _ ih =>
    simp only [List.takeWhile_cons, ← htu.tag_eq]
    split
    · exact .cons htu ih
    · exact .nil

theorem repeated (h : c.Alike d) (tags : List String) :
    List.Forall₂ ParseTree.Alike (c.repeated tags).1 (d.repeated tags).1 ∧
      (c.repeated tags).2.Alike (d.repeated tags).2 := by
  have htaken := takeWhile h.rest tags
  refine ⟨htaken, h.rule, ?_, ?_⟩
  · simp only [Cursor.repeated, h.read, htaken.length_eq]
  · simp only [Cursor.repeated, htaken.length_eq]
    exact List.forall₂_drop _ h.rest

end Cursor.Alike

namespace Walk.Agrees

variable {α β γ δ : Type} {R : α → β → Prop} {S : γ → δ → Prop}

theorem bind {w : Walk α} {v : Walk β} {k : α → Walk γ} {l : β → Walk δ} (h : Agrees R w v)
    (hk : ∀ a b, R a b → Agrees S (k a) (l b)) : Agrees S (w >>= k) (v >>= l) :=
  fun c d hcd => (h c d hcd).bind fun x y hxy => hk x.1 y.1 hxy.1 x.2 y.2 hxy.2

theorem pure {a : α} {b : β} (h : R a b) : Agrees R (Pure.pure a) (Pure.pure b) :=
  fun _ _ hcd => ⟨h, hcd⟩

theorem lift {r : Converted α} {s : Converted β} (h : Agree R r s) :
    Agrees R (Walk.lift r) (Walk.lift s) :=
  fun _ _ hcd => h.map fun _ _ hab => ⟨hab, hcd⟩

theorem next (tags : List String) :
    Agrees (ParseTree.AlikeIn tags) (Walk.next tags) (Walk.next tags) :=
  fun _ _ hcd => hcd.next tags

theorem optional (tag : String) :
    Agrees (Option.Rel (ParseTree.AlikeIn [tag])) (Walk.optional tag) (Walk.optional tag) :=
  fun _ _ hcd => hcd.optional tag

theorem repeated (tags : List String) :
    Agrees (List.Forall₂ ParseTree.Alike) (Walk.repeated tags) (Walk.repeated tags) :=
  fun _ _ hcd => hcd.repeated tags

theorem finish : Agrees (· = ·) Walk.finish Walk.finish :=
  fun _ _ hcd => hcd.finish.map fun _ _ h => ⟨h, hcd⟩

end Walk.Agrees

namespace ParseTree

variable {α β : Type} {R : α → β → Prop} {t u : ParseTree}

theorem Alike.enter (h : t.Alike u) (rule : String) :
    Agree Cursor.Alike (Cursor.enter rule t) (Cursor.enter rule u) := by
  cases h with
  | token => rfl
  | rule tag span span' names h =>
    simp only [Cursor.enter]
    split
    · exact ⟨rfl, rfl, h⟩
    · rfl

theorem Alike.within (h : t.Alike u) (rule : String) {w : Walk α} {v : Walk β}
    (hw : w.Agrees R v) : Agree R (t.within rule w) (u.within rule v) :=
  (h.enter rule).bind fun c d hcd => (hw c d hcd).bind fun _ _ hxy => .pure hxy.1

theorem Alike.whole (h : t.Alike u) (rule : String) {w : Walk α} {v : Walk β}
    (hw : w.Agrees R v) : Agree R (t.whole rule w) (u.whole rule v) :=
  h.within rule (hw.bind fun _ _ hab => Walk.Agrees.finish.bind fun _ _ _ => .pure hab)

/-- The tokens of names are the same text. -/
theorem AlikeIn.nameToken {rule : String} (h : t.AlikeIn [rule] u) (hrule : rule ∈ nameTags) :
    Agree (fun x y => x.1 = y.1) (t.nameToken rule) (u.nameToken rule) := by
  obtain ⟨h, htag⟩ := h
  obtain rfl := List.mem_singleton.mp htag
  cases h with
  | token => rfl
  | rule tag span span' names h =>
    have hnames := names hrule
    unfold ParseTree.nameToken
    cases h with
    | nil => rfl
    | cons htu hrest =>
      cases hrest with
      | cons _ _ => cases htu <;> rfl
      | nil =>
        cases htu with
        | rule => rfl
        | token tag' _ _ htext =>
          rcases htext with rfl | ⟨rfl, -⟩
          · rfl
          · exact absurd rfl (hnames _ List.mem_cons_self)

end ParseTree

section

variable {α β : Type}

/-- The same result, or the same error at another place, for trees that are alike. -/
def SameOnAlike (f : ParseTree → Converted α) : Prop :=
  ∀ t u : ParseTree, t.Alike u → Agree (· = ·) (f t) (f u)

namespace Agree

theorem bindEq {r s : Converted α} {k l : α → Converted β} (h : Agree (· = ·) r s)
    (hk : ∀ a, Agree (· = ·) (k a) (l a)) : Agree (· = ·) (r >>= k) (s >>= l) :=
  h.bind fun a _ hab => hab ▸ hk a

theorem mapEq {r s : Converted α} {f : α → β} (h : Agree (· = ·) r s) :
    Agree (· = ·) (r.map f) (s.map f) :=
  h.map fun _ _ hab => congrArg f hab

end Agree

namespace Walk

/-- The same result from places that are alike. -/
abbrev Same (w : Walk α) : Prop := w.Agrees (· = ·) w

namespace Same

theorem bind {w : Walk α} {k : α → Walk β} (h : w.Same) (hk : ∀ a, (k a).Same) :
    (w >>= k).Same :=
  Agrees.bind h fun a _ hab => hab ▸ hk a

theorem pure (a : α) : Same (Pure.pure a) := Agrees.pure rfl

/-- The next child is read and converted. -/
theorem next {tags : List String} {k : ParseTree → Walk β}
    (hk : ∀ t u, t.AlikeIn tags u → Agrees (· = ·) (k t) (k u)) : (Walk.next tags >>= k).Same :=
  Agrees.bind (.next tags) hk

theorem nameOf {rule : String} (hrule : rule ∈ ParseTree.nameTags) : (Walk.nameOf rule).Same :=
  next fun _ _ htu => Agrees.bind (.lift (htu.nameToken hrule)) fun x y hxy => by
    obtain ⟨text, span⟩ := x
    obtain ⟨text', span'⟩ := y
    exact .pure hxy

theorem name : Walk.name.Same := nameOf (by decide)

/-- A walk that looks at what comes first. -/
theorem get {k : Cursor → Walk β} (hk : ∀ c d, c.Alike d → Agrees (· = ·) (k c) (k d)) :
    (get >>= k).Same :=
  fun c d hcd => hk c d hcd c d hcd

/-- A clause that may be left out. -/
theorem node? {tag : String} {k : Option ParseTree → Walk β} (hnone : (k none).Same)
    (hsome : ∀ t u, t.AlikeIn [tag] u → Agrees (· = ·) (k (some t)) (k (some u))) :
    (Walk.optional tag >>= k).Same :=
  Agrees.bind (.optional tag) fun o p hop => by
    cases hop with
    | none => exact hnone
    | some htu => exact hsome _ _ htu

theorem clause? (rule item : String) {convert : ParseTree → Converted α}
    (h : SameOnAlike convert) : (Walk.clause? rule item convert).Same := by
  refine node? (pure none) fun t u htu => ?_
  refine .bind (.lift (R := (· = ·)) ?_) fun as bs hab => .pure (congrArg some hab)
  refine htu.1.whole rule (.bind (.repeated [item]) fun ts us h' => .lift ?_)
  exact (Agree.mapM h' h).mono fun as bs hab => by rwa [List.forall₂_eq_eq_eq] at hab

theorem clause (rule item : String) {convert : ParseTree → Converted α}
    (h : SameOnAlike convert) : (Walk.clause rule item convert).Same :=
  bind (clause? rule item h) fun _ => pure _

end Same

end Walk

theorem ParseTree.Alike.wholeSame {t u : ParseTree} (h : t.Alike u) (rule : String) {w : Walk α}
    (hw : w.Same) : Agree (· = ·) (t.whole rule w) (u.whole rule w) :=
  h.whole rule hw

/-- A conversion of a node for itself, with a check of its result. -/
theorem SameOnAlike.whole {rule : String} {w : Walk α} (hw : w.Same) {k : α → Converted β} :
    SameOnAlike fun t => t.whole rule w >>= k :=
  fun _ _ htu => (htu.whole rule hw).bindEq fun a => .refl (k a)

/-- A token that is no block string has the same text. -/
theorem ParseTree.AlikeIn.onToken {tags : List String} {t u : ParseTree} {f : ParseTree → Converted α}
    (h : t.AlikeIn tags u) (htags : "BLOCK_STRING" ∉ tags)
    (htoken : ∀ tag text span span',
      Agree (· = ·) (f (.token tag text span)) (f (.token tag text span')))
    (hrule : ∀ tag span span' ts us, Agree (· = ·) (f (.rule tag span ts)) (f (.rule tag span' us))) :
    Agree (· = ·) (f t) (f u) := by
  obtain ⟨h, htag⟩ := h
  cases h with
  | token tag span span' htext =>
    rcases htext with rfl | ⟨rfl, -⟩
    · exact htoken _ _ _ _
    · exact absurd htag htags
  | rule tag span span' names h => exact hrule _ _ _ _ _

/-- What becomes of the result does not matter. -/
theorem SameOnAlike.map {f : ParseTree → Converted α} (h : SameOnAlike f) (g : α → β) :
    SameOnAlike fun t => (f t).map g :=
  fun t u htu => (h t u htu).mapEq

end

end GraphQLDoc
