import GraphQLDoc.Proofs.Faults.Basic
import GraphQLDoc.Proofs.Leaves.Walk

/-!
Walks that find the faults of what they read: they pass only if there are none, and if they refuse a
literal or a name, it is one of them. Nothing is assumed about the trees, which may come from
elsewhere.
-/
namespace GraphQLDoc

open ParseTree (faultsIn)

variable {α β : Type}

/-- If the error is a literal or a name without a meaning, it is one of the faults. -/
def ConversionError.IsAmong (fs : List TreeFault) (e : ConversionError) : Prop :=
  ∀ p span, e = .literal p span → (p, span) ∈ fs

/-- The shape of a tree is no literal. -/
theorem ConversionError.isAmong_shape {fs : List TreeFault} {p : ShapeProblem} {place : Option Span} :
    (ConversionError.shape p place).IsAmong fs := by
  intro q span he
  cases he

/-- What a conversion gives, if it refuses a literal or a name only for one of the faults. -/
abbrev Blames (fs : List TreeFault) (P : α → Prop) (r : Converted α) : Prop := Gives (·.IsAmong fs) P r

/-- The conversion passes only if there are no faults, and else refuses one of them. -/
def Finds (fs : List TreeFault) (r : Converted α) : Prop := Blames fs (fun _ => fs = []) r

theorem Blames.mono {fs gs : List TreeFault} {P : α → Prop} {r : Converted α} (h : Blames fs P r)
    (hsub : fs ⊆ gs) : Blames gs P r := by
  cases r with
  | ok a => exact h
  | error e => exact fun p span he => hsub (h p span he)

/-- What a conversion passes with has what is said of all it can give. -/
theorem Blames.and {fs : List TreeFault} {P Q : α → Prop} {r : Converted α} (h : Blames fs P r)
    (hQ : GivesOnly Q r) : Blames fs (fun a => P a ∧ Q a) r := by
  cases r with
  | ok a => exact ⟨h, hQ⟩
  | error e => exact h

namespace Finds

variable {fs gs : List TreeFault} {r : Converted α} {k : α → Converted β}

theorem reported (r : Converted α) : Finds (reportedFault r) r := by
  unfold Finds reportedFault
  cases r with
  | ok a => rfl
  | error e =>
    intro p span he
    subst he
    exact List.mem_singleton_self _

theorem pure (a : α) : Finds [] (Pure.pure a : Converted α) := rfl

theorem bind (h : Finds fs r) (hk : ∀ a, Finds gs (k a)) : Finds (fs ++ gs) (r >>= k) := by
  refine Gives.bind (P := fun _ => fs = []) (Blames.mono h (List.subset_append_left fs gs)) ?_
  intro a hfs
  rw [hfs]
  exact hk a

/-- Faults that are looked for only where something is known. -/
theorem after {P : α → Prop} (h : Blames fs P r) (hk : ∀ a, P a → Finds fs (k a)) :
    Finds fs (r >>= k) :=
  Gives.bind h hk

theorem thenNone (h : Finds fs r) (hk : ∀ a, Finds [] (k a)) : Finds fs (r >>= k) := by
  have hbind := h.bind hk
  rwa [List.append_nil] at hbind

theorem map (h : Finds fs r) (f : α → β) : Finds fs (r.map f) := Gives.map h fun _ => id

theorem checkNames (fields : List (String × String)) : Finds [] (checkNames fields) := by
  unfold GraphQLDoc.checkNames
  split
  · rfl
  · intro p span he
    cases he

theorem nestedIn [Machine] {n : Nat} {convert : Machine → Converted α}
    (h : ∀ inner, Finds fs (convert inner)) : Finds fs (nestedIn n convert) :=
  Gives.nestedIn (fun _ => nofun) fun _ => h _

theorem checked {fields : α → List (String × String)} (h : Finds fs r) :
    Finds fs (do
      let x ← r
      GraphQLDoc.checkNames (fields x)
      return x) :=
  h.thenNone fun x => (checkNames _).thenNone fun _ => .pure x

theorem mapM {convert : ParseTree → Converted α} {ts : List ParseTree}
    (h : ∀ t ∈ ts, Finds t.faults (convert t)) : Finds (faultsIn ts) (ts.mapM convert) := by
  induction ts with
  | nil => exact ParseTree.faultsIn_nil
  | cons t ts ih =>
    obtain ⟨ht, hts⟩ := List.forall_mem_cons.mp h
    rw [List.mapM_cons, ParseTree.faultsIn_cons]
    exact ht.bind fun a => (ih hts).thenNone fun as => .pure (a :: as)

end Finds

namespace Walk

/-- The walk refuses a literal or a name only for one of the faults of the trees that come, and gives
something with a property of the trees that it has read. -/
def Blames (faults : List ParseTree → List TreeFault) (w : Walk α) (P : List ParseTree → α → Prop) :
    Prop :=
  ∀ c : Cursor, GraphQLDoc.Blames (faults c.rest)
    (fun r => ∃ ts rest, c.rest = ts ++ rest ∧ r.2 = c.past ts rest ∧ P ts r.1) (w c)

/-- The faults of trees that come behind others with faults. -/
def behind (front : List TreeFault) (ts : List ParseTree) : List TreeFault := front ++ faultsIn ts

theorem behind_append (front : List TreeFault) (ts us : List ParseTree) :
    behind front (ts ++ us) = behind (front ++ faultsIn ts) us := by
  simp [behind]

/-- Behind faults in `front`, the walk passes only if there are none, nor in what it has read. -/
def Finds (front : List TreeFault) (w : Walk α) : Prop :=
  w.Blames (behind front) fun ts _ => behind front ts = []

variable {w : Walk α} {k : α → Walk β} {front fs : List TreeFault}
  {faults faults' : List ParseTree → List TreeFault} {P : List ParseTree → α → Prop}
  {Q : List ParseTree → β → Prop}

namespace Blames

theorem bind (h : w.Blames faults P)
    (hk : ∀ ts x, P ts x → (k x).Blames (fun rest => faults (ts ++ rest)) fun ts' => Q (ts ++ ts')) :
    (w >>= k).Blames faults Q := by
  intro c
  refine Gives.bind (h c) ?_
  rintro ⟨x, d⟩ ⟨ts, rest, hrest, hd, hx⟩
  obtain rfl : d = c.past ts rest := hd
  rw [hrest]
  refine Gives.mono (hk ts x hx (c.past ts rest)) ?_
  rintro s ⟨ts', rest', hrest', hpast, hy⟩
  have hrest' : rest = ts' ++ rest' := hrest'
  refine ⟨ts ++ ts', rest', by rw [hrest', List.append_assoc], ?_, hy⟩
  rw [hpast]
  simp only [Cursor.past, List.length_append, Nat.add_assoc]

theorem mono {P' : List ParseTree → α → Prop} (h : w.Blames faults P)
    (hP : ∀ ts x, P ts x → P' ts x) : w.Blames faults P' := by
  refine fun c => Gives.mono (h c) ?_
  rintro r ⟨ts, rest, hrest, hpast, hx⟩
  exact ⟨ts, rest, hrest, hpast, hP _ _ hx⟩

theorem widen (h : w.Blames faults P) (hsub : ∀ ts, faults ts ⊆ faults' ts) : w.Blames faults' P :=
  fun c => (h c).mono (hsub c.rest)

theorem pure {x : α} (h : P [] x) : (Pure.pure x : Walk α).Blames faults P :=
  fun c => ⟨[], c.rest, rfl, (Cursor.past_nil rfl).symm, h⟩

/-- What has been read is one list of trees, whatever is said of it. -/
theorem and {P' : List ParseTree → α → Prop} (h : w.Blames faults P) (h' : w.Reads P') :
    w.Blames faults fun ts x => P ts x ∧ P' ts x := by
  intro c
  refine Gives.mono ((h c).and (h' c)) ?_
  rintro r ⟨⟨ts, rest, hrest, hpast, hx⟩, ts', rest', hrest', hpast', hx'⟩
  obtain rfl : rest = rest' := congrArg Cursor.rest (hpast.symm.trans hpast')
  obtain rfl : ts = ts' := List.append_cancel_right (hrest.symm.trans hrest')
  exact ⟨ts, rest, hrest, hpast, hx, hx'⟩

/-- A walk that can only find nodes of another shape. -/
theorem of_reads (h : w.Reads P) (hw : ∀ c, GraphQLDoc.Blames [] (fun _ => True) (w c)) :
    w.Blames faults P :=
  fun c => Gives.mono (((hw c).mono (List.nil_subset _)).and (h c)) fun _ hr => hr.2

theorem next {tags : List String} :
    (Walk.next tags).Blames faults fun ts t => ts = [t] ∧ t.tag ∈ tags := by
  refine of_reads Reads.next fun c => ?_
  unfold Walk.next Cursor.next
  split
  · exact ConversionError.isAmong_shape
  · split
    · trivial
    · exact ConversionError.isAmong_shape

theorem optional {tag : String} :
    (Walk.optional tag).Blames faults fun ts o => ts = o.toList ∧ ∀ t ∈ o, t.tag = tag :=
  of_reads Reads.optional fun _ => trivial

theorem repeated {tags : List String} :
    (Walk.repeated tags).Blames faults fun ts us => us = ts ∧ ∀ t ∈ ts, t.tag ∈ tags :=
  of_reads Reads.repeated fun _ => trivial

theorem lift {r : Converted α} (h : GraphQLDoc.Blames fs (P []) r) (hsub : ∀ ts, fs ⊆ faults ts) :
    (Walk.lift r).Blames faults P := by
  intro c
  cases r with
  | ok x => exact ⟨[], c.rest, rfl, (Cursor.past_nil rfl).symm, h⟩
  | error e => exact fun p span he => hsub _ (h p span he)

/-- A node whose children are all read by one walk. -/
theorem whole {rule : String} {t : ParseTree} (h : w.Blames faults P)
    (hfaults : ∀ span ts, t = .rule rule span ts → faults ts ⊆ fs) :
    GraphQLDoc.Blames fs (fun x => ∃ span ts, t = .rule rule span ts ∧ P ts x) (t.whole rule w) := by
  cases t with
  | token tag text span =>
    intro p span he
    cases he
  | rule tag span ts =>
    by_cases htag : tag = rule
    · subst htag
      have henter : Cursor.enter tag (.rule tag span ts) = .ok ⟨tag, span, 0, ts⟩ := if_pos rfl
      unfold ParseTree.whole ParseTree.within
      rw [henter]
      refine Gives.bind (P := fun r : α × Cursor => P ts r.1) ?_ fun r hr => ⟨span, ts, rfl, hr⟩
      refine Gives.bind ((h ⟨tag, span, 0, ts⟩).mono (hfaults span ts rfl)) ?_
      rintro ⟨x, d⟩ ⟨us, rest, hrest, hd, hx⟩
      obtain rfl : d = Cursor.past ⟨tag, span, 0, ts⟩ us rest := hd
      cases rest with
      | nil =>
        rw [List.append_nil] at hrest
        obtain rfl : ts = us := hrest
        exact hx
      | cons t rest => exact ConversionError.isAmong_shape
    · have henter : Cursor.enter rule (.rule tag span ts) =
          .error (.shape (.otherRule rule tag) span) := if_neg htag
      unfold ParseTree.whole ParseTree.within
      rw [henter]
      exact ConversionError.isAmong_shape

/-- The faults of the children are among those of the node. -/
theorem node {rule : String} {t : ParseTree} (h : w.Blames faultsIn P)
    (hrule : rule ∉ ParseTree.spelledTags) :
    GraphQLDoc.Blames t.faults (fun x => ∃ span ts, t = .rule rule span ts ∧ P ts x)
      (t.whole rule w) :=
  h.whole fun span ts ht => by
    rw [ht, ParseTree.faults_rule hrule]
    exact List.subset_append_right _ _

end Blames

namespace Finds

theorem pure (x : α) : (Pure.pure x : Walk α).Finds [] := Blames.pure rfl

/-- Behind a walk that passes nothing has been found. -/
theorem andThen (h : w.Finds [])
    (hk : ∀ ts x, faultsIn ts = [] → (k x).Blames (behind front) fun ts' => Q (ts ++ ts')) :
    (w >>= k).Blames (behind front) Q := by
  refine Blames.bind (Blames.widen h fun ts => List.subset_append_right front _) fun ts x hts => ?_
  replace hts : faultsIn ts = [] := hts
  refine (hk ts x hts).widen fun rest => ?_
  rw [behind_append, hts, List.append_nil]
  exact List.Subset.refl _

theorem bind (h : w.Finds []) (hk : ∀ x, (k x).Finds front) : (w >>= k).Finds front :=
  h.andThen fun ts x hts => (hk x).mono fun ts' y hy => by
    rwa [behind_append, hts, List.append_nil]

theorem next {k : ParseTree → Walk β} {tags : List String}
    (hk : ∀ t, t.tag ∈ tags → (k t).Finds (front ++ t.faults)) :
    (Walk.next tags >>= k).Finds front := by
  refine Blames.next.bind fun ts t ht => ?_
  obtain ⟨rfl, htag⟩ := ht
  simp only [behind_append, ParseTree.faultsIn_singleton]
  exact hk t htag

theorem optional {k : Option ParseTree → Walk β} {tag : String} (hnone : (k none).Finds front)
    (hsome : ∀ t, t.tag = tag → (k (some t)).Finds (front ++ t.faults)) :
    (Walk.optional tag >>= k).Finds front := by
  refine Blames.optional.bind fun ts o ho => ?_
  obtain ⟨rfl, htag⟩ := ho
  cases o with
  | none => exact hnone
  | some t =>
    simp only [Option.toList, behind_append, ParseTree.faultsIn_singleton]
    exact hsome t (htag t rfl)

/-- A conversion of trees that have been read, behind which faults may be left to find. -/
theorem given {r : Converted α} {P : α → Prop} (h : GraphQLDoc.Blames front P r)
    (hk : ∀ x, P x → (k x).Finds front) : (Walk.lift r >>= k).Finds front := by
  have hlift : (Walk.lift r).Blames (behind front) fun ts x => ts = [] ∧ P x :=
    .lift (Gives.mono h fun x hx => ⟨rfl, hx⟩) fun ts => List.subset_append_left front _
  refine hlift.bind fun ts x hx => ?_
  obtain ⟨rfl, hx⟩ := hx
  exact hk x hx

/-- A conversion that finds the last of the faults. -/
theorem lift {r : Converted α} (h : GraphQLDoc.Finds fs r) (hk : ∀ x, r = .ok x → (k x).Finds front) :
    (Walk.lift r >>= k).Finds (front ++ fs) := by
  refine given (P := fun x => r = .ok x ∧ fs = []) ?_ fun x hx => ?_
  · cases r with
    | ok x => exact ⟨rfl, h⟩
    | error e => exact GraphQLDoc.Blames.mono h (List.subset_append_right front fs)
  · rw [hx.2, List.append_nil]
    exact hk x hx.1

theorem lifted {r : Converted α} (h : GraphQLDoc.Finds fs r) : (Walk.lift r).Finds fs := by
  refine Blames.lift (Gives.mono h fun x hfs => ?_) fun ts => List.subset_append_left fs _
  rw [behind, hfs, ParseTree.faultsIn_nil]
  rfl

/-- A walk that looks at what comes first. -/
theorem get {k : Cursor → Walk β} (hk : ∀ c, (k c).Finds front) : (get >>= k).Finds front :=
  fun c => hk c c

theorem whole {rule : String} {t : ParseTree} (h : w.Finds [])
    (hrule : rule ∉ ParseTree.spelledTags ++ ParseTree.faultyTags) :
    GraphQLDoc.Finds t.faults (t.whole rule w) := by
  refine Gives.mono (Blames.whole (P := fun ts _ => behind [] ts = []) h fun span ts ht => ?_) ?_
  · rw [ht, ParseTree.faults_plain hrule]
    exact List.Subset.refl _
  · rintro x ⟨span, ts, rfl, hx⟩
    rw [ParseTree.faults_plain hrule]
    exact hx

end Finds

/-- A node with one child has the faults of the child. -/
theorem blames_child {rule : String} {tags : List String} {t : ParseTree}
    (hrule : rule ∉ ParseTree.spelledTags ++ ParseTree.faultyTags) :
    GraphQLDoc.Blames t.faults (fun u => t.faults = u.faults ∧ u.tag ∈ tags)
      (t.whole rule (Walk.next tags)) := by
  have hnext : (Walk.next tags).Blames faultsIn fun ts u => ts = [u] ∧ u.tag ∈ tags := .next
  refine Gives.mono (hnext.whole fun span ts ht => ?_) ?_
  · rw [ht, ParseTree.faults_plain hrule]
    exact List.Subset.refl _
  · rintro u ⟨span, ts, rfl, rfl, htag⟩
    exact ⟨by rw [ParseTree.faults_plain hrule, ParseTree.faultsIn_singleton], htag⟩

theorem finds_child {rule : String} {tags : List String} {t : ParseTree}
    {k : ParseTree → Converted β} (hrule : rule ∉ ParseTree.spelledTags ++ ParseTree.faultyTags)
    (hk : ∀ u, u.tag ∈ tags → GraphQLDoc.Finds u.faults (k u)) :
    GraphQLDoc.Finds t.faults (t.whole rule (Walk.next tags) >>= k) :=
  .after (blames_child hrule) fun u hu => hu.1 ▸ hk u hu.2

/-- A clause with a list, each item of which is converted. -/
theorem finds_clause {rule item : String} {convert : ParseTree → Converted α}
    (hrule : rule ∉ ParseTree.spelledTags ++ ParseTree.faultyTags)
    (h : ∀ t, t.tag = item → GraphQLDoc.Finds t.faults (convert t)) :
    (clause rule item convert).Finds [] := by
  have hitems : Finds [] (do
      let children ← Walk.repeated [item]
      Walk.lift (children.mapM convert)) := by
    refine Blames.repeated.bind fun ts us hus => ?_
    obtain ⟨rfl, htags⟩ := hus
    have hconvert := Finds.mapM fun t ht => h t (List.mem_singleton.mp (htags t ht))
    simp only [behind_append]
    exact Finds.lifted hconvert
  have hclause : (clause? rule item convert).Finds [] :=
    .optional (.pure none) fun t _ => .lift (Finds.whole hitems hrule) fun xs _ => .pure (some xs)
  exact hclause.bind fun o => .pure (o.getD [])

end Walk

end GraphQLDoc
