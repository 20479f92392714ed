import GraphQLDoc.Proofs.Conversion.Walk
import GraphQLDoc.Proofs.Leaves.Basic

/-!
Walks that keep the leaves of what they read. Nothing is assumed about the trees, which may come
from elsewhere: a walk that gives a value has read trees with the leaves of that value.
-/
namespace GraphQLDoc

variable {α β : Type}

/-- All that a conversion can give, if it gives anything, has a property. -/
abbrev GivesOnly (P : α → Prop) (r : Converted α) : Prop := Gives (fun _ => True) P r

/-- What a conversion of a tree can give has the leaves of the tree. -/
def Keeps (leaves : α → List Leaf) (t : ParseTree) (r : Converted α) : Prop :=
  GivesOnly (fun x => t.leaves = leaves x) r

theorem Keeps.map {t : ParseTree} {r : Converted α} {f : α → β} {leaves : α → List Leaf}
    {leaves' : β → List Leaf} (h : Keeps leaves t r) (hf : ∀ x, leaves x = leaves' (f x)) :
    Keeps leaves' t (r.map f) :=
  Gives.map h fun x hx => hx.trans (hf x)

namespace GivesOnly

variable {P : α → Prop} {r : Converted α}

theorem intro (h : ∀ x, r = .ok x → P x) : GivesOnly P r := by
  cases r with
  | error e => trivial
  | ok x => exact h x rfl

theorem checked {fields : α → List (String × String)} (h : GivesOnly P r) :
    GivesOnly P (do
      let x ← r
      checkNames (fields x)
      return x) :=
  h.bind fun x hx => by
    cases checkNames (fields x) with
    | error e => trivial
    | ok u => exact hx

theorem nestedIn [Machine] {n : Nat} {convert : Machine → Converted α}
    (h : ∀ inner, GivesOnly P (convert inner)) : GivesOnly P (nestedIn n convert) :=
  Gives.nestedIn (fun _ => trivial) fun _ => h _

end GivesOnly

namespace Walk

/-- The walk can only give something with a property of the trees that it has read. -/
def Reads (w : Walk α) (P : List ParseTree → α → Prop) : Prop :=
  ∀ c : Cursor, GivesOnly
    (fun r => ∃ ts rest, c.rest = ts ++ rest ∧ r.2 = c.past ts rest ∧ P ts r.1) (w c)

variable {w : Walk α} {k : α → Walk β} {P : List ParseTree → α → Prop}
  {Q : List ParseTree → β → Prop}

namespace Reads

theorem mono {P' : List ParseTree → α → Prop} (h : w.Reads P) (hP : ∀ ts x, P ts x → P' ts x) :
    w.Reads P' := by
  refine fun c => (h c).mono ?_
  rintro r ⟨ts, rest, hrest, hpast, hx⟩
  exact ⟨ts, rest, hrest, hpast, hP _ _ hx⟩

theorem pure {x : α} (h : P [] x) : (Pure.pure x : Walk α).Reads P :=
  fun c => ⟨[], c.rest, rfl, (Cursor.past_nil rfl).symm, h⟩

theorem bind (h : w.Reads P) (hk : ∀ ts x, P ts x → (k x).Reads fun ts' => Q (ts ++ ts')) :
    (w >>= k).Reads Q := by
  intro c
  refine (h c).bind ?_
  rintro ⟨x, d⟩ ⟨ts, rest, hrest, hd, hx⟩
  obtain rfl : d = c.past ts rest := hd
  refine (hk ts x hx (c.past ts rest)).mono ?_
  rintro s ⟨ts', rest', hrest', hpast, hy⟩
  have hrest' : rest = ts' ++ rest' := hrest'
  refine ⟨ts ++ ts', rest', by rw [hrest, hrest', List.append_assoc], ?_, hy⟩
  rw [hpast]
  simp only [Cursor.past, List.length_append, Nat.add_assoc]

theorem lift {r : Converted α} (h : GivesOnly (P []) r) : (Walk.lift r).Reads P := by
  intro c
  cases r with
  | error e => trivial
  | ok x => exact ⟨[], c.rest, rfl, (Cursor.past_nil rfl).symm, h⟩

/-- What a walk has read is one list of trees, whatever is said of it. -/
theorem and {P' : List ParseTree → α → Prop} (h : w.Reads P) (h' : w.Reads P') :
    w.Reads fun ts x => P ts x ∧ P' ts x := by
  intro c
  refine GivesOnly.intro fun r hr => ?_
  obtain ⟨ts, rest, hrest, hpast, hx⟩ := (h c).of_eq_ok hr
  obtain ⟨ts', rest', hrest', hpast', hx'⟩ := (h' c).of_eq_ok hr
  obtain rfl : rest = rest' := congrArg Cursor.rest (hpast.symm.trans hpast')
  obtain rfl : ts = ts' := List.append_cancel_right (hrest.symm.trans hrest')
  exact ⟨ts, rest, hrest, hpast, hx, hx'⟩

theorem lift_nothing (r : Converted α) : (Walk.lift r).Reads fun ts _ => ts = [] :=
  .lift (.intro fun _ _ => rfl)

theorem next {tags : List String} :
    (Walk.next tags).Reads fun ts t => ts = [t] ∧ t.tag ∈ tags := by
  intro c
  unfold Walk.next Cursor.next
  split
  · trivial
  · rename_i t rest hrest
    split
    · rename_i htag
      exact ⟨[t], rest, hrest, rfl, rfl, htag⟩
    · trivial

theorem optional {tag : String} :
    (Walk.optional tag).Reads fun ts o => ts = o.toList ∧ ∀ t ∈ o, t.tag = tag := by
  intro c
  show ∃ _, _
  unfold Cursor.optional
  split
  · rename_i hrest
    exact ⟨[], [], hrest, (Cursor.past_nil hrest).symm, rfl, fun t ht => by cases ht⟩
  · rename_i t rest hrest
    split
    · rename_i htag
      exact ⟨[t], rest, hrest, rfl, rfl, fun u hu => Option.some.inj hu ▸ htag⟩
    · exact ⟨[], t :: rest, hrest, (Cursor.past_nil hrest).symm, rfl, fun t ht => by cases ht⟩

theorem repeated {tags : List String} :
    (Walk.repeated tags).Reads fun ts us => us = ts ∧ ∀ t ∈ ts, t.tag ∈ tags := by
  intro c
  have hsplit : c.rest = c.rest.takeWhile (·.tag ∈ tags) ++
      c.rest.drop (c.rest.takeWhile (·.tag ∈ tags)).length :=
    (List.prefix_iff_eq_append.mp (List.takeWhile_prefix _)).symm
  refine ⟨_, _, hsplit, rfl, rfl, fun t ht => ?_⟩
  simpa using List.all_eq_true.mp List.all_takeWhile t ht

/-- A node whose children are all read by one walk. -/
theorem whole {rule : String} {t : ParseTree} (h : w.Reads P) :
    GivesOnly (fun x => ∃ span ts, t = .rule rule span ts ∧ P ts x) (t.whole rule w) := by
  cases t with
  | token tag text span => trivial
  | rule tag span ts =>
    by_cases htag : tag = rule
    · subst htag
      have henter : Cursor.enter tag (.rule tag span ts) = .ok ⟨tag, span, 0, ts⟩ := if_pos rfl
      unfold ParseTree.whole ParseTree.within
      rw [henter]
      refine Gives.bind (P := fun r : α × Cursor => P ts r.1) ?_ fun r hr => ⟨span, ts, rfl, hr⟩
      refine (h ⟨tag, span, 0, ts⟩).bind ?_
      rintro ⟨x, d⟩ ⟨us, rest, hrest, hd, hx⟩
      obtain rfl : d = Cursor.past ⟨tag, span, 0, ts⟩ us rest := hd
      cases rest with
      | nil =>
        rw [List.append_nil] at hrest
        obtain rfl : ts = us := hrest
        exact hx
      | cons t rest => trivial
    · have henter : Cursor.enter rule (.rule tag span ts) =
          .error (.shape (.otherRule rule tag) span) := if_neg htag
      unfold ParseTree.whole ParseTree.within
      rw [henter]
      trivial

end Reads

/-- Behind trees with the leaves `front`, the walk can only give something with these leaves and
those of the trees that it has read. -/
def Keeps (front : List Leaf) (w : Walk α) (leaves : α → List Leaf) : Prop :=
  w.Reads fun ts x => front ++ ParseTree.leavesOf ts = leaves x

variable {front : List Leaf} {first : α → List Leaf} {leaves : β → List Leaf}

namespace Keeps

theorem pure {x : β} (h : front = leaves x) : Keeps front (Pure.pure x) leaves :=
  Reads.pure (by simpa using h)

theorem bind (h : w.Keeps [] first) (hk : ∀ x, (k x).Keeps (front ++ first x) leaves) :
    (w >>= k).Keeps front leaves :=
  Reads.bind h fun ts x hx => (hk x).mono fun ts' y hy => by
    rw [← hy, ← hx, List.nil_append, ParseTree.leavesOf_append, List.append_assoc]

theorem given {P : α → Prop} {r : Converted α} (h : GivesOnly P r)
    (hk : ∀ x, P x → (k x).Keeps front leaves) : (Walk.lift r >>= k).Keeps front leaves :=
  Reads.bind (.lift (P := fun ts x => ts = [] ∧ P x) (h.mono fun _ hx => ⟨rfl, hx⟩))
    fun ts x hx => by
      obtain ⟨rfl, hx⟩ := hx
      exact hk x hx

/-- A conversion of trees that have been read. -/
theorem lift {r : Converted α} {ls : List Leaf} (h : GivesOnly (fun x => ls = first x) r)
    (hk : ∀ x, (k x).Keeps (front ++ first x) leaves) :
    (Walk.lift r >>= k).Keeps (front ++ ls) leaves :=
  .given h fun x hx => hx ▸ hk x

theorem next {k : ParseTree → Walk β} {tags : List String}
    (hk : ∀ t, t.tag ∈ tags → (k t).Keeps (front ++ t.leaves) leaves) :
    (Walk.next tags >>= k).Keeps front leaves :=
  Reads.next.bind fun ts t ht => by
    obtain ⟨rfl, htag⟩ := ht
    refine (hk t htag).mono fun ts' y hy => ?_
    rw [← hy, ParseTree.leavesOf_append, ParseTree.leavesOf_singleton, List.append_assoc]

theorem optional {k : Option ParseTree → Walk β} {tag : String}
    (hnone : (k none).Keeps front leaves)
    (hsome : ∀ t, t.tag = tag → (k (some t)).Keeps (front ++ t.leaves) leaves) :
    (Walk.optional tag >>= k).Keeps front leaves :=
  Reads.optional.bind fun ts o ho => by
    obtain ⟨rfl, htag⟩ := ho
    cases o with
    | none => exact hnone
    | some t =>
      refine (hsome t (htag t rfl)).mono fun ts' y hy => ?_
      rw [← hy, Option.toList, ParseTree.leavesOf_append, ParseTree.leavesOf_singleton,
        List.append_assoc]

/-- A conversion of the trees that are left. -/
theorem lifted {r : Converted β} (h : GivesOnly (fun x => front = leaves x) r) :
    (Walk.lift r).Keeps front leaves :=
  Reads.lift (by simpa using h)

/-- A walk that looks at what comes first. -/
theorem get {k : Cursor → Walk β} (hk : ∀ c, (k c).Keeps front leaves) :
    (get >>= k).Keeps front leaves :=
  fun c => hk c c

theorem whole {w : Walk β} {rule : String} {t : ParseTree} (h : w.Keeps [] leaves)
    (hrule : rule ∉ ParseTree.wordTags) : GraphQLDoc.Keeps leaves t (t.whole rule w) := by
  refine (Reads.whole h).mono ?_
  rintro x ⟨span, ts, rfl, hx⟩
  rw [ParseTree.leaves_rule hrule]
  exact hx

end Keeps

/-- A node with one child. -/
theorem only_child {rule : String} {tags : List String} {t : ParseTree}
    (hrule : rule ∉ ParseTree.wordTags) :
    GivesOnly (fun u => t.leaves = u.leaves ∧ u.tag ∈ tags) (t.whole rule (Walk.next tags)) := by
  refine (Reads.whole Reads.next).mono ?_
  rintro u ⟨span, ts, rfl, rfl, htag⟩
  exact ⟨by rw [ParseTree.leaves_rule hrule, ParseTree.leavesOf_singleton], htag⟩

theorem keeps_mapM {convert : ParseTree → Converted α} {ts : List ParseTree}
    (h : ∀ t ∈ ts, GraphQLDoc.Keeps first t (convert t)) :
    GivesOnly (fun xs => ParseTree.leavesOf ts = xs.flatMap first) (ts.mapM convert) := by
  induction ts with
  | nil => exact ParseTree.leavesOf_nil
  | cons t ts ih =>
    obtain ⟨ht, hts⟩ := List.forall_mem_cons.mp h
    rw [List.mapM_cons]
    refine ht.bind fun x hx => (ih hts).bind fun xs hxs => ?_
    show ParseTree.leavesOf (t :: ts) = (x :: xs).flatMap first
    rw [ParseTree.leavesOf_cons, List.flatMap_cons, hx, hxs]

/-- A clause with a list, each item of which is converted. -/
theorem keeps_clause {rule item : String} {convert : ParseTree → Converted α}
    (hrule : rule ∉ ParseTree.wordTags)
    (h : ∀ t, t.tag = item → GraphQLDoc.Keeps first t (convert t)) :
    (clause rule item convert).Keeps [] fun xs => xs.flatMap first := by
  have hitems : Keeps [] (do
      let children ← Walk.repeated [item]
      Walk.lift (children.mapM convert)) fun xs => xs.flatMap first :=
    Reads.repeated.bind fun ts us hus => by
      obtain ⟨rfl, htags⟩ := hus
      have hconvert := keeps_mapM fun t ht => h t (List.mem_singleton.mp (htags t ht))
      exact Reads.lift (by simpa using hconvert)
  have hclause : (clause? rule item convert).Keeps [] fun o => (o.getD []).flatMap first :=
    .optional (.pure rfl) fun t _ => .lift (Keeps.whole hitems hrule) fun xs => .pure rfl
  exact hclause.bind fun o => .pure rfl

theorem tagged_clause {rule item : String} {convert : ParseTree → Converted α} :
    (clause rule item convert).Reads fun ts _ => ∀ t ∈ ts, t.tag = rule := by
  refine Reads.bind (P := fun ts _ => ∀ t ∈ ts, t.tag = rule) ?_ fun ts o ho =>
    .pure (by simpa using ho)
  refine Reads.optional.bind fun ts o ho => ?_
  obtain ⟨rfl, htag⟩ := ho
  have hall : ∀ t ∈ o.toList, t.tag = rule := by simpa using htag
  cases o with
  | none => exact .pure (by simp)
  | some t =>
    refine (Reads.lift_nothing _).bind fun ts' xs hts' => .pure ?_
    simpa [hts'] using hall

end Walk

end GraphQLDoc
