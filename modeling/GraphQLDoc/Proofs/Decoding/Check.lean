import GraphQLDoc.Ast.Encoding
import GraphQLDoc.Decoding.Check

/-!
What is encoded passes the checks. A record gives the fields that its decoder asks for, has no field
that the decoder does not know, and a node names its kind.
-/
namespace GraphQLDoc

open Encoding

namespace Checked

variable {α β : Type}

@[simp] theorem map_ok (f : α → β) (a : α) : map f (ok a) = ok (f a) := rfl

@[simp] theorem fmap_ok (f : α → β) (a : α) : (f <$> ok a : Checked β) = ok (f a) := rfl

@[simp] theorem apply_ok (f : α → β) (a : α) : (ok f).apply (ok a) = ok (f a) := rfl

@[simp] theorem seq_ok (f : α → β) (a : α) : (ok f <*> ok a : Checked β) = ok (f a) := rfl

@[simp] theorem under_ok (s : Step) (a : α) : (ok a).under s = ok a := rfl

@[simp] theorem andThen_ok (a : α) (f : α → Checked β) : (ok a).andThen f = f a := rfl

end Checked

namespace Json

/-- The entries of a record. -/
def entries (fields : List (String × Json)) : List (JsonString × Json) :=
  fields.map fun (k, v) => (.text k, v)

@[simp] theorem get?_entries_cons (key k : String) (v : Json) (fields : List (String × Json)) :
    get? key (entries ((k, v) :: fields)) = if k = key then some v else get? key (entries fields) := by
  simp [get?, entries, Entries.get?]

end Json

namespace Decoder

variable {α : Type} {fields : List (String × Json)}

theorem extras_entries {known : List String} (h : ∀ f ∈ fields, f.1 ∈ known) :
    extras known (Json.entries fields) = .ok () := by
  unfold extras
  rw [List.filter_eq_nil_iff.mpr]
  rw [Json.entries, List.forall_mem_map]
  intro f hf
  simpa using h f hf

theorem record_entries {name : String} {known : List String} {check : Entries → Checked α} {a : α}
    (hcheck : check (Json.entries fields) = .ok a) (hknown : ∀ f ∈ fields, f.1 ∈ known) :
    record name known check (Json.record fields) = .ok a := by
  have hentries : record name known check (Json.record fields) =
      (Checked.map (fun a _ => a) (check (Json.entries fields))).apply
        (extras known (Json.entries fields)) := rfl
  rw [hentries, hcheck, extras_entries hknown]
  rfl

theorem node_entries {name tag : String} {known : List String} {check : Entries → Checked α} {a : α}
    (hcheck : check (Json.entries (("kind", .str tag) :: fields)) = .ok a)
    (hknown : ∀ f ∈ fields, f.1 ∈ known) :
    node name tag known check (Encoding.node tag fields) = .ok a := by
  have hkind : kind tag (Json.entries (("kind", .str tag) :: fields)) = .ok () := by
    simp [kind, Json.str]
  refine record_entries ?_ ?_
  · rw [hkind, hcheck]
    rfl
  · rw [List.forall_mem_cons]
    exact ⟨List.mem_cons_self, fun f hf => List.mem_cons_of_mem _ (hknown f hf)⟩

theorem variant_node {tags : List String} {of : String → Decoder α} {tag : String} {a : α}
    (htag : tag ∈ tags) (hof : of tag (Encoding.node tag fields) = .ok a) :
    variant tags of (Encoding.node tag fields) = .ok a := by
  have hvariant : variant tags of (Encoding.node tag fields) =
      if tag ∈ tags then (of tag (Encoding.node tag fields)).under (.key tag)
      else .problem (.tagUnknown (.str tag) tags) := rfl
  rw [hvariant, if_pos htag, hof]
  rfl

variable {d : Decoder α} {encode : α → Json} {as : List α}

theorem items_map (h : ∀ a ∈ as, d (encode a) = .ok a) (n : Nat) :
    items d n (as.map encode) = .ok as := by
  induction as generalizing n with
  | nil => rfl
  | cons a as ih =>
    rw [List.forall_mem_cons] at h
    simp [items, h.1, ih h.2]

theorem sequence_sequence (h : ∀ a ∈ as, d (encode a) = .ok a) :
    sequence d (Encoding.sequence encode as) = .ok as := items_map h 0

theorem nonempty_sequence (hne : as ≠ []) (h : ∀ a ∈ as, d (encode a) = .ok a) :
    nonempty d (Encoding.sequence encode as) = .ok as := by
  obtain ⟨a, as, rfl⟩ := List.exists_cons_of_ne_nil hne
  exact sequence_sequence h

/-- Items that meet a rule, where the rule is all that a decoder asks for. -/
theorem sequence_valid {isValid : α → Bool} (hd : ∀ a, isValid a = true → d (encode a) = .ok a)
    (h : as.all isValid = true) : sequence d (Encoding.sequence encode as) = .ok as :=
  sequence_sequence fun a ha => hd a (List.all_eq_true.mp h a ha)

theorem nonempty_valid {isValid : α → Bool} (hd : ∀ a, isValid a = true → d (encode a) = .ok a)
    (h : (!as.isEmpty && as.all isValid) = true) :
    nonempty d (Encoding.sequence encode as) = .ok as := by
  simp only [Bool.and_eq_true, Bool.not_eq_true', List.isEmpty_eq_false_iff] at h
  exact nonempty_sequence h.1 fun a ha => hd a (List.all_eq_true.mp h.2 a ha)

@[simp] theorem nullable_null : nullable d .null = .ok none := rfl

@[simp] theorem nullable_record : nullable d (.record fields) = (d (.record fields)).map some := rfl

theorem nullable_optional {o : Option α} (hnull : ∀ a, encode a ≠ .null)
    (h : ∀ a ∈ o, d (encode a) = .ok a) : nullable d (Encoding.optional encode o) = .ok o := by
  cases o with
  | none => rfl
  | some a =>
    have hsome : nullable d (encode a) = (d (encode a)).map some := by
      unfold nullable
      split
      · exact absurd ‹_› (hnull a)
      · rfl
    rw [Encoding.optional, hsome, h a rfl]
    rfl

theorem refine_ok {holds : α → Bool} {reason : String} {v : Json} {a : α} (hv : d v = .ok a)
    (ha : holds a = true) : refine d holds reason v = .ok a := by
  rw [refine, hv, Checked.andThen_ok, if_pos ha]

end Decoder

end GraphQLDoc
