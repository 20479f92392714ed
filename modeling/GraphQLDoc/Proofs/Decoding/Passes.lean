import GraphQLDoc.Decoding.Types
import GraphQLDoc.Proofs.Json.Canonical

/-!
What passes a check. Where several things are checked side by side, what is made of them has a
property if it follows from those that the single checks ensure.
-/
namespace GraphQLDoc

/-- What the check passes, if it passes, has a property. -/
def Checked.Passes {α : Type} (P : α → Prop) : Checked α → Prop
  | .ok a => P a
  | .wrong _ => True

namespace Checked.Passes

variable {α β : Type} {P : α → Prop} {Q : β → Prop}

theorem of_eq_ok {c : Checked α} (h : c.Passes P) {a : α} (ha : c = .ok a) : P a := by
  subst ha
  exact h

theorem any (c : Checked α) : c.Passes fun _ => True := by
  cases c <;> trivial

theorem map {c : Checked α} {f : α → β} (h : c.Passes P) (hf : ∀ a, P a → Q (f a)) :
    (f <$> c).Passes Q := by
  cases c with
  | ok a => exact hf a h
  | wrong => trivial

theorem mono {Q : α → Prop} {c : Checked α} (h : c.Passes P) (hPQ : ∀ a, P a → Q a) : c.Passes Q := by
  cases c with
  | ok a => exact hPQ a h
  | wrong => trivial

/-- One more check beside others. -/
theorem seq {f : Checked (α → β)} {c : Checked α} (hf : f.Passes fun g => ∀ a, P a → Q (g a))
    (h : c.Passes P) : (f <*> c).Passes Q := by
  cases f with
  | ok g =>
    cases c with
    | ok a => exact hf a h
    | wrong => trivial
  | wrong => cases c <;> trivial

theorem under {c : Checked α} (h : c.Passes P) (s : Step) : (c.under s).Passes P := by
  cases c with
  | ok a => exact h
  | wrong => trivial

theorem andThen {c : Checked α} {f : α → Checked β} (h : c.Passes P)
    (hf : ∀ a, P a → (f a).Passes Q) : (c.andThen f).Passes Q := by
  cases c with
  | ok a => exact hf a h
  | wrong => trivial

end Checked.Passes

namespace Decoder

variable {α : Type} {P : α → Prop} {d : Decoder α}

/-- What the decoder reads out of data with canonical floats has a property. -/
def Ensures (P : α → Prop) (d : Decoder α) : Prop :=
  ∀ v : Json, v.HasCanonicalFloats → (d v).Passes P

/-- The values of an object have canonical floats. -/
def AreCanonical (es : Entries) : Prop := ∀ e ∈ es, e.2.HasCanonicalFloats

theorem AreCanonical.get? {es : Entries} (h : AreCanonical es) {key : String} {v : Json}
    (hv : Json.get? key es = some v) : v.HasCanonicalFloats := by
  unfold Json.get? at hv
  induction es with
  | nil => exact nomatch hv
  | cons e es ih =>
    obtain ⟨he, hes⟩ := List.forall_mem_cons.mp h
    rw [Entries.get?] at hv
    split at hv
    · exact Option.some.inj hv ▸ he
    · exact ih hes hv

namespace Ensures

theorem mono {Q : α → Prop} (h : Ensures P d) (hPQ : ∀ a, P a → Q a) : Ensures Q d :=
  fun v hv => (h v hv).mono hPQ

theorem required (h : Ensures P d) {es : Entries} (hes : AreCanonical es) (key : String) :
    (required key d es).Passes P := by
  unfold Decoder.required
  split
  · trivial
  · rename_i v hv
    exact (h v (hes.get? hv)).under _

theorem withDefault (h : Ensures P d) {es : Entries} (hes : AreCanonical es) (key : String)
    {fallback : α} (hfallback : P fallback) : (withDefault key fallback d es).Passes P := by
  unfold Decoder.withDefault
  split
  · exact hfallback
  · rename_i v hv
    exact (h v (hes.get? hv)).under _

theorem nullable (h : Ensures P d) : Ensures (fun o => ∀ a ∈ o, P a) (nullable d) := by
  intro v hv
  unfold Decoder.nullable
  split
  · exact nofun
  · exact (h v hv).map fun a ha b hb => Option.some.inj hb ▸ ha

theorem optional (h : Ensures P d) {es : Entries} (hes : AreCanonical es) (key : String) :
    (optional key d es).Passes fun o => ∀ a ∈ o, P a :=
  h.nullable.withDefault hes key nofun

theorem record {name : String} {known : List String} {fields : Entries → Checked α}
    (h : ∀ es, AreCanonical es → (fields es).Passes P) : Ensures P (record name known fields) := by
  intro v hv
  cases hv with
  | object hes => exact .seq (.map (h _ hes) fun _ ha _ _ => ha) (.any (extras known _))
  | _ => trivial

theorem node {name tag : String} {known : List String} {fields : Entries → Checked α}
    (h : ∀ es, AreCanonical es → (fields es).Passes P) :
    Ensures P (node name tag known fields) :=
  record fun es hes => .seq (.map (.any (kind tag es)) fun _ _ _ ha => ha) (h es hes)

theorem variant {tags : List String} {of : String → Decoder α} (h : ∀ tag ∈ tags, Ensures P (of tag)) :
    Ensures P (variant tags of) := by
  intro v hv
  unfold Decoder.variant
  split
  · split
    · trivial
    · split
      · rename_i htag
        exact (h _ htag _ hv).under _
      · trivial
    · trivial
  · trivial

theorem items (h : Ensures P d) {vs : List Json} (hvs : ∀ v ∈ vs, v.HasCanonicalFloats) (n : Nat) :
    (items d n vs).Passes fun as => ∀ a ∈ as, P a := by
  induction vs generalizing n with
  | nil => exact nofun
  | cons v vs ih =>
    obtain ⟨hv, hvs⟩ := List.forall_mem_cons.mp hvs
    exact .seq (.map ((h v hv).under _) fun a ha as has => List.forall_mem_cons.mpr ⟨ha, has⟩)
      (ih hvs (n + 1))

theorem sequence (h : Ensures P d) : Ensures (fun as => ∀ a ∈ as, P a) (sequence d) := by
  intro v hv
  cases hv with
  | array hvs => exact h.items hvs 0
  | _ => trivial

theorem nonempty (h : Ensures P d) : Ensures (fun as => as ≠ [] ∧ ∀ a ∈ as, P a) (nonempty d) := by
  intro v hv
  cases hv with
  | @array vs hvs =>
    cases vs with
    | nil => trivial
    | cons v vs =>
      obtain ⟨hv, hvs⟩ := List.forall_mem_cons.mp hvs
      exact .seq (.map ((h v hv).under _) fun a ha as has =>
        ⟨List.cons_ne_nil a as, List.forall_mem_cons.mpr ⟨ha, has⟩⟩) (h.items hvs 1)
  | _ => trivial

theorem refine (h : Ensures P d) (holds : α → Bool) (reason : String) :
    Ensures (fun a => P a ∧ holds a = true) (refine d holds reason) :=
  fun v hv => (h v hv).andThen fun a ha => by
    split
    · rename_i hholds
      exact ⟨ha, hholds⟩
    · trivial

theorem nested {levels : Nat → Decoder α} (h : ∀ n, Ensures P (levels n)) : Ensures P (nested levels) :=
  fun v hv => h v.depth v hv

end Ensures

end Decoder

end GraphQLDoc
