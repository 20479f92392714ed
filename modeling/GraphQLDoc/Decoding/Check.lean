import GraphQLDoc.Decoding.Issue

/-!
Checks that gather issues. Checking two things reports the issues of both, in order; a check that
depends on another is made only when that one passes.
-/
namespace GraphQLDoc

inductive Checked (α : Type) where
  | ok (a : α)
  | wrong (issues : List Issue)

namespace Checked

def problem {α : Type} (p : Problem) : Checked α := wrong [⟨p, []⟩]

def map {α β : Type} (f : α → β) : Checked α → Checked β
  | ok a => ok (f a)
  | wrong issues => wrong issues

/-- Applies a checked function, gathering the issues of both sides. -/
def apply {α β : Type} : Checked (α → β) → Checked α → Checked β
  | ok f, ok a => ok (f a)
  | ok _, wrong issues => wrong issues
  | wrong issues, ok _ => wrong issues
  | wrong issues, wrong more => wrong (issues ++ more)

instance : Functor Checked where
  map := map

instance : Seq Checked where
  seq f a := f.apply (a ())

/-- Goes on only if the check passes. -/
def andThen {α β : Type} (c : Checked α) (f : α → Checked β) : Checked β :=
  match c with
  | ok a => f a
  | wrong issues => wrong issues

/-- The same check, of something that lies one step further down. -/
def under {α : Type} (s : Step) : Checked α → Checked α
  | ok a => ok a
  | wrong issues => wrong (issues.map fun i => { i with place := s :: i.place })

end Checked

/-- Reads a value of a type out of data. -/
abbrev Decoder (α : Type) := Json → Checked α

abbrev Entries := List (JsonString × Json)

namespace Decoder

/-- A field that has to be there. -/
def required {α : Type} (key : String) (d : Decoder α) (es : Entries) : Checked α :=
  match Json.get? key es with
  | none => .wrong [⟨.missing, [.key key]⟩]
  | some v => (d v).under (.key key)

/-- A field with a value for when it is not there. -/
def withDefault {α : Type} (key : String) (fallback : α) (d : Decoder α) (es : Entries) :
    Checked α :=
  match Json.get? key es with
  | none => .ok fallback
  | some v => (d v).under (.key key)

/-- Null, or something else. -/
def nullable {α : Type} (d : Decoder α) : Decoder (Option α)
  | .null => .ok none
  | v => (d v).map some

def optional {α : Type} (key : String) (d : Decoder α) (es : Entries) : Checked (Option α) :=
  withDefault key none (nullable d) es

def extras (known : List String) (es : Entries) : Checked Unit :=
  match es.filter fun (k, _) => !known.any fun name => k = .text name with
  | [] => .ok ()
  | unknown => .wrong (unknown.map fun (k, _) => ⟨.extraForbidden, [.key k]⟩)

/-- An object with known fields only. Unknown ones are reported behind the known. -/
def record {α : Type} (name : String) (known : List String) (fields : Entries → Checked α) :
    Decoder α
  | .object es => (Checked.map (fun a _ => a) (fields es)).apply (extras known es)
  | _ => .problem (.notRecord name)

/-- The kind of a node, which may be left out where it is clear from the place. -/
def kind (tag : String) (es : Entries) : Checked Unit :=
  match Json.get? "kind" es with
  | none => .ok ()
  | some (.string s) =>
    if s = .text tag then .ok () else .wrong [⟨.otherLiteral tag, [.key "kind"]⟩]
  | some _ => .wrong [⟨.otherLiteral tag, [.key "kind"]⟩]

/-- A node with a kind: the kind is checked before the fields. -/
def node {α : Type} (name tag : String) (known : List String) (fields : Entries → Checked α) :
    Decoder α :=
  record name ("kind" :: known) fun es =>
    (Checked.map (fun _ a => a) (kind tag es)).apply (fields es)

/-- One of several kinds of nodes, told apart by the kind they name. -/
def variant {α : Type} (tags : List String) (of : String → Decoder α) : Decoder α
  | .object es =>
    match Json.get? "kind" es with
    | none => .problem .tagMissing
    | some (.string (.text tag)) =>
      if tag ∈ tags then (of tag (.object es)).under (.key tag)
      else .problem (.tagUnknown (.str tag) tags)
    | some v => .problem (.tagUnknown v tags)
  | _ => .problem .notVariant

/-- The items of a list from number `n` on, all of them checked. -/
def items {α : Type} (d : Decoder α) : Nat → List Json → Checked (List α)
  | _, [] => .ok []
  | n, v :: vs => (((d v).under (.index n)).map (· :: ·)).apply (items d (n + 1) vs)

def sequence {α : Type} (d : Decoder α) : Decoder (List α)
  | .array vs => items d 0 vs
  | _ => .problem .notSequence

def nonempty {α : Type} (d : Decoder α) : Decoder (List α)
  | .array [] => .problem .tooShort
  | v => sequence d v

/-- A check of its own on a decoded value. -/
def refine {α : Type} (d : Decoder α) (holds : α → Bool) (reason : String) : Decoder α :=
  fun v => (d v).andThen fun a => if holds a then .ok a else .problem (.rejected reason)

end Decoder

end GraphQLDoc
