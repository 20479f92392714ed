import GraphQLDoc.Entries
import GraphQLDoc.Number.Binary64
import GraphQLDoc.Text.Character

/-!
JSON values. An object keeps its entries in order, each key once. Numbers written as integers are
kept apart from floats. A string is a text or, since escapes can name a lone surrogate, a sequence
of code points that is none.
-/
namespace GraphQLDoc

inductive JsonString where
  | text (s : String)
  | unpaired (points : List Nat)
deriving DecidableEq

namespace JsonString

instance : Coe String JsonString := ⟨text⟩

def ofPoints (points : List Nat) : JsonString :=
  match textOfPoints? points with
  | some cs => text (String.ofList cs)
  | none => unpaired points

def points : JsonString → List Nat
  | text s => s.toList.map Char.toNat
  | unpaired ps => ps

def isText : JsonString → Bool
  | text _ => true
  | unpaired _ => false

theorem isText_iff {s : JsonString} : s.isText = true ↔ ∃ t, s = .text t := by
  cases s <;> simp [isText]

end JsonString

inductive Json where
  | null
  | bool (b : Bool)
  | int (n : Int)
  | float (x : Binary64)
  | string (s : JsonString)
  | array (items : List Json)
  | object (entries : List (JsonString × Json))

namespace Json

/-- A string value that is a text. -/
def str (s : String) : Json := string (.text s)

/-- An object with keys that are texts. -/
def record (entries : List (String × Json)) : Json :=
  object (entries.map fun (k, v) => (.text k, v))

/-- The value of a key that is a text. -/
def get? (key : String) (entries : List (JsonString × Json)) : Option Json :=
  Entries.get? (.text key) entries

mutual

/-- How deep a value is nested. -/
def depth : Json → Nat
  | array items => depthOfItems items + 1
  | object entries => depthOfEntries entries + 1
  | _ => 1

def depthOfItems : List Json → Nat
  | [] => 0
  | v :: vs => max v.depth (depthOfItems vs)

def depthOfEntries : List (JsonString × Json) → Nat
  | [] => 0
  | (_, v) :: es => max v.depth (depthOfEntries es)

end

mutual

/-- Equality of values, where floats are compared as numbers. Two objects are equal when their
entries are, in the same order. -/
def eqv : Json → Json → Bool
  | null, null => true
  | bool a, bool b => a == b
  | int a, int b => a == b
  | float a, float b => a.eqv b
  | string a, string b => a == b
  | array a, array b => eqvItems a b
  | object a, object b => eqvEntries a b
  | _, _ => false

def eqvItems : List Json → List Json → Bool
  | [], [] => true
  | a :: as, b :: bs => a.eqv b && eqvItems as bs
  | _, _ => false

def eqvEntries : List (JsonString × Json) → List (JsonString × Json) → Bool
  | [], [] => true
  | (k, a) :: as, (l, b) :: bs => k == l && a.eqv b && eqvEntries as bs
  | _, _ => false

end

end Json

end GraphQLDoc
