import GraphQLDoc.Conversion.Error
import GraphQLDoc.ParseTree.Basic

/-!
Walking over the children of one node of a parse tree. The walk looks one child ahead: an optional
clause is taken only if the next child has its tag, where a tag is the name of a rule or of a
terminal.
-/
namespace GraphQLDoc

abbrev Converted := Except ConversionError

/-- A conversion inside a number of nested calls. -/
def nestedIn [Machine] {α : Type} (calls : Nat) (convert : Machine → Converted α) : Converted α :=
  match Machine.enter? calls with
  | none => .error .tooDeep
  | some inner => convert inner

structure Cursor where
  rule : String
  span : Option Span
  /-- How many children have been read. -/
  read : Nat
  rest : List ParseTree

namespace Cursor

def peek (c : Cursor) : Option String := c.rest.head?.map ParseTree.tag

def fail {α : Type} (c : Cursor) (p : ShapeProblem) : Converted α := .error (.shape p c.span)

/-- In front of the children of a node of a rule. -/
def enter (rule : String) : ParseTree → Converted Cursor
  | .token _ _ _ => .error (.mixUp .tokenForRule)
  | .rule tag span children =>
    if tag = rule then .ok ⟨rule, span, 0, children⟩
    else .error (.shape (.otherRule rule tag) span)

/-- The next child, which has to have one of the tags. -/
def next (tags : List String) (c : Cursor) : Converted (ParseTree × Cursor) :=
  match c.rest with
  | [] => c.fail (.otherChild tags c.rule none)
  | t :: rest =>
    if t.tag ∈ tags then .ok (t, { c with read := c.read + 1, rest := rest })
    else c.fail (.otherChild tags c.rule (some t.tag))

/-- The next child, if it has the tag. -/
def optional (tag : String) (c : Cursor) : Option ParseTree × Cursor :=
  match c.rest with
  | [] => (none, c)
  | t :: rest =>
    if t.tag = tag then (some t, { c with read := c.read + 1, rest := rest }) else (none, c)

/-- All next children with one of the tags. -/
def repeated (tags : List String) (c : Cursor) : List ParseTree × Cursor :=
  let taken := c.rest.takeWhile (·.tag ∈ tags)
  (taken, { c with read := c.read + taken.length, rest := c.rest.drop taken.length })

/-- Nothing may be left. -/
def finish (c : Cursor) : Converted Unit :=
  match c.peek with
  | none => .ok ()
  | some tag => c.fail (.leftOver tag c.rule)

end Cursor

/-- A step over some children of a node. -/
abbrev Walk := StateT Cursor Converted

namespace Walk

def next (tags : List String) : Walk ParseTree := fun c => c.next tags

def optional (tag : String) : Walk (Option ParseTree) := fun c => .ok (c.optional tag)

def repeated (tags : List String) : Walk (List ParseTree) := fun c => .ok (c.repeated tags)

def finish : Walk Unit := fun c => c.finish.map fun u => (u, c)

/-- A conversion of a child that has been read. -/
def lift {α : Type} (r : Converted α) : Walk α := fun c => r.map fun a => (a, c)

end Walk

namespace ParseTree

/-- Walks over the children of a node of a rule. -/
def within {α : Type} (rule : String) (t : ParseTree) (w : Walk α) : Converted α := do
  let c ← Cursor.enter rule t
  let (a, _) ← w c
  return a

/-- Walks over all children of a node of a rule. -/
def whole {α : Type} (rule : String) (t : ParseTree) (w : Walk α) : Converted α :=
  t.within rule do
    let a ← w
    Walk.finish
    return a

/-- The text and the span of the only child of a node for a name, which has to be a token. -/
def nameToken (rule : String) : ParseTree → Converted (String × Span)
  | .rule _ _ [.token _ text span] => .ok (text, span)
  | t => .error (.shape (.notOneName rule) t.span?)

end ParseTree

namespace Walk

/-- A name, its token under a node of the given rule. -/
def nameOf (rule : String) : Walk String := do
  let t ← next [rule]
  let (text, _) ← lift (t.nameToken rule)
  return text

def name : Walk String := nameOf "name"

/-- A clause with a list of items of one rule, if it is there. -/
def clause? {α : Type} (rule item : String) (convert : ParseTree → Converted α) :
    Walk (Option (List α)) := do
  match ← optional rule with
  | none => return none
  | some t =>
    let items ← lift (t.whole rule do
      let children ← repeated [item]
      lift (children.mapM convert))
    return some items

def clause {α : Type} (rule item : String) (convert : ParseTree → Converted α) : Walk (List α) := do
  return (← clause? rule item convert).getD []

end Walk

/-- The fields of a node that have to be names are names. -/
def checkNames (fields : List (String × String)) : Converted Unit :=
  match fields.filter fun (_, text) => !isName text.toList with
  | [] => .ok ()
  | wrong => .error (.node (wrong.map fun (key, _) => ⟨.notName, [.key key]⟩))

end GraphQLDoc
