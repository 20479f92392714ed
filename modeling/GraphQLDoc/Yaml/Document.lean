import GraphQLDoc.Yaml.Graph
import GraphQLDoc.Yaml.Value

/-!
The value of a YAML text, seen one level at a time. Before it can be seen every node is checked: its
content suits its tag, keys are no collections, and a mapping has taken up the entries of those that
it names under its merge key. Collections are checked in the order of their distance from the root,
scalars together with the collection around them; the first fault that is met counts.
-/
namespace GraphQLDoc.Yaml

/-- What a node holds. -/
inductive Content where
  | text (s : JsonString)
  | list (items : List Nat)
  | pairs (items : List Nat)
  | mapping (entries : List (Nat × Nat))
  | other

namespace Graph

def tag (g : Graph) (id : Nat) : Tag := (g[id]?.map (·.tag)).getD .unknown

def body (g : Graph) (id : Nat) : Body := (g[id]?.map (·.body)).getD (.scalar [])

def entries? (g : Graph) (id : Nat) : Option (List (Nat × Nat)) :=
  match g.body id with
  | .mapping entries => some entries
  | _ => none

def items? (g : Graph) (id : Nat) : Option (List Nat) :=
  match g.body id with
  | .sequence items => some items
  | _ => none

/-- The text of a node, which for a mapping is that of its default entry. -/
def textWithin (g : Graph) : Nat → Nat → Option (List Nat)
  | 0, _ => none
  | fuel + 1, id =>
    match g.body id with
    | .scalar text => some text
    | .sequence _ => none
    | .mapping entries =>
      (entries.find? fun (k, _) => g.tag k = .default).bind fun (_, v) => textWithin g fuel v

def text? (g : Graph) (id : Nat) : Option (List Nat) := g.textWithin (g.size + 1) id

def isCollection (g : Graph) (id : Nat) : Bool :=
  [.seq, .map, .set, .orderedMap, .pairs].contains (g.tag id)

/-! Merging. -/

def setEntries (id : Nat) (entries : List (Nat × Nat)) (g : Graph) : Graph :=
  g.modify id fun n => { n with body := .mapping entries }

/-- In a mapping the key for a default is a text like any other. -/
def plainKeys (entries : List (Nat × Nat)) (g : Graph) : Graph :=
  entries.foldl
    (fun g (k, _) => g.modify k fun n => if n.tag = .default then { n with tag := .str } else n) g

/-- The mappings that a merge key names: one, or those of a sequence from the last to the first. -/
def mergedMappings? (g : Graph) (id : Nat) : Option (List Nat) :=
  match g.body id with
  | .mapping _ => some [id]
  | .sequence items => if items.all fun i => (g.entries? i).isSome then some items.reverse else none
  | .scalar _ => none

/-- Replaces the merge keys of a mapping by the entries of the mappings they name, which come before
its own. A mapping that has been dealt with has no merge keys left, so that one which names itself
takes up nothing. -/
def merge : Nat → Nat → Graph → Option Graph
  | 0, _, g => some g
  | fuel + 1, id, g => do
    let (named, own) := ((g.entries? id).getD []).partition fun (k, _) => g.tag k = .merge
    let (g, taken) ← named.foldlM
      (fun (g, taken) (_, v) => do
        let mappings ← g.mergedMappings? v
        let g ← mappings.reverse.foldlM (fun g m => merge fuel m g) g
        return (g, taken ++ mappings.flatMap fun m => (g.entries? m).getD []))
      (plainKeys own (g.setEntries id own), [])
    return g.setEntries id (taken ++ own)

end Graph

/-- The nodes of a graph while they are checked: those that were met, and the collections among them
whose content is still to be checked. -/
structure Checking where
  graph : Graph
  met : List Nat
  waiting : List Nat

namespace Checking

/-- Checks a node that is met for the first time. The content of a collection has to wait. -/
def meet (c : Checking) (id : Nat) : Except Problem Checking :=
  if c.met.contains id then .ok c
  else
    let c := { c with met := id :: c.met }
    if c.graph.isCollection id then .ok { c with waiting := c.waiting ++ [id] }
    else match c.graph.text? id with
      | none => .error .invalid
      | some text =>
        match textOfPoints? text with
        | some cs =>
          match Value.fault? (c.graph.tag id) cs with
          | some p => .error p
          | none => .ok c
        | none =>
          match c.graph.tag id with
          | .str | .null => .ok c
          | .bool => .error (.scalar (.boolean text))
          | .int => .error (.scalar (.integer 10 text))
          | .float => .error (.scalar (.float text))
          | .timestamp => .error (.scalar .timestamp)
          | _ => .error .invalid

/-- Checks an entry, whose key must not be a collection. -/
def meetEntry (c : Checking) (entry : Nat × Nat) : Except Problem Checking := do
  let c ← c.meet entry.1
  if c.graph.isCollection entry.1 then throw .invalid
  c.meet entry.2

/-- Checks an item of a list of pairs, which is a mapping with one entry. -/
def meetPair (c : Checking) (id : Nat) : Except Problem Checking :=
  match c.graph.entries? id with
  | some [(key, value)] => do (← c.meet key).meet value
  | _ => .error .invalid

/-- Checks the content of a collection. -/
def content (c : Checking) (id : Nat) : Except Problem Checking :=
  match c.graph.tag id with
  | .seq =>
    match c.graph.items? id with
    | some items => items.foldlM meet c
    | none => .error .invalid
  | .orderedMap | .pairs =>
    match c.graph.items? id with
    | some items => items.foldlM meetPair c
    | none => .error .invalid
  | _ =>
    if (c.graph.entries? id).isNone then .error .invalid
    else match c.graph.merge (c.graph.size + 1) id with
      | none => .error .invalid
      | some graph => ((graph.entries? id).getD []).foldlM meetEntry { c with graph }

/-- Checks what is waiting. Every node waits once at most. -/
def run : Nat → Checking → Except Problem Graph
  | 0, c => .ok c.graph
  | fuel + 1, c =>
    match c.waiting with
    | [] => .ok c.graph
    | id :: waiting => do run fuel (← content { c with waiting } id)

end Checking

/-- A graph whose nodes have been checked, and its root. -/
structure Document where
  graph : Graph
  root : Nat

namespace Document

/-- Reads a text; one without a document has no value. -/
def read [Machine] (text : List Char) : Except Problem (Option Document) := do
  let s := scan text
  match ← (Graph.ofScan s).mapError (NodeProblem.problem s.stop) with
  | (_, none) => return none
  | (graph, some root) =>
    let checking ← Checking.meet ⟨graph, [], []⟩ root
    return some ⟨← checking.run (graph.size + 1), root⟩

def content (d : Document) (id : Nat) : Content :=
  match d.graph.tag id with
  | .str => .text (.ofPoints ((d.graph.text? id).getD []))
  | .seq => .list ((d.graph.items? id).getD [])
  | .orderedMap | .pairs => .pairs ((d.graph.items? id).getD [])
  | .map => .mapping ((d.graph.entries? id).getD [])
  | _ => .other

/-- The value of the last entry with a key that is a text. -/
def get? (d : Document) (key : String) (entries : List (Nat × Nat)) : Option Content :=
  (entries.reverse.find? fun (k, _) =>
    match d.content k with
    | .text s => s == .text key
    | _ => false).map fun (_, v) => d.content v

end Document

end GraphQLDoc.Yaml
