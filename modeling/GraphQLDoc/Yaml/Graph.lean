import GraphQLDoc.Machine
import GraphQLDoc.Yaml.Problem
import GraphQLDoc.Yaml.Tag
import GraphQLDoc.Yaml.Token
import GraphQLDoc.Yaml.Lexer

/-!
The graph of nodes that a YAML text describes. Nodes are numbered, so that a reference is the number
of the node it names; it may name a collection that it stands in. The text holds one document at
most. Tokens are asked for one by one, so that a fault of the nodes is met before one of the tokens
behind them.
-/
namespace GraphQLDoc.Yaml

inductive Body where
  | scalar (text : List Nat)
  | sequence (items : List Nat)
  | mapping (entries : List (Nat × Nat))

structure Node where
  tag : Tag
  body : Body

abbrev Graph := Array Node

/-- What is known while nodes are read: the tokens ahead and whether these are all, the addresses of
tag handles, the nodes so far, and which of them have an anchor. -/
structure Reading where
  tokens : List Token
  complete : Bool
  handles : List (List Char × List Char)
  nodes : Graph
  anchors : List (List Char × Nat)

namespace Reading

/-- A step of reading, which may find the text invalid. -/
abbrev Step := StateT Reading (Except NodeProblem)

def fail {α : Type} : Step α := throw .invalid

/-- The next token, of which there is none at the end of the text. -/
def peek : Step (Option Token) := do
  let r ← get
  if r.tokens.isEmpty && !r.complete then throw .cut
  return r.tokens.head?

def skip : Step Unit := modify fun r => { r with tokens := r.tokens.drop 1 }

/-- Passes over a token if it comes next. -/
def nextIs (t : Token) : Step Bool := do
  if (← peek) = some t then
    skip
    return true
  else return false

def expect (t : Token) : Step Unit := do
  if !(← nextIs t) then fail

/-- A new node, whose content may follow later. -/
def add (anchor : Option (List Char)) (tag : Tag) (body : Body) : Step Nat := do
  let r ← get
  let id := r.nodes.size
  set { r with
    nodes := r.nodes.push ⟨tag, body⟩
    anchors := match anchor with
      | some name => (name, id) :: r.anchors
      | none => r.anchors }
  return id

def setBody (id : Nat) (body : Body) : Step Unit :=
  modify fun r => { r with nodes := r.nodes.modify id fun n => { n with body } }

/-- The node where nothing is written. -/
def empty : Step Nat := add none .null (.scalar [])

/-- The properties of a node: its anchor, and the address of its tag. -/
structure Properties where
  anchor : Option (List Char)
  address : Option (List Char)

def anchor? : Step (Option (List Char)) := do
  match ← peek with
  | some (.anchor name) =>
    skip
    return some name
  | _ => return none

def tag? : Step (Option (Option (List Char) × List Char)) := do
  match ← peek with
  | some (.tag handle suffix) =>
    skip
    return some (handle, suffix)
  | _ => return none

/-- The address that a handle and the rest of an address stand for. -/
def addressOf (handle : Option (List Char)) (suffix : List Char) : Step (List Char) := do
  match handle with
  | none => return suffix
  | some handle =>
    match (← get).handles.lookup handle with
    | some address => return address ++ suffix
    | none => fail

/-- Properties in either order. An anchor must be new, which is found behind the next token. -/
def properties : Step Properties := do
  let first ← anchor?
  let tag ← tag?
  let anchor ← if first.isNone && tag.isSome then anchor? else pure first
  let address ← tag.mapM fun (handle, suffix) => addressOf handle suffix
  discard peek
  let known := (← get).anchors
  if anchor.any fun name => (known.lookup name).isSome then fail
  return ⟨anchor, address⟩

namespace Properties

/-- Whether no tag is given, or the one that asks for the tag that the content implies. -/
def implied (p : Properties) : Bool := p.address = none || p.address = some ['!']

def collectionTag (p : Properties) (fallback : Tag) : Tag :=
  if p.implied then fallback else Tag.ofAddress (p.address.getD [])

def scalarTag (p : Properties) (text : List Nat) (plain : Bool) : Tag :=
  if p.address = some ['!'] || (p.address = none && plain) then Tag.ofPlain text
  else if p.address = none then .str
  else Tag.ofAddress (p.address.getD [])

def isEmpty (p : Properties) : Bool := p.anchor.isNone && p.address.isNone

end Properties

/-- Where a node stands: in a block, in a block where a sequence may do without indentation of its
own, or within brackets. -/
inductive Context where
  | block
  | blockOrDashes
  | flow
deriving DecidableEq

def nextAmong (ts : List (Option Token)) : Step Bool := do return ts.contains (← peek)

/-- What stands behind a token that introduces an item: an empty node if one of some tokens follows.
-/
def orEmpty (ends : List (Option Token)) (node : Step Nat) : Step Nat := do
  if ← nextAmong ends then empty else node

/-- How many calls a collection takes for itself. -/
def collectionCalls : Nat := 2

/-- What is left of the levels for the nodes of a collection. -/
def inside (levels : Nat) : Step Nat :=
  if levels < collectionCalls then throw .tooDeep else return levels - collectionCalls

/-- A node with properties may have no text. -/
def emptyScalar (p : Properties) : Step Nat :=
  if p.isEmpty then fail else add p.anchor (p.scalarTag [] true) (.scalar [])

mutual

/-- A node in which there are some levels left for calls. -/
def node (c : Context) (levels : Nat) : Nat → Step Nat
  | 0 => fail
  | fuel + 1 => do
    match ← peek with
    | some (.reference name) =>
      skip
      match (← get).anchors.lookup name with
      | some id => return id
      | none => fail
    | _ =>
      let p ← properties
      let sequence (items : Nat → Step (List Nat)) : Step Nat := do
        let id ← add p.anchor (p.collectionTag .seq) (.sequence [])
        setBody id (.sequence (← items (← inside levels)))
        return id
      let mapping (entries : Nat → Step (List (Nat × Nat))) : Step Nat := do
        let id ← add p.anchor (p.collectionTag .map) (.mapping [])
        setBody id (.mapping (← entries (← inside levels)))
        return id
      match ← peek with
      | some .blockEntry =>
        if c = .blockOrDashes then sequence fun levels => dashItems levels fuel
        else emptyScalar p
      | some (.scalar text plain) =>
        skip
        add p.anchor (p.scalarTag text plain) (.scalar text)
      | some .flowSequenceStart =>
        skip
        sequence fun levels => flowItems true levels fuel
      | some .flowMappingStart =>
        skip
        mapping fun levels => flowEntries true levels fuel
      | some .blockSequenceStart =>
        if c = .flow then emptyScalar p
        else
          skip
          sequence fun levels => blockItems levels fuel
      | some .blockMappingStart =>
        if c = .flow then emptyScalar p
        else
          skip
          mapping fun levels => blockEntries levels fuel
      | _ => emptyScalar p
termination_by structural fuel => fuel

def blockItems (levels : Nat) : Nat → Step (List Nat)
  | 0 => fail
  | fuel + 1 => do
    if ← nextIs .blockEntry then
      let item ← orEmpty [some .blockEntry, some .blockEnd] (node .block levels fuel)
      return item :: (← blockItems levels fuel)
    else
      expect .blockEnd
      return []
termination_by structural fuel => fuel

/-- The items of a sequence that stands at the column of the mapping around it. -/
def dashItems (levels : Nat) : Nat → Step (List Nat)
  | 0 => fail
  | fuel + 1 => do
    if ← nextIs .blockEntry then
      let item ← orEmpty [some .blockEntry, some .key, some .value, some .blockEnd]
        (node .block levels fuel)
      return item :: (← dashItems levels fuel)
    else return []
termination_by structural fuel => fuel

def blockEntries (levels : Nat) : Nat → Step (List (Nat × Nat))
  | 0 => fail
  | fuel + 1 => do
    if ← nextIs .key then
      let ends := [some .key, some .value, some .blockEnd]
      let key ← orEmpty ends (node .blockOrDashes levels fuel)
      let value ← if ← nextIs .value then orEmpty ends (node .blockOrDashes levels fuel) else empty
      return (key, value) :: (← blockEntries levels fuel)
    else
      expect .blockEnd
      return []
termination_by structural fuel => fuel

/-- The items up to a closing bracket. A key among them is an entry of a mapping of its own. -/
def flowItems (first : Bool) (levels : Nat) : Nat → Step (List Nat)
  | 0 => fail
  | fuel + 1 => do
    if ← nextIs .flowSequenceEnd then return []
    if !first then expect .flowEntry
    if ← nextIs .key then
      let id ← add none .map (.mapping [])
      let left ← inside levels
      let key ← orEmpty [some .value, some .flowEntry, some .flowSequenceEnd] (node .flow left fuel)
      let value ←
        if ← nextIs .value then
          orEmpty [some .flowEntry, some .flowSequenceEnd] (node .flow left fuel)
        else empty
      setBody id (.mapping [(key, value)])
      return id :: (← flowItems false levels fuel)
    else if ← nextIs .flowSequenceEnd then return []
    else
      let item ← node .flow levels fuel
      return item :: (← flowItems false levels fuel)
termination_by structural fuel => fuel

def flowEntries (first : Bool) (levels : Nat) : Nat → Step (List (Nat × Nat))
  | 0 => fail
  | fuel + 1 => do
    if ← nextIs .flowMappingEnd then return []
    if !first then expect .flowEntry
    if ← nextIs .key then
      let key ← orEmpty [some .value, some .flowEntry, some .flowMappingEnd] (node .flow levels fuel)
      let value ←
        if ← nextIs .value then orEmpty [some .flowEntry, some .flowMappingEnd] (node .flow levels fuel)
        else empty
      return (key, value) :: (← flowEntries false levels fuel)
    else if ← nextIs .flowMappingEnd then return []
    else
      let key ← node .flow levels fuel
      let value ← empty
      return (key, value) :: (← flowEntries false levels fuel)
termination_by structural fuel => fuel

end

/-- The directives in front of a document: one version at most, which must be 1, and addresses for
handles, each once. -/
def directives : Nat → Bool → Step Bool
  | 0, _ => fail
  | fuel + 1, versioned => do
    match ← peek with
    | some (.version major) =>
      if versioned || major != 1 then fail
      skip
      discard (directives fuel true)
      return true
    | some (.tagHandle handle address) =>
      if ((← get).handles.lookup handle).isSome then fail
      skip
      modify fun r => { r with handles := r.handles ++ [(handle, address)] }
      discard (directives fuel versioned)
      return true
    | some .otherDirective =>
      skip
      discard (directives fuel versioned)
      return true
    | _ => return false

/-- What handles stand for where no directive says otherwise. -/
def defaultHandles : List (List Char × List Char) :=
  [(['!'], ['!']), (['!', '!'], Tag.base.toList)]

def skipDocumentEnds : Nat → Step Unit
  | 0 => pure ()
  | fuel + 1 => do if ← nextIs .documentEnd then skipDocumentEnds fuel

/-- The only document of a text, by its root node. Without a mark in front of it, it is not empty.
-/
def document (levels fuel : Nat) : Step Nat := do
  let directed ← directives fuel false
  modify fun r => { r with handles := r.handles ++ defaultHandles }
  let marked ← nextIs .documentStart
  if directed && !marked then fail
  let isEnd (t : Option Token) : Bool := match t with
    | none | some .documentStart | some .documentEnd => true
    | some (.version _) | some (.tagHandle _ _) | some .otherDirective => true
    | _ => false
  let root ← if marked && isEnd (← peek) then empty else node .block levels fuel
  skipDocumentEnds fuel
  if (← peek).isSome then
    -- another document, which is looked at as far as its mark
    modify fun r => { r with handles := [] }
    discard (directives fuel false)
    discard peek
    fail
  return root

end Reading

/-- The graph of a text and its root, of which there is none in an empty text. -/
def Graph.ofScan [Machine] (s : Scan) : Except NodeProblem (Graph × Option Nat) :=
  if s.tokens.isEmpty && s.stop.isNone then .ok (#[], none)
  else
    (Reading.document Machine.calls (3 * s.tokens.length + 3)
      ⟨s.tokens, s.stop.isNone, [], #[], []⟩).map fun (root, r) => (r.nodes, some root)

end GraphQLDoc.Yaml
