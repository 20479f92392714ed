import GraphQLDoc.Conversion.Values
import GraphQLDoc.Ast.Executable

/-!
Conversion of operations, fragments and selections.
-/
namespace GraphQLDoc.Conversion

variable [Machine]

def operationType (t : ParseTree) : Converted OperationType := do
  let token ← t.whole "operation_type" (Walk.next ["QUERY", "MUTATION", "SUBSCRIPTION"])
  let text ← tokenText token
  match OperationType.ofWord? text with
  | some o => return o
  | none => .error (.text (.operation text))

def variableDefinition (t : ParseTree) : Converted VariableDefinition :=
  t.whole "variable_definition" do
    let variableTree ← Walk.next ["variable"]
    let name ← Walk.lift (variableName variableTree)
    let type ← type
    let defaultValue ← defaultValue
    let directives ← directives
    return ⟨name, type, defaultValue, directives⟩

def typeCondition : Walk (Option String) := do
  match ← Walk.optional "type_condition" with
  | none => return none
  | some t =>
    let name ← Walk.lift (t.whole "type_condition" do
      let child ← Walk.next ["named_type"]
      Walk.lift (namedType child))
    return some name

def selectionTags : List String := ["field", "fragment_spread", "inline_fragment"]

def fieldAlias : Walk (Option String) := do
  match ← Walk.optional "alias" with
  | none => return none
  | some t =>
    let name ← Walk.lift (t.whole "alias" Walk.name)
    return some name

/-- A field without its selection set, and whether it has one. -/
structure FieldHeader where
  alternative : Option String
  name : String
  arguments : List Argument
  directives : List Directive
  selects : Bool

def fieldHeader : Walk FieldHeader := do
  let alternative ← fieldAlias
  let name ← Walk.name
  let arguments ← arguments
  let directives ← directives
  let selectionSet ← Walk.optional "selection_set"
  return ⟨alternative, name, arguments, directives, selectionSet.isSome⟩

def fragmentSpread (t : ParseTree) : Converted Selection := do
  let (name, directives) ← t.whole "fragment_spread" do
    let name ← Walk.nameOf "fragment_name"
    let directives ← directives
    return (name, directives)
  checkNames [("name", name)]
  return .fragmentSpread name directives

/-- The calls of a selection set and of a selection in it. -/
def selectionCalls : Nat := 2

mutual

def selectionSet [Machine] : ParseTree → Converted SelectionSet
  | .token _ _ _ => .error (.mixUp .tokenForRule)
  | .rule tag span children =>
    if tag = "selection_set" then nestedIn selectionCalls fun _ => do
      let ss ← selections children
      ((⟨tag, span, 0, children⟩ : Cursor).repeated selectionTags).2.finish
      return ss
    else .error (.shape (.otherRule "selection_set" tag) span)

/-- The selections in front of a list of children. -/
def selections [Machine] : List ParseTree → Converted (List Selection)
  | [] => .ok []
  | t :: ts =>
    if t.tag ∈ selectionTags then do
      let s ← selection t
      let ss ← selections ts
      return s :: ss
    else .ok []

def selection [Machine] : ParseTree → Converted Selection
  | .token _ _ _ => .error (.mixUp .tokenForRule)
  | .rule tag span children =>
    if tag = "field" then do
      let (header, c) ← fieldHeader ⟨tag, span, 0, children⟩
      c.finish
      let inner ← if header.selects then (selectionSetAt (c.read - 1) children).map some
        else .ok none
      checkNames ((header.alternative.toList.map fun a => ("alias", a)) ++ [("name", header.name)])
      return .field header.alternative header.name header.arguments header.directives inner
    else if tag = "fragment_spread" then fragmentSpread (.rule tag span children)
    else do
      let (condition, c) ← typeCondition ⟨tag, span, 0, children⟩
      let (directives, c) ← directives c
      let (_, c) ← c.next ["selection_set"]
      let inner ← selectionSetAt (c.read - 1) children
      c.finish
      return .inlineFragment condition directives inner

/-- The selection set that is child number `n`. -/
def selectionSetAt [Machine] : Nat → List ParseTree → Converted SelectionSet
  | _, [] => .ok []
  | 0, t :: _ => selectionSet t
  | n + 1, _ :: ts => selectionSetAt n ts

end

/-- The selection set that comes next. -/
def nextSelectionSet : Walk SelectionSet := do
  let t ← Walk.next ["selection_set"]
  Walk.lift (selectionSet t)

def operationName : Walk (Option String) := do
  match ← Walk.optional "name" with
  | none => return none
  | some t =>
    let (text, _) ← Walk.lift (t.nameToken "name")
    return some text

/-- An operation; a selection set alone is a query without a name. -/
def operation (t : ParseTree) : Converted Operation := do
  let o ← t.whole "operation_definition" do
    if (← get).peek = some "selection_set" then
      let inner ← nextSelectionSet
      return (⟨.query, none, [], [], inner⟩ : Operation)
    else
      let typeTree ← Walk.next ["operation_type"]
      let operationType ← Walk.lift (operationType typeTree)
      let name ← operationName
      let declared ← Walk.clause "variable_definitions" "variable_definition" variableDefinition
      let directives ← directives
      let inner ← nextSelectionSet
      return ⟨operationType, name, declared, directives, inner⟩
  checkNames (o.name.toList.map fun n => ("name", n))
  return o

def fragment (t : ParseTree) : Converted Fragment := do
  let f ← t.whole "fragment_definition" do
    let nameTree ← Walk.next ["fragment_name"]
    let (name, span) ← Walk.lift (nameTree.nameToken "fragment_name")
    if name = "on" then Walk.lift (.error (.literal .fragmentName (some span)))
    match ← typeCondition with
    | none => Walk.lift (.error (.shape (.noTypeCondition name) t.span?))
    | some condition =>
      let directives ← directives
      let inner ← nextSelectionSet
      return Fragment.mk name condition directives inner
  checkNames [("name", f.name)]
  return f

end GraphQLDoc.Conversion
