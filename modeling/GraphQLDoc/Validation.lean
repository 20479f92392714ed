import GraphQLDoc.Ast.Encoding

/-!
Consistency of documents beyond what the grammar says. A document is checked against the type names
defined in its scope, which is the document itself or a workspace of several. Errors: a type defined
again, more than one schema, a reference to an undefined type, an interface `Node` that does not
declare exactly `id: ID!`. Warnings: an extension of an undefined type, an object or interface type
without fields.
-/
namespace GraphQLDoc.Validation

def builtinScalars : List String := ["Int", "Float", "String", "Boolean", "ID"]

/-- Built-in and introspection types need no definition. -/
def isKnown (defined : List String) (name : String) : Bool :=
  name ∈ defined || name ∈ builtinScalars || "__".toList.isPrefixOf name.toList

inductive Scope where
  | document
  | workspace

/-- What the types are referred to from. -/
inductive Reference where
  | field (owner name : String)
  | argument (owner name : String)
  | inputField (owner name : String)
  | root (o : OperationType)
  | implementedBy (type : String)
  | member (union : String)

inductive Error where
  | duplicateType (name : String)
  | severalSchemas (scope : Scope) (count : Nat)
  | undefinedType (from_ : Reference) (name : String)
  | nodeFieldCount
  | nodeField

inductive Warning where
  | danglingExtension (name : String)
  | noFields (name : String)

structure Result where
  warnings : List Warning
  errors : List Error

def Result.hasErrors (r : Result) : Bool := !r.errors.isEmpty

def Scope.word : Scope → String
  | .document => "Document"
  | .workspace => "Workspace"

def Reference.description : Reference → String
  | .field owner name => "Field '" ++ owner ++ "." ++ name ++ "'"
  | .argument owner name => "Argument '" ++ owner ++ "." ++ name ++ "'"
  | .inputField owner name => "Input field '" ++ owner ++ "." ++ name ++ "'"
  | .root o => "Schema root '" ++ o.word ++ "'"
  | .implementedBy type => "Type '" ++ type ++ "' implements"
  | .member union => "Union '" ++ union ++ "' member"

def Error.message : Error → String
  | .duplicateType name => "Type '" ++ name ++ "' is defined more than once"
  | .severalSchemas scope count =>
    scope.word ++ " defines " ++ String.ofList (Nat.toDigits 10 count) ++
      " schemas; at most one is allowed"
  | .undefinedType r name => r.description ++ " refers to undefined type '" ++ name ++ "'"
  | .nodeFieldCount => "Interface 'Node' must declare exactly one field, 'id: ID!'"
  | .nodeField => "Interface 'Node' must declare its field as 'id: ID!'"

def Warning.message : Warning → String
  | .danglingExtension name => "Extension of undefined type '" ++ name ++ "'"
  | .noFields name => "Type '" ++ name ++ "' has no fields"

/-- The names of the type definitions, in their order. -/
def definedNames (ds : List Definition) : List String :=
  (ds.filterMap Definition.type?).map (·.name)

def schemaCount (ds : List Definition) : Nat := (ds.filterMap Definition.schema?).length

/-! The references of a definition: pairs of what refers and the name referred to. -/

def inputReferences (of : String → Reference) (vs : List InputValueDefinition) :
    List (Reference × String) :=
  vs.map fun v => (of v.name, v.type.innermost)

def fieldReferences (owner : String) (fs : List FieldDefinition) : List (Reference × String) :=
  fs.flatMap fun f =>
    (.field owner f.name, f.type.innermost) ::
      inputReferences (.argument (owner ++ "." ++ f.name)) f.arguments

def interfaceReferences (type : String) (names : List String) : List (Reference × String) :=
  names.map fun n => (.implementedBy type, n)

def rootReferences (r : RootTypes) : List (Reference × String) :=
  OperationType.all.filterMap fun o => (r.get o).map fun n => (.root o, n)

def typeReferences (t : TypeDefinition) : Option (List (Reference × String)) :=
  match t.body with
  | .fields _ interfaces fields =>
    some (interfaceReferences t.name interfaces ++ fieldReferences t.name fields)
  | .union members => some (members.map fun m => (.member t.name, m))
  | .inputObject fields => some (inputReferences (.inputField t.name) fields)
  | _ => none

def extensionReferences (e : TypeExtension) : Option (List (Reference × String)) :=
  match e.body with
  | .fields _ interfaces _ fields =>
    some (interfaceReferences e.name interfaces ++ fieldReferences e.name fields)
  | .fieldsDirectives _ interfaces _ | .fieldsInterfaces _ interfaces =>
    some (interfaceReferences e.name interfaces)
  | .unionMembers _ members => some (members.map fun m => (.member e.name, m))
  | .inputFields _ fields => some (inputReferences (.inputField e.name) fields)
  | _ => none

/-- The type references of a definition of a kind that has them. -/
def references? : Definition → Option (List (Reference × String))
  | .schema s => some (rootReferences s.roots)
  | .schemaExtension (.withRoots _ roots) => some (rootReferences roots)
  | .directive d => some (inputReferences (.argument ("@" ++ d.name)) d.arguments)
  | .type t => typeReferences t
  | .typeExtension e => extensionReferences e
  | _ => none

/-- The kinds of definitions that refer to no type, or are not checked. -/
def referenceFreeKinds : List String :=
  ["scalar", "enum", "scalar_extension", "union_extension_with_directives",
    "enum_extension_with_values", "enum_extension_with_directives",
    "input_object_extension_with_directives", "schema_extension_with_directives", "operation",
    "fragment"]

/-- A definition of a kind that the checks know nothing of. -/
structure UnhandledKind where
  kind : String

def UnhandledKind.message (u : UnhandledKind) : String :=
  "Unhandled definition kind '" ++ u.kind ++ "'"

/-- The type references of a definition in source order. -/
def references (d : Definition) : Except UnhandledKind (List (Reference × String)) :=
  match references? d with
  | some rs => .ok rs
  | none => if d.kind ∈ referenceFreeKinds then .ok [] else .error ⟨d.kind⟩

/-- The names that are defined again, given those defined before. -/
def repeated : List String → List String → List String
  | _, [] => []
  | seen, n :: ns => if n ∈ seen then n :: repeated seen ns else repeated (n :: seen) ns

def schemaErrors (scope : Scope) (count : Nat) (d : Document) : List Error :=
  if 1 < count ∧ 0 < schemaCount d.definitions then [.severalSchemas scope count] else []

def undefinedErrors (defined : List String) (d : Document) : Except UnhandledKind (List Error) := do
  let found ← d.definitions.mapM references
  return found.flatten.filterMap fun (r, name) =>
    if isKnown defined name then none else some (.undefinedType r name)

/-- The one type that the field of `Node` has. -/
def nodeFieldType : TypeRef := .nonNull (.named "ID")

def nodeErrors (d : Document) : List Error :=
  match d.type? "Node" with
  | some ⟨_, _, _, .fields .interface _ fields⟩ =>
    match fields with
    | [f] => if f.name = "id" ∧ f.type = nodeFieldType then [] else [.nodeField]
    | _ => [.nodeFieldCount]
  | _ => []

def danglingWarnings (defined : List String) (d : Document) : List Warning :=
  d.definitions.filterMap fun
    | .typeExtension e => if e.name ∈ defined then none else some (.danglingExtension e.name)
    | _ => none

def emptyWarnings (d : Document) : List Warning :=
  d.definitions.filterMap fun
    | .type ⟨_, name, _, .fields _ _ []⟩ => some (.noFields name)
    | _ => none

/-- What a document is checked against. -/
structure Context where
  scope : Scope
  defined : List String
  schemas : Nat

/-- Checks one document; `seen` are the type names defined before it. -/
def check (c : Context) (seen : List String) (d : Document) : Except UnhandledKind Result := do
  let undefined ← undefinedErrors c.defined d
  return {
    warnings := danglingWarnings c.defined d ++ emptyWarnings d
    errors := (repeated seen (definedNames d.definitions)).map .duplicateType ++
      schemaErrors c.scope c.schemas d ++ undefined ++ nodeErrors d }

def contextOf (scope : Scope) (ds : List Definition) : Context :=
  ⟨scope, definedNames ds, schemaCount ds⟩

/-- Checks a document on its own. -/
def validate (d : Document) : Except UnhandledKind Result :=
  check (contextOf .document d.definitions) [] d

/-- Checks documents in their order, each after the types of those before it. -/
def checkAll (c : Context) :
    List String → List (String × Document) → Except UnhandledKind (List (String × Result))
  | _, [] => .ok []
  | seen, (key, d) :: rest => do
    let r ← check c seen d
    let rs ← checkAll c (seen ++ definedNames d.definitions) rest
    return (key, r) :: rs

/-- Checks the documents of a workspace as one schema. -/
def validateWorkspace (documents : List (String × Document)) :
    Except UnhandledKind (List (String × Result)) :=
  checkAll (contextOf .workspace (documents.flatMap fun (_, d) => d.definitions)) [] documents

end GraphQLDoc.Validation
