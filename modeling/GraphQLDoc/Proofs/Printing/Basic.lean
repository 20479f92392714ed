import GraphQLDoc.Ast.Document
import GraphQLDoc.Json.Writer
import GraphQLDoc.Proofs.Conversion.Executable
import GraphQLDoc.Proofs.ParseTree.Spelled

/-!
Documents as text. A node is written word by word, and the words stand apart by single spaces.
Clauses that hold nothing are left out, operations have their keyword, root types stand in the order
of the operations, strings are those of JSON, and floats have the fewest digits that read back.
-/
namespace GraphQLDoc

def Keyword.spelled (k : Keyword) : Word := (.keyword k, k.word.toList)

def Punctuator.spelled (p : Punctuator) : Word := (.punctuator p, p.word.toList)

/-- The root types in the order of the operations. -/
def RootTypes.entries (r : RootTypes) : List (OperationType × String) :=
  OperationType.all.filterMap fun o => (r.get o).map fun n => (o, n)

namespace Printing

/-- A name is read as a keyword if it is one. -/
def name (n : String) : Word :=
  match Keyword.all.find? (·.word == n) with
  | some k => k.spelled
  | none => (.name, n.toList)

def string (s : JsonString) : Word := (.string, Json.stringLiteral s.points)

def optional {α : Type} (words : α → List Word) : Option α → List Word
  | none => []
  | some a => words a

/-- Items between two marks, unless there are none. -/
def block {α : Type} (opening closing : Punctuator) (words : α → List Word) : List α → List Word
  | [] => []
  | as => opening.spelled :: (as.flatMap words ++ [closing.spelled])

/-- Items behind a word, apart from each other by a mark, unless there are none. -/
def separated {α : Type} (front : Word) (mark : Punctuator) (words : α → List Word) :
    List α → List Word
  | [] => []
  | a :: as => front :: (words a ++ as.flatMap fun a => mark.spelled :: words a)

def typeRef : TypeRef → List Word
  | .named n => [name n]
  | .list of => Punctuator.bracketLeft.spelled :: (typeRef of ++ [Punctuator.bracketRight.spelled])
  | .nonNull of => typeRef of ++ [Punctuator.bang.spelled]

mutual

def value : Value → List Word
  | .int n => [(.int, intText n)]
  | .float x => [(.float, x.text Json.numberWords)]
  | .string text _ => [string text]
  | .boolean b => [if b then Keyword.trueValue.spelled else Keyword.falseValue.spelled]
  | .null => [Keyword.nullValue.spelled]
  | .enum n => [name n]
  | .variableRef n => [Punctuator.dollar.spelled, name n]
  | .list vs => Punctuator.bracketLeft.spelled :: (values vs ++ [Punctuator.bracketRight.spelled])
  | .object fs =>
    Punctuator.braceLeft.spelled :: (objectFields fs ++ [Punctuator.braceRight.spelled])

def values : List Value → List Word
  | [] => []
  | v :: vs => value v ++ values vs

def objectFields : List (String × Value) → List Word
  | [] => []
  | (n, v) :: fs => name n :: Punctuator.colon.spelled :: (value v ++ objectFields fs)

end

theorem values_eq (vs : List Value) : values vs = vs.flatMap value := by
  induction vs with
  | nil => rfl
  | cons v vs ih => rw [values, ih, List.flatMap_cons]

theorem objectFields_eq (fs : List (String × Value)) : objectFields fs =
    fs.flatMap fun f => name f.1 :: Punctuator.colon.spelled :: value f.2 := by
  induction fs with
  | nil => rfl
  | cons f fs ih =>
    obtain ⟨n, v⟩ := f
    rw [objectFields, ih, List.flatMap_cons]
    rfl

def argument (a : Argument) : List Word :=
  name a.name :: Punctuator.colon.spelled :: value a.value

def arguments : List Argument → List Word := block .parenLeft .parenRight argument

def directive (d : Directive) : List Word :=
  Punctuator.atSign.spelled :: name d.name :: arguments d.arguments

def directives (ds : List Directive) : List Word := ds.flatMap directive

def defaultValue : Option Value → List Word :=
  optional fun v => Punctuator.equals.spelled :: value v

/-! Executable definitions. -/

def variableDefinition (v : VariableDefinition) : List Word :=
  Punctuator.dollar.spelled :: name v.name :: Punctuator.colon.spelled ::
    (typeRef v.type ++ (defaultValue v.defaultValue ++ directives v.directives))

def typeCondition (n : String) : List Word := [Keyword.on.spelled, name n]

def fieldAlias (n : String) : List Word := [name n, Punctuator.colon.spelled]

mutual

def selection : Selection → List Word
  | .field alternative n as ds inner =>
    optional fieldAlias alternative ++
      name n :: (arguments as ++ (directives ds ++ innerSelections inner))
  | .fragmentSpread n ds => Punctuator.spread.spelled :: name n :: directives ds
  | .inlineFragment condition ds inner =>
    Punctuator.spread.spelled :: (optional typeCondition condition ++ (directives ds ++
      (Punctuator.braceLeft.spelled :: (selections inner ++ [Punctuator.braceRight.spelled]))))

def innerSelections : Option (List Selection) → List Word
  | none => []
  | some ss => Punctuator.braceLeft.spelled :: (selections ss ++ [Punctuator.braceRight.spelled])

def selections : List Selection → List Word
  | [] => []
  | s :: ss => selection s ++ selections ss

end

theorem selections_eq (ss : List Selection) : selections ss = ss.flatMap selection := by
  induction ss with
  | nil => rfl
  | cons s ss ih => rw [selections, ih, List.flatMap_cons]

def selectionSet (ss : SelectionSet) : List Word :=
  Punctuator.braceLeft.spelled :: (selections ss ++ [Punctuator.braceRight.spelled])

def operation (o : Operation) : List Word :=
  o.operationType.keyword.spelled :: (optional (fun n => [name n]) o.name ++
    (block .parenLeft .parenRight variableDefinition o.variableDefinitions ++
      (directives o.directives ++ selectionSet o.selectionSet)))

def fragment (f : Fragment) : List Word :=
  Keyword.fragment.spelled :: name f.name :: (typeCondition f.typeCondition ++
    (directives f.directives ++ selectionSet f.selectionSet))

/-! Type system definitions and extensions. -/

def description : Option JsonString → List Word := optional fun s => [string s]

def interfaces : List String → List Word :=
  separated Keyword.implements.spelled .ampersand fun n => [name n]

def unionMembers : List String → List Word :=
  separated Punctuator.equals.spelled .pipe fun n => [name n]

def locations : List DirectiveLocation → List Word :=
  separated Keyword.on.spelled .pipe fun l => [name l.word]

def inputValueDefinition (v : InputValueDefinition) : List Word :=
  description v.description ++ name v.name :: Punctuator.colon.spelled ::
    (typeRef v.type ++ (defaultValue v.defaultValue ++ directives v.directives))

def argumentsDefinition : List InputValueDefinition → List Word :=
  block .parenLeft .parenRight inputValueDefinition

def inputFields : List InputValueDefinition → List Word :=
  block .braceLeft .braceRight inputValueDefinition

def fieldDefinition (f : FieldDefinition) : List Word :=
  description f.description ++ name f.name :: (argumentsDefinition f.arguments ++
    Punctuator.colon.spelled :: (typeRef f.type ++ directives f.directives))

def fields : List FieldDefinition → List Word := block .braceLeft .braceRight fieldDefinition

def enumValueDefinition (v : EnumValueDefinition) : List Word :=
  description v.description ++ name v.name :: directives v.directives

def enumValues : List EnumValueDefinition → List Word :=
  block .braceLeft .braceRight enumValueDefinition

def rootEntry (e : OperationType × String) : List Word :=
  [e.1.keyword.spelled, Punctuator.colon.spelled, name e.2]

def rootTypes (r : RootTypes) : List Word := block .braceLeft .braceRight rootEntry r.entries

def schemaDefinition (s : SchemaDefinition) : List Word :=
  description s.description ++
    Keyword.schema.spelled :: (directives s.directives ++ rootTypes s.roots)

/-- The keyword of the types that have fields. -/
def fieldsKeyword : FieldOwner → Keyword
  | .object => .type
  | .interface => .interface

/-- The keyword of a type. -/
def typeKeyword : TypeBody → Keyword
  | .scalar => .scalar
  | .fields owner _ _ => fieldsKeyword owner
  | .union _ => .union
  | .enum _ => .enum
  | .inputObject _ => .input

/-- What stands behind the name of a type. -/
def typeBody (ds : List Directive) : TypeBody → List Word
  | .scalar => directives ds
  | .fields _ ns fs => interfaces ns ++ (directives ds ++ fields fs)
  | .union ns => directives ds ++ unionMembers ns
  | .enum vs => directives ds ++ enumValues vs
  | .inputObject fs => directives ds ++ inputFields fs

def typeDefinition (t : TypeDefinition) : List Word :=
  description t.description ++
    (typeKeyword t.body).spelled :: name t.name :: typeBody t.directives t.body

def repeatable (b : Bool) : List Word := if b then [Keyword.repeatable.spelled] else []

def directiveDefinition (d : DirectiveDefinition) : List Word :=
  description d.description ++ Keyword.directive.spelled :: Punctuator.atSign.spelled ::
    name d.name :: (argumentsDefinition d.arguments ++
      (repeatable d.repeatable ++ locations d.locations))

def schemaExtension (e : SchemaExtension) : List Word :=
  Keyword.extend.spelled :: Keyword.schema.spelled :: match e with
    | .withRoots ds roots => directives ds ++ rootTypes roots
    | .withDirectives ds => directives ds

/-- The keyword of a type that is extended. -/
def extensionKeyword : ExtensionBody → Keyword
  | .scalar _ => .scalar
  | .fields owner _ _ _ | .fieldsDirectives owner _ _ | .fieldsInterfaces owner _ =>
    fieldsKeyword owner
  | .unionMembers _ _ | .unionDirectives _ => .union
  | .enumValues _ _ | .enumDirectives _ => .enum
  | .inputFields _ _ | .inputDirectives _ => .input

/-- What stands behind the name of a type that is extended. -/
def extensionBody : ExtensionBody → List Word
  | .scalar ds | .unionDirectives ds | .enumDirectives ds | .inputDirectives ds => directives ds
  | .fields _ ns ds fs => interfaces ns ++ (directives ds ++ fields fs)
  | .fieldsDirectives _ ns ds => interfaces ns ++ directives ds
  | .fieldsInterfaces _ ns => interfaces ns
  | .unionMembers ds ns => directives ds ++ unionMembers ns
  | .enumValues ds vs => directives ds ++ enumValues vs
  | .inputFields ds fs => directives ds ++ inputFields fs

def typeExtension (e : TypeExtension) : List Word :=
  Keyword.extend.spelled :: (extensionKeyword e.body).spelled :: name e.name ::
    extensionBody e.body

def definition : Definition → List Word
  | .operation o => operation o
  | .fragment f => fragment f
  | .schema s => schemaDefinition s
  | .type t => typeDefinition t
  | .directive d => directiveDefinition d
  | .schemaExtension e => schemaExtension e
  | .typeExtension e => typeExtension e

def document (d : Document) : List Word := d.definitions.flatMap definition

end Printing

/-- The text of a document: its words with single spaces between them. -/
def Document.print (d : Document) : List Char := spellOut (Printing.document d)

end GraphQLDoc
