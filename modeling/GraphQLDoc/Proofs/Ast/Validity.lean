import GraphQLDoc.Ast.Document
import GraphQLDoc.Text.Character

/-!
The rules that a well-formed document meets: names are names, integers have 64 bits, floats are
finite, no non-null mark stands on another, and a clause that an extension or a directive is known
by is not empty. What an operation or a field selects may be empty.
-/
namespace GraphQLDoc

def isValidName (name : String) : Bool := isName name.toList

instance : DecidablePred Binary64.IsCanonical
  | .finite _ _ _ => by unfold Binary64.IsCanonical; infer_instance
  | .infinite _ => .isTrue trivial
  | .nan => .isTrue trivial

def Binary64.isValid (x : Binary64) : Bool := x.isFinite && decide x.IsCanonical

def TypeRef.isValid : TypeRef → Bool
  | named name => isValidName name
  | list of => of.isValid
  | nonNull of => !of.isNonNull && of.isValid

mutual

def Value.isValid : Value → Bool
  | .int n => decide (minInt64 ≤ n ∧ n ≤ maxInt64)
  | .float x => x.isValid
  | .string _ _ | .boolean _ | .null => true
  | .enum name | .variableRef name => isValidName name
  | .list values => Value.areValid values
  | .object fields => Value.areValidFields fields

def Value.areValid : List Value → Bool
  | [] => true
  | v :: vs => v.isValid && Value.areValid vs

def Value.areValidFields : List (String × Value) → Bool
  | [] => true
  | (name, v) :: fs => isValidName name && v.isValid && Value.areValidFields fs

end

def Argument.isValid (a : Argument) : Bool := isValidName a.name && a.value.isValid

def Directive.isValid (d : Directive) : Bool := isValidName d.name && d.arguments.all (·.isValid)

def VariableDefinition.isValid (v : VariableDefinition) : Bool :=
  isValidName v.name && v.type.isValid && v.defaultValue.all (·.isValid) &&
    v.directives.all (·.isValid)

mutual

def Selection.isValid : Selection → Bool
  | .field alternative name arguments directives selectionSet =>
    alternative.all isValidName && isValidName name && arguments.all (·.isValid) &&
      directives.all (·.isValid) && Selection.isValidInner selectionSet
  | .fragmentSpread name directives => isValidName name && directives.all (·.isValid)
  | .inlineFragment condition directives selectionSet =>
    condition.all isValidName && directives.all (·.isValid) && Selection.areValid selectionSet

def Selection.isValidInner : Option (List Selection) → Bool
  | none => true
  | some ss => Selection.areValid ss

def Selection.areValid : List Selection → Bool
  | [] => true
  | s :: ss => s.isValid && Selection.areValid ss

end

def Operation.isValid (o : Operation) : Bool :=
  o.name.all isValidName && o.variableDefinitions.all (·.isValid) &&
    o.directives.all (·.isValid) && Selection.areValid o.selectionSet

def Fragment.isValid (f : Fragment) : Bool :=
  isValidName f.name && isValidName f.typeCondition && f.directives.all (·.isValid) &&
    Selection.areValid f.selectionSet

def RootTypes.isValid (r : RootTypes) : Bool :=
  r.query.all isValidName && r.mutation.all isValidName && r.subscription.all isValidName

def SchemaDefinition.isValid (s : SchemaDefinition) : Bool :=
  s.directives.all (·.isValid) && s.roots.isValid

def InputValueDefinition.isValid (v : InputValueDefinition) : Bool :=
  isValidName v.name && v.type.isValid && v.defaultValue.all (·.isValid) &&
    v.directives.all (·.isValid)

def FieldDefinition.isValid (f : FieldDefinition) : Bool :=
  isValidName f.name && f.arguments.all (·.isValid) && f.type.isValid && f.directives.all (·.isValid)

def EnumValueDefinition.isValid (v : EnumValueDefinition) : Bool :=
  isValidName v.name && v.directives.all (·.isValid)

def TypeBody.isValid : TypeBody → Bool
  | scalar => true
  | fields _ interfaces fs => interfaces.all isValidName && fs.all (·.isValid)
  | union members => members.all isValidName
  | enum values => values.all (·.isValid)
  | inputObject fs => fs.all (·.isValid)

def TypeDefinition.isValid (t : TypeDefinition) : Bool :=
  isValidName t.name && t.directives.all (·.isValid) && t.body.isValid

def DirectiveDefinition.isValid (d : DirectiveDefinition) : Bool :=
  isValidName d.name && d.arguments.all (·.isValid) && !d.locations.isEmpty

def SchemaExtension.isValid : SchemaExtension → Bool
  | withRoots directives roots => directives.all (·.isValid) && !roots.isEmpty && roots.isValid
  | withDirectives directives => !directives.isEmpty && directives.all (·.isValid)

def ExtensionBody.isValid : ExtensionBody → Bool
  | scalar directives | unionDirectives directives | enumDirectives directives
  | inputDirectives directives => !directives.isEmpty && directives.all (·.isValid)
  | fields _ interfaces directives fs =>
    interfaces.all isValidName && directives.all (·.isValid) &&
      (!fs.isEmpty && fs.all (·.isValid))
  | fieldsDirectives _ interfaces directives =>
    interfaces.all isValidName && (!directives.isEmpty && directives.all (·.isValid))
  | fieldsInterfaces _ interfaces => !interfaces.isEmpty && interfaces.all isValidName
  | unionMembers directives members =>
    directives.all (·.isValid) && (!members.isEmpty && members.all isValidName)
  | enumValues directives values =>
    directives.all (·.isValid) && (!values.isEmpty && values.all (·.isValid))
  | inputFields directives fs =>
    directives.all (·.isValid) && (!fs.isEmpty && fs.all (·.isValid))

def TypeExtension.isValid (e : TypeExtension) : Bool := isValidName e.name && e.body.isValid

def Definition.isValid : Definition → Bool
  | operation o => o.isValid
  | fragment f => f.isValid
  | schema s => s.isValid
  | type t => t.isValid
  | directive d => d.isValid
  | schemaExtension e => e.isValid
  | typeExtension e => e.isValid

/-- Whether a document meets the rules. -/
def Document.isValid (d : Document) : Bool := d.definitions.all (·.isValid)

end GraphQLDoc
