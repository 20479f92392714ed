import GraphQLDoc.Ast.Document

/-!
How deep the nodes of a document are nested, as the guard against loops counts them that data are
written and read with. Types, values, sets of selections and the directives in these count; what
has its place in another node only counts as a part of that node. Where a type, a default value or a
set of selections begins, its outermost node counts twice, and so does the first list in a type or a
default value that begins with another kind of node.
-/
namespace GraphQLDoc

/-- The most that one of several is nested. -/
def nestingOf {α : Type} (nesting : α → Nat) (as : List α) : Nat :=
  as.foldr (fun a n => max (nesting a) n) 0

namespace TypeRef

/-- A type in a list. -/
def nesting : TypeRef → Nat
  | named _ => 1
  | list of | nonNull of => of.nesting + 1

/-- A type in nothing but non-null types. -/
def nestingInNonNull : TypeRef → Nat
  | named _ => 1
  | list of => of.nesting + 2
  | nonNull of => of.nestingInNonNull + 1

/-- A type that begins. -/
def nestingOfUse : TypeRef → Nat
  | named _ => 1
  | list of => of.nesting + 2
  | nonNull of => of.nestingInNonNull + 2

end TypeRef

namespace Value

mutual

/-- A value of an argument or in one. -/
def nesting : Value → Nat
  | .list values => nestingOfList values + 1
  | .object fields => nestingOfFields fields + 1
  | _ => 1

def nestingOfList : List Value → Nat
  | [] => 0
  | v :: vs => max v.nesting (nestingOfList vs)

def nestingOfFields : List (String × Value) → Nat
  | [] => 0
  | (_, v) :: fs => max v.nesting (nestingOfFields fs)

end

mutual

/-- A value in nothing but objects, these in a default value. -/
def nestingInObject : Value → Nat
  | .list values => nestingOfList values + 2
  | .object fields => nestingInFields fields + 1
  | _ => 1

def nestingInFields : List (String × Value) → Nat
  | [] => 0
  | (_, v) :: fs => max v.nestingInObject (nestingInFields fs)

end

/-- A default value. -/
def nestingOfDefault : Value → Nat
  | .list values => nestingOfList values + 2
  | .object fields => nestingInFields fields + 2
  | _ => 1

end Value

def Argument.nesting (a : Argument) : Nat := a.value.nesting

/-- A directive of a definition in which there are no selections, or of what is in such a one. -/
def Directive.nesting (d : Directive) : Nat := nestingOf Argument.nesting d.arguments

/-- A directive of what holds selections, or of a field. -/
def Directive.nestingBySelections (d : Directive) : Nat := d.nesting + 1

mutual

def Selection.nesting : Selection → Nat
  | .field _ _ arguments directives selectionSet =>
    max (max (nestingOf Argument.nesting arguments)
        (nestingOf Directive.nestingBySelections directives))
      (match selectionSet with
        | none => 0
        | some inner => Selection.nestingOfList inner + 1)
  | .fragmentSpread _ directives => nestingOf Directive.nesting directives
  | .inlineFragment _ directives inner =>
    max (nestingOf Directive.nestingBySelections directives) (Selection.nestingOfList inner + 1)

def Selection.nestingOfList : List Selection → Nat
  | [] => 0
  | s :: ss => max s.nesting (Selection.nestingOfList ss)

end

/-- A set of selections that begins. -/
def SelectionSet.nesting (s : SelectionSet) : Nat := Selection.nestingOfList s + 2

def VariableDefinition.nesting (v : VariableDefinition) : Nat :=
  max (max v.type.nestingOfUse (nestingOf Value.nestingOfDefault v.defaultValue.toList))
    (nestingOf Directive.nesting v.directives)

def Operation.nesting (o : Operation) : Nat :=
  max (max (nestingOf VariableDefinition.nesting o.variableDefinitions)
    (nestingOf Directive.nestingBySelections o.directives)) (SelectionSet.nesting o.selectionSet)

def Fragment.nesting (f : Fragment) : Nat :=
  max (nestingOf Directive.nestingBySelections f.directives) (SelectionSet.nesting f.selectionSet)

def InputValueDefinition.nesting (v : InputValueDefinition) : Nat :=
  max (max v.type.nestingOfUse (nestingOf Value.nestingOfDefault v.defaultValue.toList))
    (nestingOf Directive.nesting v.directives)

def FieldDefinition.nesting (f : FieldDefinition) : Nat :=
  max (max (nestingOf InputValueDefinition.nesting f.arguments) f.type.nestingOfUse)
    (nestingOf Directive.nesting f.directives)

def EnumValueDefinition.nesting (v : EnumValueDefinition) : Nat :=
  nestingOf Directive.nesting v.directives

def TypeBody.nesting : TypeBody → Nat
  | .scalar | .union _ => 0
  | .fields _ _ fs => nestingOf FieldDefinition.nesting fs
  | .enum values => nestingOf EnumValueDefinition.nesting values
  | .inputObject fs => nestingOf InputValueDefinition.nesting fs

def TypeDefinition.nesting (t : TypeDefinition) : Nat :=
  max (nestingOf Directive.nesting t.directives) t.body.nesting

def DirectiveDefinition.nesting (d : DirectiveDefinition) : Nat :=
  nestingOf InputValueDefinition.nesting d.arguments

def SchemaExtension.nesting : SchemaExtension → Nat
  | .withRoots directives _ | .withDirectives directives => nestingOf Directive.nesting directives

def ExtensionBody.nesting : ExtensionBody → Nat
  | .scalar directives | .unionDirectives directives | .enumDirectives directives
  | .inputDirectives directives | .fieldsDirectives _ _ directives
  | .unionMembers directives _ => nestingOf Directive.nesting directives
  | .fieldsInterfaces _ _ => 0
  | .fields _ _ directives fs =>
    max (nestingOf Directive.nesting directives) (nestingOf FieldDefinition.nesting fs)
  | .enumValues directives values =>
    max (nestingOf Directive.nesting directives) (nestingOf EnumValueDefinition.nesting values)
  | .inputFields directives fs =>
    max (nestingOf Directive.nesting directives) (nestingOf InputValueDefinition.nesting fs)

def Definition.nesting : Definition → Nat
  | .operation o => o.nesting
  | .fragment f => f.nesting
  | .schema s => nestingOf Directive.nesting s.directives
  | .type t => t.nesting
  | .directive d => d.nesting
  | .schemaExtension e => e.nesting
  | .typeExtension e => e.body.nesting

def Document.nesting (d : Document) : Nat := nestingOf Definition.nesting d.definitions

/-- The deepest nesting of nodes that is written as data or read from it. -/
def maxNesting : Nat := 255

end GraphQLDoc
