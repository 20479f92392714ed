import GraphQLDoc.Ast.Value

/-!
Executable definitions: operations, fragments and what they select.
-/
namespace GraphQLDoc

inductive OperationType where
  | query | mutation | subscription
deriving DecidableEq

namespace OperationType

def all : List OperationType := [query, mutation, subscription]

def word : OperationType → String
  | query => "query" | mutation => "mutation" | subscription => "subscription"

def ofWord? (w : String) : Option OperationType := all.find? (·.word == w)

end OperationType

inductive Selection where
  | field (alternative : Option String) (name : String) (arguments : List Argument)
      (directives : List Directive) (selectionSet : Option (List Selection))
  | fragmentSpread (name : String) (directives : List Directive)
  | inlineFragment (typeCondition : Option String) (directives : List Directive)
      (selectionSet : List Selection)

abbrev SelectionSet := List Selection

structure VariableDefinition where
  name : String
  type : TypeRef
  defaultValue : Option Value
  directives : List Directive

/-- A query, mutation or subscription. A bare selection set is an unnamed query. -/
structure Operation where
  operationType : OperationType
  name : Option String
  variableDefinitions : List VariableDefinition
  directives : List Directive
  selectionSet : SelectionSet

structure Fragment where
  name : String
  typeCondition : String
  directives : List Directive
  selectionSet : SelectionSet

/-- The key of a field in a response: its alias, if it has one. -/
def responseKey (alternative : Option String) (name : String) : String :=
  alternative.getD name

end GraphQLDoc
