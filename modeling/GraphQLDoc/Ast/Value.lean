import GraphQLDoc.Json.Basic

/-!
Type references, a named type that may be wrapped in lists and non-null marks, and input values with
arguments and directives. Object fields, arguments and directives keep their order and
are not deduplicated. A string need not be a text: escapes in data can name a lone surrogate.
-/
namespace GraphQLDoc

inductive TypeRef where
  | named (name : String)
  | list (of : TypeRef)
  | nonNull (of : TypeRef)
deriving DecidableEq

namespace TypeRef

def isNonNull : TypeRef → Bool
  | nonNull _ => true
  | _ => false

/-- The innermost name. -/
def innermost : TypeRef → String
  | named name => name
  | list of => of.innermost
  | nonNull of => of.innermost

inductive Wrapper where
  | list
  | nonNull
deriving DecidableEq

/-- The wrappers from the outside in. -/
def wrappers : TypeRef → List Wrapper
  | named _ => []
  | list of => .list :: of.wrappers
  | nonNull of => .nonNull :: of.wrappers

/-- Puts one wrapper around a type. -/
def wrap (of : TypeRef) : Wrapper → TypeRef
  | .list => .list of
  | .nonNull => .nonNull of

end TypeRef

inductive Value where
  | int (n : Int)
  | float (x : Binary64)
  | string (text : JsonString) (block : Bool)
  | boolean (b : Bool)
  | null
  | enum (name : String)
  | variableRef (name : String)
  | list (values : List Value)
  | object (fields : List (String × Value))

def minInt64 : Int := -9223372036854775808

def maxInt64 : Int := 9223372036854775807

structure Argument where
  name : String
  value : Value

structure Directive where
  name : String
  arguments : List Argument

end GraphQLDoc
