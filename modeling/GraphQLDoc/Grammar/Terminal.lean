/-!
The terminals of the GraphQL grammar: names and literals, which have patterns, and keywords and
punctuators, which are fixed words. Keywords are not reserved: a rule that takes a name takes the
keywords too.
-/
namespace GraphQLDoc

inductive Keyword where
  | query | mutation | subscription | fragment | on
  | schema | scalar | type | interface | implements | union
  | enum | input | extend | directive | repeatable
  | trueValue | falseValue | nullValue
deriving DecidableEq

namespace Keyword

def all : List Keyword :=
  [query, mutation, subscription, fragment, on, schema, scalar, type, interface, implements, union,
    enum, input, extend, directive, repeatable, trueValue, falseValue, nullValue]

def word : Keyword → String
  | query => "query" | mutation => "mutation" | subscription => "subscription"
  | fragment => "fragment" | on => "on" | schema => "schema" | scalar => "scalar" | type => "type"
  | interface => "interface" | implements => "implements" | union => "union" | enum => "enum"
  | input => "input" | extend => "extend" | directive => "directive" | repeatable => "repeatable"
  | trueValue => "true" | falseValue => "false" | nullValue => "null"

theorem mem_all (k : Keyword) : k ∈ all := by cases k <;> decide

end Keyword

inductive Punctuator where
  | bang | dollar | ampersand | parenLeft | parenRight | spread | colon | equals | atSign
  | bracketLeft | bracketRight | braceLeft | pipe | braceRight
deriving DecidableEq

namespace Punctuator

def all : List Punctuator :=
  [bang, dollar, ampersand, parenLeft, parenRight, spread, colon, equals, atSign, bracketLeft,
    bracketRight, braceLeft, pipe, braceRight]

def word : Punctuator → String
  | bang => "!" | dollar => "$" | ampersand => "&" | parenLeft => "(" | parenRight => ")"
  | spread => "..." | colon => ":" | equals => "=" | atSign => "@" | bracketLeft => "["
  | bracketRight => "]" | braceLeft => "\x7b" | pipe => "|" | braceRight => "\x7d"

theorem mem_all (p : Punctuator) : p ∈ all := by cases p <;> decide

end Punctuator

inductive Terminal where
  | name | int | float | string | blockString
  | keyword (k : Keyword)
  | punctuator (p : Punctuator)
deriving DecidableEq

namespace Terminal

def all : List Terminal :=
  [name, int, float, string, blockString] ++ Keyword.all.map keyword ++
    Punctuator.all.map punctuator

theorem mem_all (t : Terminal) : t ∈ all := by
  cases t with
  | keyword k => simp [all, Keyword.mem_all]
  | punctuator p => simp [all, Punctuator.mem_all]
  | _ => decide

/-- The tag that a token of this terminal has in a parse tree: upper case for keywords as for
literals. -/
def tag : Terminal → String
  | name => "NAME" | int => "INT" | float => "FLOAT" | string => "STRING"
  | blockString => "BLOCK_STRING"
  | keyword k => String.ofList (k.word.toList.map Char.toUpper)
  | punctuator p => p.word

/-- How an error message names the terminal: a fixed word in quotes, a pattern by its tag. -/
def description : Terminal → String
  | keyword k => "'" ++ k.word ++ "'"
  | punctuator p => "'" ++ p.word ++ "'"
  | t => t.tag

def isKeyword : Terminal → Bool
  | keyword _ => true
  | _ => false

end Terminal

/-- What may come next: a terminal, or the end of the input. -/
abbrev Lookahead := Option Terminal

end GraphQLDoc
