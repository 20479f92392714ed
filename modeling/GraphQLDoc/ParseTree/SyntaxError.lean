import GraphQLDoc.Text.Position
import GraphQLDoc.Text.Quoted
import GraphQLDoc.Grammar.Terminal

/-!
Syntax errors: what was found, where, and what would have gone on.
-/
namespace GraphQLDoc

/-- What a syntax error found in place of a wanted terminal. -/
inductive Found where
  | token (text : List Char)
  | character (c : Char)
  | endOfInput
deriving DecidableEq

namespace Found

def description : Found → String
  | token text => "'" ++ String.ofList text ++ "'"
  | character c => "character " ++ Quoted.ofChar c
  | endOfInput => "end of input"

end Found

structure SyntaxError where
  found : Found
  span : Span
  expected : List String
  context : String
deriving DecidableEq

namespace SyntaxError

def detail (e : SyntaxError) : String :=
  let found := "Unexpected " ++ e.found.description
  if e.expected.isEmpty then found
  else found ++ ", expected one of: " ++ ", ".intercalate e.expected

end SyntaxError

def Lookahead.description : Lookahead → String
  | none => "end of input"
  | some t => t.description

/-- How a set of lookaheads is listed: keywords go without saying where any name will do, and the
list is sorted. -/
def Lookahead.list (ls : List Lookahead) : List String :=
  let telling := if some .name ∈ ls then ls.filter fun l => !(l.any Terminal.isKeyword) else ls
  (telling.map Lookahead.description).eraseDups.mergeSort (· ≤ ·)

end GraphQLDoc
