import GraphQLDoc.Token.Basic
import GraphQLDoc.Grammar.Production

/-!
Derivations and parse trees. A derivation shows every production and every token. A parse tree is
what is left of it for reading: inlined rules and repetitions give way to their children, and
keywords and punctuation are dropped, except for the keywords of the rules that keep them. A span
covers the dropped tokens too.

The tags of parse trees are plain strings, since a tree may also come from elsewhere; then a rule
may lack its span.
-/
namespace GraphQLDoc

inductive Derivation where
  | leaf (token : Token)
  | node (production : Production) (children : List Derivation)

inductive ParseTree where
  | token (tag : String) (text : String) (span : Span)
  | rule (tag : String) (span : Option Span) (children : List ParseTree)

namespace ParseTree

def tag : ParseTree → String
  | token tag _ _ => tag
  | rule tag _ _ => tag

def span? : ParseTree → Option Span
  | token _ _ span => some span
  | rule _ span _ => span

end ParseTree

/-- The span from the first of two regions to the second, either of which may be missing. -/
def Span.join : Option Span → Option Span → Option Span
  | some a, some b => some ⟨a.first, b.last⟩
  | some a, none => some a
  | none, b => b

namespace Derivation

mutual

/-- The tokens of a derivation from left to right. -/
def tokens : Derivation → List Token
  | leaf t => [t]
  | node _ children => tokensOfList children

def tokensOfList : List Derivation → List Token
  | [] => []
  | d :: ds => d.tokens ++ tokensOfList ds

end

def Token.isKept (keepsWords : Bool) (t : Token) : Bool :=
  match t.terminal with
  | .keyword _ => keepsWords
  | .punctuator _ => false
  | _ => true

mutual

/-- The trees that a derivation leaves in the node above it, which keeps its keywords or not, and
the region that it covers. -/
def trees (keepsWords : Bool) : Derivation → List ParseTree × Option Span
  | leaf t =>
    (if Token.isKept keepsWords t
      then [.token t.terminal.tag (String.ofList t.text) t.span] else [], some t.span)
  | node p children =>
    match p.head with
    | .rule r =>
      let (inner, span) := treesOfList r.keepsWords children
      (if r.inlined then inner else [.rule r.tag span inner], span)
    | _ => treesOfList false children

def treesOfList (keepsWords : Bool) : List Derivation → List ParseTree × Option Span
  | [] => ([], none)
  | d :: ds =>
    let (front, first) := d.trees keepsWords
    let (back, last) := treesOfList keepsWords ds
    (front ++ back, Span.join first last)

end

/-- The parse tree of a derivation from a rule that has nodes of its own. -/
def toTree (d : Derivation) : Option ParseTree := (d.trees false).1.head?

end Derivation

end GraphQLDoc
