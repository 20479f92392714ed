import GraphQLDoc.Text.Newlines

/-!
Block strings. Between the quotes only the escaped triple quote is interpreted. The indentation that
all lines but the first share is cut from them, and blank lines at both ends are dropped.
-/
namespace GraphQLDoc.Block

def isIndent (c : Char) : Bool := c == ' ' || c == '\t'

def indentOf (line : List Char) : Nat := (line.takeWhile isIndent).length

def isBlankLine (line : List Char) : Bool := line.all isIndent

/-- The least indentation of the lines that are not blank, if there is one. -/
def commonIndent (lines : List (List Char)) : Option Nat :=
  ((lines.filter fun line => !isBlankLine line).map indentOf).min?

/-- Drops blank lines at the front and at the end. -/
def trimBlank (lines : List (List Char)) : List (List Char) :=
  ((lines.dropWhile isBlankLine).reverse.dropWhile isBlankLine).reverse

def dedentLines : List (List Char) → List (List Char)
  | [] => []
  | first :: rest =>
    let cut := (commonIndent rest).getD 0
    trimBlank (first :: rest.map (·.drop cut))

/-- The value of the raw text of a block string. Any line break separates lines. -/
def dedent (raw : List Char) : List Char :=
  joinLines (dedentLines (splitLines (normalizeNewlines raw)))

/-- Replaces each escaped triple quote. -/
def unescape : List Char → List Char
  | '\\' :: '"' :: '"' :: '"' :: cs => '"' :: '"' :: '"' :: unescape cs
  | c :: cs => c :: unescape cs
  | [] => []

/-- What is left of a literal without three characters at each end. -/
def body (literal : List Char) : List Char :=
  (literal.take (literal.length - 3)).drop 3

/-- The value of a block string with its quotes. -/
def decode (literal : List Char) : List Char := dedent (unescape (body literal))

end GraphQLDoc.Block
