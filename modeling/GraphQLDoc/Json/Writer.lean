import GraphQLDoc.Json.Basic
import GraphQLDoc.Number.Text
import GraphQLDoc.Text.Quoted

/-!
Writing JSON. Everything outside printable ASCII is escaped, characters beyond U+FFFF as two
surrogates. A layout fixes the separators; with an indent every item
stands on a line of its own.
-/
namespace GraphQLDoc.Json

structure Layout where
  itemSeparator : List Char
  keySeparator : List Char
  /-- The blanks for each level, if items stand on lines of their own. -/
  indent : Option Nat

namespace Layout

def compact : Layout := ⟨[','], [':'], none⟩

def spaced : Layout := ⟨[',', ' '], [':', ' '], none⟩

/-- Items on lines of their own; a width that is not positive indents by nothing. -/
def indented (width : Int) : Layout := ⟨[','], [':', ' '], some width.toNat⟩

/-- What stands in front of an item, or of the closing bracket, at a level. -/
def newLine (l : Layout) (level : Nat) : List Char :=
  match l.indent with
  | none => []
  | some width => '\n' :: List.replicate (width * level) ' '

end Layout

def unitEscape (n : Nat) : List Char := '\\' :: 'u' :: hexDigits 4 n

/-- One code point inside a JSON string. -/
def escapePoint (n : Nat) : List Char :=
  if n = '"'.toNat then ['\\', '"']
  else if n = '\\'.toNat then ['\\', '\\']
  else if n = '\n'.toNat then ['\\', 'n']
  else if n = '\r'.toNat then ['\\', 'r']
  else if n = '\t'.toNat then ['\\', 't']
  else if n = 8 then ['\\', 'b']
  else if n = 12 then ['\\', 'f']
  else if 0x20 ≤ n ∧ n ≤ 0x7E then [Char.ofNat n]
  else if n < 0x10000 then unitEscape n
  else unitEscape (0xD800 + (n - 0x10000) / 0x400) ++ unitEscape (0xDC00 + (n - 0x10000) % 0x400)

def stringLiteral (points : List Nat) : List Char :=
  '"' :: points.flatMap escapePoint ++ ['"']

def numberWords : Binary64.Words := ⟨"NaN", "Infinity"⟩

mutual

/-- Writes a value that stands at a level of nesting. -/
def write (l : Layout) (level : Nat) : Json → List Char
  | null => "null".toList
  | bool b => if b then "true".toList else "false".toList
  | int n => intText n
  | float x => x.text numberWords
  | string s => stringLiteral s.points
  | array [] => ['[', ']']
  | array (v :: vs) =>
    '[' :: l.newLine (level + 1) ++ write l (level + 1) v ++ writeItems l (level + 1) vs ++
      l.newLine level ++ [']']
  | object [] => ['\x7b', '\x7d']
  | object ((k, v) :: es) =>
    '\x7b' :: l.newLine (level + 1) ++ stringLiteral k.points ++ l.keySeparator ++
      write l (level + 1) v ++ writeEntries l (level + 1) es ++ l.newLine level ++ ['\x7d']

def writeItems (l : Layout) (level : Nat) : List Json → List Char
  | [] => []
  | v :: vs => l.itemSeparator ++ l.newLine level ++ write l level v ++ writeItems l level vs

def writeEntries (l : Layout) (level : Nat) : List (JsonString × Json) → List Char
  | [] => []
  | (k, v) :: es =>
    l.itemSeparator ++ l.newLine level ++ stringLiteral k.points ++ l.keySeparator ++
      write l level v ++ writeEntries l level es

end

def render (l : Layout) (v : Json) : String := String.ofList (write l 0 v)

end GraphQLDoc.Json
