import GraphQLDoc.Text.Printable

/-!
Quoted text in messages: what cannot be printed is escaped. The quotes are single, or double where
the text holds a single quote and no double one. The text is given by its code points, which may
include surrogates.
-/
namespace GraphQLDoc

/-- Lower-case hexadecimal digits, at least `width` of them. -/
def hexDigits (width n : Nat) : List Char :=
  let digits := Nat.toDigits 16 n
  List.replicate (width - digits.length) '0' ++ digits

namespace Quoted

/-- One code point inside the quotes. -/
def escape (quote : Char) (point : Nat) : List Char :=
  if point = quote.toNat ∨ point = '\\'.toNat then ['\\', Char.ofNat point]
  else if point = '\n'.toNat then ['\\', 'n']
  else if point = '\r'.toNat then ['\\', 'r']
  else if point = '\t'.toNat then ['\\', 't']
  else if isPrintable point then [Char.ofNat point]
  else if point ≤ 0xFF then '\\' :: 'x' :: hexDigits 2 point
  else if point ≤ 0xFFFF then '\\' :: 'u' :: hexDigits 4 point
  else '\\' :: 'U' :: hexDigits 8 point

def quoteFor (points : List Nat) : Char :=
  if '\''.toNat ∈ points ∧ '"'.toNat ∉ points then '"' else '\''

/-- A quoted text, by code points. -/
def ofPoints (points : List Nat) : String :=
  let quote := quoteFor points
  String.ofList (quote :: points.flatMap (escape quote) ++ [quote])

def ofString (s : String) : String := ofPoints (s.toList.map Char.toNat)

def ofChar (c : Char) : String := ofPoints [c.toNat]

end Quoted

end GraphQLDoc
