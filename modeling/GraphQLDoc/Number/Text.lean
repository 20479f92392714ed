import GraphQLDoc.Number.Shortest

/-!
How numbers are written. A float has the fewest digits that read back; it is positional from
10 ^ -4 up to 10 ^ 16, with a digit behind the point, and has an exponent of at least two digits
outside.
-/
namespace GraphQLDoc

def natText (n : Nat) : List Char := Nat.toDigits 10 n

def decimalText (n : Nat) : String := String.ofList (natText n)

def intText (n : Int) : List Char :=
  if n < 0 then '-' :: natText n.natAbs else natText n.natAbs

namespace Decimal

/-- A decimal with its point `point` places behind the front of its digits. -/
def positional (digits : List Char) (point : Int) : List Char :=
  if point ≤ 0 then '0' :: '.' :: (List.replicate (-point).toNat '0' ++ digits)
  else
    let n := point.toNat
    if digits.length ≤ n then digits ++ List.replicate (n - digits.length) '0' ++ ['.', '0']
    else digits.take n ++ '.' :: digits.drop n

/-- One digit, the others behind the point, and the exponent. -/
def scientific (digits : List Char) (exponent : Int) : List Char :=
  let mantissa := match digits with
    | [] => []
    | [d] => [d]
    | d :: ds => d :: '.' :: ds
  let size := natText exponent.natAbs
  mantissa ++ 'e' :: (if exponent < 0 then '-' else '+') ::
    (List.replicate (2 - size.length) '0' ++ size)

def text (d : Decimal) : List Char :=
  let digits := natText d.digits
  let exponent := d.exponent + digits.length - 1
  if -4 ≤ exponent ∧ exponent < 16 then positional digits (exponent + 1)
  else scientific digits exponent

end Decimal

namespace Binary64

/-- The words for the numbers that have no digits. -/
structure Words where
  nan : String
  infinity : String

def text (w : Words) : Binary64 → List Char
  | finite negative m e =>
    let size := if m = 0 then ['0', '.', '0'] else (shortest m e).text
    if negative then '-' :: size else size
  | infinite negative =>
    if negative then '-' :: w.infinity.toList else w.infinity.toList
  | nan => w.nan.toList

end Binary64

end GraphQLDoc
