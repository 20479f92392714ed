import GraphQLDoc.Number.Binary64

/-!
The shortest decimal that reads back as a given binary64 number. The decimals that do are those in
an interval around the number. For one digit, two digits and so on the two neighbours of the number
on the grid of that many digits are tried; if any point of a grid lies in the interval, one of the
two does.
-/
namespace GraphQLDoc

/-- The value `digits * 10 ^ exponent`. -/
structure Decimal where
  digits : Nat
  exponent : Int
deriving DecidableEq

namespace Decimal

/-- The value as a quotient. -/
def ratio (d : Decimal) : Nat × Nat :=
  if 0 ≤ d.exponent then (d.digits * Nat.pow 10 d.exponent.toNat, 1)
  else (d.digits, Nat.pow 10 (-d.exponent).toNat)

/-- Moves final zeros from the digits to the exponent. -/
def strip : Nat → Decimal → Decimal
  | 0, d => d
  | n + 1, d =>
    if d.digits ≠ 0 ∧ d.digits % 10 = 0 then strip n ⟨d.digits / 10, d.exponent + 1⟩ else d

end Decimal

namespace Binary64

/-- The interval of the values that round to a number, as multiples of a quarter of its last place,
and whether the ends belong to it. -/
structure Interval where
  low : Nat
  high : Nat
  closed : Bool

/-- Half a place to either side; below a power of two the places are half as wide. -/
def interval (m : Nat) (e : Int) : Interval :=
  ⟨if m = leastFull ∧ e ≠ minExponent then 4 * m - 1 else 4 * m - 2, 4 * m + 2, m % 2 = 0⟩

/-- Whether a decimal rounds to the number `m * 2 ^ e`. -/
def covers (m : Nat) (e : Int) (d : Decimal) : Bool :=
  let i := interval m e
  let (num, den) := d.ratio
  let (a, b) := scale (4 * num) den e
  if i.closed then i.low * b ≤ a && a ≤ i.high * b else i.low * b < a && a < i.high * b

/-- The exponent of the first decimal digit of the positive number `m * 2 ^ e`. -/
def leadingExponent (m : Nat) (e : Int) : Int :=
  let (num, den) := scale m 1 (-e)
  if den ≤ num then (decimalLength (num / den) : Int) - 1
  else -(decimalLength ((den + num - 1) / num - 1) : Int)

/-- The better of the two neighbours with `n` digits that round to the number. -/
def neighbour? (m : Nat) (e : Int) (n : Nat) : Option Decimal :=
  let place := leadingExponent m e - n + 1
  let (num, den) := scale m 1 (-e)
  let (a, b) := if 0 ≤ place then (num, den * Nat.pow 10 place.toNat)
    else (num * Nat.pow 10 (-place).toNat, den)
  let low : Decimal := ⟨a / b, place⟩
  let high : Decimal := ⟨a / b + 1, place⟩
  match covers m e low, covers m e high with
  | true, true => some ⟨roundDiv a b, place⟩
  | true, false => some low
  | false, true => some high
  | false, false => none

/-- Seventeen digits tell any two numbers apart. -/
def shortest (m : Nat) (e : Int) : Decimal :=
  let found := ((List.range' 1 17).findSome? (neighbour? m e)).getD ⟨m, 0⟩
  found.strip 400

end Binary64

end GraphQLDoc
