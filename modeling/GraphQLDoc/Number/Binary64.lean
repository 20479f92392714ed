/-!
Floating-point numbers of the binary64 format, as exact values: a finite number is a sign, a
significand and a power of two. Rounding is to nearest, ties to the even significand, in exact
arithmetic on natural numbers.
-/
namespace GraphQLDoc

inductive Binary64 where
  | finite (negative : Bool) (significand : Nat) (exponent : Int)
  | infinite (negative : Bool)
  | nan
deriving DecidableEq

namespace Binary64

/-- The exponent of the smallest positive number. -/
def minExponent : Int := -1074

/-- The largest exponent of a finite number. -/
def maxExponent : Int := 971

/-- The least significand of 53 bits. -/
def leastFull : Nat := Nat.pow 2 52

/-- One more than the greatest significand of 53 bits. -/
def significandBound : Nat := Nat.pow 2 53

/-- The form that each number has once: 53 bits, or fewer at the least exponent. -/
def IsCanonical : Binary64 → Prop
  | finite _ m e =>
    (leastFull ≤ m ∧ m < significandBound ∧ minExponent ≤ e ∧ e ≤ maxExponent) ∨
      (m < leastFull ∧ e = minExponent)
  | _ => True

def isFinite : Binary64 → Bool
  | finite .. => true
  | _ => false

def zero (negative : Bool) : Binary64 := finite negative 0 minExponent

/-- The quotient `a / b` rounded to nearest, a tie to the even neighbour. -/
def roundDiv (a b : Nat) : Nat :=
  let q := a / b
  let r := a % b
  if 2 * r < b ∨ (2 * r = b ∧ q % 2 = 0) then q else q + 1

/-- The two terms of the quotient `num / den / 2 ^ e`. -/
def scale (num den : Nat) (e : Int) : Nat × Nat :=
  if 0 ≤ e then (num, den * Nat.pow 2 e.toNat) else (num * Nat.pow 2 (-e).toNat, den)

/-- The least exponent at which the significand of a positive quotient has at most 53 bits. -/
def exponentOf (num den : Nat) : Int :=
  let guess := max minExponent ((num.log2 : Int) - den.log2 - 53)
  let (a, b) := scale num den guess
  if significandBound ≤ a / b then guess + 1 else guess

/-- The number nearest to `num / den`. -/
def ofRatio (negative : Bool) (num den : Nat) : Binary64 :=
  if num = 0 then zero negative
  else
    let e := exponentOf num den
    let (a, b) := scale num den e
    let m := roundDiv a b
    let (m, e) := if m = significandBound then (leastFull, e + 1) else (m, e)
    if maxExponent < e then infinite negative else finite negative m e

def ofInt (n : Int) : Binary64 := ofRatio (n < 0) n.natAbs 1

def decimalLength (n : Nat) : Nat := (Nat.toDigits 10 n).length

/-- The number nearest to `digits * 10 ^ exponent`. Beyond 10 ^ 310 and below 10 ^ -330 the answer
is known without computing the power. -/
def ofDecimal (negative : Bool) (digits : Nat) (exponent : Int) : Binary64 :=
  if digits = 0 then zero negative
  else
    let top := (decimalLength digits : Int) + exponent
    if 311 ≤ top then infinite negative
    else if top ≤ -330 then zero negative
    else if 0 ≤ exponent then ofRatio negative (digits * Nat.pow 10 exponent.toNat) 1
    else ofRatio negative digits (Nat.pow 10 (-exponent).toNat)

/-- Equality of values: the two zeros are equal, and nothing equals NaN. -/
def eqv : Binary64 → Binary64 → Bool
  | finite n m e, finite n' m' e' => m == m' && e == e' && (n == n' || m == 0)
  | infinite n, infinite n' => n == n'
  | _, _ => false

/-- The integer that a number is equal to, if it is one. -/
def toInt? : Binary64 → Option Int
  | finite n m e =>
    let value : Option Nat :=
      if 0 ≤ e then some (m * Nat.pow 2 e.toNat)
      else if m % Nat.pow 2 (-e).toNat = 0 then some (m / Nat.pow 2 (-e).toNat) else none
    value.map fun v => if n then -(v : Int) else v
  | _ => none

end Binary64

end GraphQLDoc
