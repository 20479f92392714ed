import GraphQLDoc.Grammar.Terminal
import GraphQLDoc.Text.Character

/-!
The patterns of the terminals. Each pattern gives the length of its match at the front of a text;
where several lengths would match it takes the one described, never a shorter one.
-/
namespace GraphQLDoc.Pattern

def name : List Char → Option Nat
  | [] => none
  | c :: cs => if isNameStart c then some (1 + (cs.takeWhile isNameRest).length) else none

/-- A number may not be directly followed by a name character or a dot. -/
def endsNumber : List Char → Bool
  | [] => true
  | c :: _ => !(isNameRest c || c == '.')

/-- The length of a run of digits, which has at least one. -/
def digits (cs : List Char) : Option Nat :=
  match (cs.takeWhile isDigit).length with
  | 0 => none
  | n => some n

def minus : List Char → Nat
  | '-' :: _ => 1
  | _ => 0

/-- A zero, or a run of digits that does not start with zero. -/
def magnitude : List Char → Option Nat
  | '0' :: _ => some 1
  | cs => digits cs

def integerPart (cs : List Char) : Option Nat :=
  (magnitude (cs.drop (minus cs))).map (minus cs + ·)

/-- A dot and at least one digit. -/
def fraction : List Char → Option Nat
  | '.' :: cs => (digits cs).map (1 + ·)
  | _ => none

def sign : List Char → Nat
  | '+' :: _ => 1
  | '-' :: _ => 1
  | _ => 0

/-- The letter `e`, an optional sign and at least one digit. -/
def exponent : List Char → Option Nat
  | c :: cs =>
    if c = 'e' ∨ c = 'E' then (digits (cs.drop (sign cs))).map (1 + sign cs + ·) else none
  | [] => none

def int (cs : List Char) : Option Nat :=
  (integerPart cs).filter fun n => endsNumber (cs.drop n)

/-- What makes a number a float: a fraction, an exponent, or both in this order. -/
def fractionOrExponent (cs : List Char) : Option Nat :=
  match fraction cs with
  | some n => some (n + (exponent (cs.drop n)).getD 0)
  | none => exponent cs

def float (cs : List Char) : Option Nat :=
  ((integerPart cs).bind fun n => (fractionOrExponent (cs.drop n)).map (n + ·)).filter
    fun n => endsNumber (cs.drop n)

/-- The body of a quoted string and its closing quote, `n` characters into the literal. -/
def stringBody (n : Nat) : List Char → Option Nat
  | [] => none
  | '"' :: _ => some (n + 1)
  | '\\' :: 'u' :: a :: b :: c :: d :: rest =>
    if [a, b, c, d].all isHexDigit then stringBody (n + 6) rest else none
  | '\\' :: c :: rest =>
    if c ∈ ['"', '\\', '/', 'b', 'f', 'n', 'r', 't'] then stringBody (n + 2) rest else none
  | c :: rest =>
    if c = '\\' ∨ c = '\n' ∨ c = '\r' then none else stringBody (n + 1) rest

def string : List Char → Option Nat
  | '"' :: rest => stringBody 1 rest
  | _ => none

/-- The body of a block string and its closing quotes, `n` characters into the literal. A backslash
before three quotes escapes them. Where no closing quotes follow, the last escaped quotes, which end
at `escaped`, close the string after all. -/
def blockBody (n : Nat) (escaped : Option Nat) : List Char → Option Nat
  | '\\' :: '"' :: '"' :: '"' :: rest => blockBody (n + 4) (some (n + 4)) rest
  | '"' :: '"' :: '"' :: _ => some (n + 3)
  | _ :: rest => blockBody (n + 1) escaped rest
  | [] => escaped

def blockString : List Char → Option Nat
  | '"' :: '"' :: '"' :: rest => blockBody 3 none rest
  | _ => none

def word (w : String) (cs : List Char) : Option Nat :=
  if w.toList.isPrefixOf cs then some w.toList.length else none

end GraphQLDoc.Pattern

namespace GraphQLDoc

/-- Spaces, tabs, line breaks, commas and the byte order mark separate tokens. -/
def isSeparator (c : Char) : Bool :=
  c == ' ' || c == '\t' || c == '\n' || c == '\r' || c == ',' || c == '\uFEFF'

/-- The length of the separators and comments at the front of a text. A comment runs up to a line
break. -/
def ignoredLength (inComment : Bool) : List Char → Nat
  | [] => 0
  | c :: cs =>
    if isSeparator c then ignoredLength (inComment && c != '\n' && c != '\r') cs + 1
    else if inComment || c == '#' then ignoredLength true cs + 1
    else 0

end GraphQLDoc
