import GraphQLDoc.Json.Reader
import GraphQLDoc.Number.Numeral
import GraphQLDoc.Yaml.Problem
import GraphQLDoc.Yaml.Tag

/-!
Whether the text of a scalar denotes a value of the kind that its tag names. The values themselves
are not made, since only texts are of use.
-/
namespace GraphQLDoc.Yaml.Value

def points (cs : List Char) : List Nat := cs.map Char.toNat

def boolWords : List String := ["yes", "no", "true", "false", "on", "off"]

def boolFault? (cs : List Char) : Option ScalarFault :=
  let word := cs.map Char.toLower
  if boolWords.contains (String.ofList word) then none else some (.boolean (points word))

/-- The letter that may stand behind a zero in front of the digits of a base. -/
def baseLetter? (base : Nat) : Option Char := [(2, 'b'), (8, 'o'), (16, 'x')].lookup base

def dropBaseMark (base : Nat) (cs : List Char) : List Char :=
  match cs with
  | '0' :: c :: rest => if baseLetter? base = some c.toLower then rest else cs
  | _ => cs

/-- Whether a text is an integer in a base, blanks around it and a sign in front allowed. -/
def isInteger (base : Nat) (cs : List Char) : Bool :=
  let digits := dropBaseMark base (Tag.unsigned (Numeral.normalize cs))
  !digits.isEmpty && digits.all fun c => isHexDigit c && hexValue c < base

def integerFault? (base : Nat) (cs : List Char) : Option ScalarFault :=
  if !isInteger base cs then some (.integer base (points cs))
  else
    let count := (Tag.unsigned (Numeral.normalize cs)).length
    if base = 10 ∧ Json.maxIntegerDigits < count then some (.tooManyDigits count) else none

/-- The base is told by what stands in front: `0b`, `0x`, or a zero for base 8. Parts between colons
are digits in base 60. -/
def intFault? (cs : List Char) : Option ScalarFault :=
  let digits := cs.filter (· != '_')
  if digits.isEmpty then some .emptyNumber
  else match Tag.unsigned digits with
    | [] => some .emptyNumber
    | ['0'] => none
    | '0' :: 'b' :: ds => integerFault? 2 ds
    | '0' :: 'x' :: ds => integerFault? 16 ds
    | '0' :: ds => integerFault? 8 ('0' :: ds)
    | ds => (ds.splitOn ':').findSome? (integerFault? 10)

def floatPartFault? (cs : List Char) : Option ScalarFault :=
  if (Numeral.literalFloat? cs).isSome then none else some (.float (points cs))

def floatFault? (cs : List Char) : Option ScalarFault :=
  let digits := (cs.filter (· != '_')).map Char.toLower
  if digits.isEmpty then some .emptyNumber
  else
    let ds := Tag.unsigned digits
    if ds = ".inf".toList ∨ ds = ".nan".toList then none
    else (ds.splitOn ':').findSome? floatPartFault?

def timestampFault? (cs : List Char) : Option ScalarFault :=
  match Timestamp.parse? (Tag.dropFinalFeed cs) with
  | none => some .timestamp
  | some t => t.fault?.map .calendar

def isBase64Char (c : Char) : Bool := c.isAlphanum || c == '+' || c == '/'

/-- Whether groups of four characters, the last one filled up by equals signs, are complete. What
stands behind the filling is not looked at, and other characters are passed over. -/
def isBase64 (group filling : Nat) : List Char → Bool
  | [] => group == 0
  | '=' :: cs =>
    if group < 2 then isBase64 group filling cs
    else if 4 ≤ group + filling + 1 then true
    else isBase64 group (filling + 1) cs
  | c :: cs =>
    if isBase64Char c then isBase64 ((group + 1) % 4) 0 cs else isBase64 group filling cs

def isBinary (cs : List Char) : Bool := cs.all (·.toNat < 0x80) && isBase64 0 0 cs

/-- What is wrong with a text as a value of the kind that a tag names. A tag for collections, or for
keys, is out of place. -/
def fault? (tag : Tag) (cs : List Char) : Option Problem :=
  match tag with
  | .null | .str => none
  | .bool => (boolFault? cs).map .scalar
  | .int => (intFault? cs).map .scalar
  | .float => (floatFault? cs).map .scalar
  | .timestamp => (timestampFault? cs).map .scalar
  | .binary => if isBinary cs then none else some .invalid
  | _ => some .invalid

end GraphQLDoc.Yaml.Value
