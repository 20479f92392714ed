import GraphQLDoc.Text.Character
import GraphQLDoc.Yaml.Timestamp

/-!
Tags say what kind of value a node is. A plain scalar without a tag gets one from its text, by the
forms of YAML 1.1: `yes` is a truth value, `0x1f` and `12:30` are integers, `2020-01-01` is a
timestamp. One line feed at the end of the text is passed over.
-/
namespace GraphQLDoc.Yaml

inductive Tag where
  | null
  | bool
  | int
  | float
  | binary
  | timestamp
  | orderedMap
  | pairs
  | set
  | str
  | seq
  | map
  /-- The tag of the key under which a mapping takes up entries of other mappings. -/
  | merge
  /-- The tag of the key under which a mapping keeps a scalar that may stand for it. -/
  | default
  | unknown
deriving DecidableEq

namespace Tag

def known : List (String × Tag) :=
  [("null", null), ("bool", bool), ("int", int), ("float", float), ("binary", binary),
    ("timestamp", timestamp), ("omap", orderedMap), ("pairs", pairs), ("set", set), ("str", str),
    ("seq", seq), ("map", map), ("merge", merge), ("value", default)]

def base : String := "tag:yaml.org,2002:"

def ofAddress (address : List Char) : Tag :=
  ((known.find? fun (name, _) => (base ++ name).toList == address).map (·.2)).getD unknown

/-! The forms of plain scalars. -/

def nullWords : List String := ["~", "null", "Null", "NULL"]

def boolWords : List String :=
  ["yes", "Yes", "YES", "no", "No", "NO", "true", "True", "TRUE", "false", "False", "FALSE", "on",
    "On", "ON", "off", "Off", "OFF"]

def unsigned : List Char → List Char
  | '+' :: cs => cs
  | '-' :: cs => cs
  | cs => cs

def isDigitOrBar (c : Char) : Bool := isDigit c || c == '_'

/-- A digit, then digits and underscores. -/
def isNumber : List Char → Bool
  | [] => false
  | c :: cs => isDigit c && cs.all isDigitOrBar

/-- A part of a number in base 60, behind its colon. -/
def isSixtieth : List Char → Bool
  | [a] => isDigit a
  | [a, b] => isDigit a && a ≤ '5' && isDigit b
  | _ => false

def isWholeNumber (cs : List Char) : Bool := isNumber cs && cs.head? != some '0'

def isInt (cs : List Char) : Bool :=
  match unsigned cs with
  | ['0'] => true
  | '0' :: 'b' :: ds => !ds.isEmpty && ds.all fun c => c == '0' || c == '1' || c == '_'
  | '0' :: 'x' :: ds => !ds.isEmpty && ds.all fun c => isHexDigit c || c == '_'
  | '0' :: ds => ds.all fun c => ('0' ≤ c && c ≤ '7') || c == '_'
  | ds =>
    match ds.splitOn ':' with
    | whole :: parts => isWholeNumber whole && parts.all isSixtieth
    | [] => false

def isExponent : List Char → Bool
  | [] => true
  | e :: sign :: ds =>
    (e == 'e' || e == 'E') && (sign == '+' || sign == '-') && !ds.isEmpty && ds.all isDigit
  | _ => false

/-- Digits and underscores, and then perhaps an exponent. -/
def isFraction (cs : List Char) : Bool := isExponent (cs.dropWhile isDigitOrBar)

def infinityWords : List String := [".inf", ".Inf", ".INF"]

def notANumberWords : List String := [".nan", ".NaN", ".NAN"]

def isFloat (cs : List Char) : Bool :=
  let ds := unsigned cs
  let whole := ds.takeWhile (· != '.')
  let places := ds.drop (whole.length + 1)
  let hasPoint := whole.length < ds.length
  let inBase60 := match whole.splitOn ':' with
    | first :: part :: parts =>
      isNumber first && (part :: parts).all isSixtieth && places.all isDigitOrBar
    | _ => false
  let inBase10 :=
    if cs.head? = some '.' then places.head?.any isDigit && isFraction places
    else isNumber whole && isFraction places
  (hasPoint && (inBase60 || inBase10)) || infinityWords.contains (String.ofList ds) ||
    notANumberWords.contains (String.ofList cs)

/-- A date alone needs two digits for month and day. -/
def isTimestamp (cs : List Char) : Bool :=
  match Timestamp.parse? cs with
  | some t => t.time.isSome || t.padded
  | none => false

/-- The characters that would begin a property or a reference. -/
def propertyMarks : List String := ["!", "&", "*"]

def ofForm (cs : List Char) : Tag :=
  let text := String.ofList cs
  if boolWords.contains text then bool
  else if isFloat cs then float
  else if isInt cs then int
  else if text == "<<" then merge
  else if nullWords.contains text then null
  else if isTimestamp cs then timestamp
  else if text == "=" then default
  else if propertyMarks.contains text then unknown
  else str

def dropFinalFeed (cs : List Char) : List Char :=
  if cs.getLast? = some '\n' then cs.dropLast else cs

/-- The tag of a plain scalar. -/
def ofPlain (points : List Nat) : Tag :=
  match textOfPoints? points with
  | some [] => null
  | some cs => ofForm (dropFinalFeed cs)
  | none => str

end Tag

end GraphQLDoc.Yaml
