import GraphQLDoc.Decoding.Check
import GraphQLDoc.Number.Numeral
import GraphQLDoc.Ast.Value

/-!
Decoders of single values. Numbers and truth values may be given in another form that means the
same: a number as a text, an integer as a float without a fraction, a truth value as a number or a
word. Strings may not, and a name has to be a text.
-/
namespace GraphQLDoc.Decoder

/-- A string, whether it is a text or not. -/
def string : Decoder JsonString
  | .string s => .ok s
  | _ => .problem .notString

def name : Decoder String
  | .string (.text s) => if isName s.toList then .ok s else .problem .notName
  | .string (.unpaired _) => .problem .notText
  | _ => .problem .notString

/-- The longest text, without zeros in front, that is read as an integer. -/
def maxIntegerText : Nat := 4300

/-- An integer that a float equals, as long as it lies strictly between the bounds of 64 bits. -/
def wholeFloat (x : Binary64) : Checked Int :=
  if !x.isFinite then .problem .notFinite
  else
    match x.toInt? with
    | none => .problem .fractionalInteger
    | some n => if minInt64 < n ∧ n ≤ maxInt64 then .ok n else .problem .integerSize

def anyInt : Decoder Int
  | .int n => .ok n
  | .bool b => .ok (if b then 1 else 0)
  | .float x => wholeFloat x
  | .string (.text s) =>
    match Numeral.clean? s.toList with
    | none => .problem .integerText
    | some cs =>
      if maxIntegerText < cs.length then .problem .integerSize
      else match Numeral.plainInt? cs with
        | some n => .ok n
        | none => .problem .integerText
  | .string (.unpaired _) => .problem .notText
  | _ => .problem .notInteger

/-- A signed integer of 64 bits. -/
def int64 : Decoder Int := fun v =>
  (anyInt v).andThen fun n =>
    if maxInt64 < n then .problem .integerTooLarge
    else if n < minInt64 then .problem .integerTooSmall
    else .ok n

def anyFloat : Decoder Binary64
  | .float x => .ok x
  | .int n =>
    match Binary64.ofInt n with
    | .infinite _ => .problem .notNumber
    | x => .ok x
  | .bool b => .ok (Binary64.ofInt (if b then 1 else 0))
  | .string (.text s) =>
    match Numeral.float? s.toList with
    | some x => .ok x
    | none => .problem .numberText
  | .string (.unpaired _) => .problem .notText
  | _ => .problem .notNumber

def finiteFloat : Decoder Binary64 :=
  refine anyFloat Binary64.isFinite "float values must be finite"

def trueWords : List String := ["1", "on", "t", "true", "y", "yes"]

def falseWords : List String := ["0", "off", "f", "false", "n", "no"]

def boolean : Decoder Bool
  | .bool b => .ok b
  | .int n =>
    if n = 0 then .ok false
    else if n = 1 then .ok true
    else if minInt64 ≤ n ∧ n ≤ maxInt64 then .problem .booleanText
    else .problem .notBoolean
  | .float x =>
    match wholeFloat x with
    | .ok 0 => .ok false
    | .ok 1 => .ok true
    | .ok _ => .problem .booleanText
    | _ => .problem .notBoolean
  | .string (.text s) =>
    let word := String.ofList (Numeral.lower s.toList)
    if word ∈ trueWords then .ok true
    else if word ∈ falseWords then .ok false
    else .problem .booleanText
  | .string (.unpaired _) => .problem .notText
  | _ => .problem .notBoolean

/-- One word of several, each with its meaning. -/
def word {α : Type} (all : List α) (spelling : α → String) : Decoder α
  | .string (.text s) =>
    match all.find? fun a => spelling a == s with
    | some a => .ok a
    | none => .problem (.otherWord (all.map spelling))
  | _ => .problem (.otherWord (all.map spelling))

end GraphQLDoc.Decoder
