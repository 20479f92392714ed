import GraphQLDoc.Json.Basic
import GraphQLDoc.Machine
import GraphQLDoc.Number.Text
import GraphQLDoc.Token.Basic

/-!
Reading JSON. Beyond the standard the words `NaN`, `Infinity` and `-Infinity` are numbers, and a
later entry of an object replaces an earlier one of the same key. An error says what was expected
and where. Control characters in strings are refused in strict reading only.
-/
namespace GraphQLDoc.Json

inductive ReadProblem where
  | byteOrderMark
  | value
  | extraData
  | unterminatedString
  | controlCharacter
  | escape
  | unitEscape
  | propertyName
  | colon
  | comma
deriving DecidableEq

/-- The digits that an integer may have. -/
def maxIntegerDigits : Nat := 4300

inductive ReadError where
  | at (problem : ReadProblem) (position : Position)
  | tooManyDigits (count : Nat)
  /-- A container that the reader does not enter since others are nested around it too deeply. -/
  | tooDeep (container : String)
deriving DecidableEq

namespace ReadProblem

def message : ReadProblem → String
  | byteOrderMark => "Unexpected UTF-8 BOM (decode using utf-8-sig)"
  | value => "Expecting value"
  | extraData => "Extra data"
  | unterminatedString => "Unterminated string starting at"
  | controlCharacter => "Invalid control character at"
  | escape => "Invalid \\escape"
  | unitEscape => "Invalid \\uXXXX escape"
  | propertyName => "Expecting property name enclosed in double quotes"
  | colon => "Expecting ':' delimiter"
  | comma => "Expecting ',' delimiter"

end ReadProblem

def tooManyDigitsMessage (count : Nat) : String :=
  "Exceeds the limit (4300 digits) for integer string conversion: value has " ++
    decimalText count ++
    " digits; use sys.set_int_max_str_digits() to increase the limit"

def ReadError.message : ReadError → String
  | .at problem p =>
    problem.message ++ ": line " ++ decimalText p.line ++ " column " ++ decimalText p.column ++
      " (char " ++ decimalText p.offset ++ ")"
  | .tooManyDigits count => tooManyDigitsMessage count
  | .tooDeep container =>
    Machine.tooDeepMessage ++ " while decoding a JSON " ++ container ++ " from a unicode string"

def isBlank (c : Char) : Bool := c == ' ' || c == '\t' || c == '\n' || c == '\r'

def skipBlanks (i : Input) : Input := i.drop (i.text.takeWhile isBlank).length

def fail {α : Type} (problem : ReadProblem) (i : Input) : Except ReadError α :=
  .error (.at problem i.position)

/-- The number of four hexadecimal digits. -/
def hexNumber : List Char → Nat
  | cs => cs.foldl (fun n c => 16 * n + hexValue c) 0

/-- The unit of an escape whose four digits are in front, if the text goes on behind them. -/
def unit? (digits : List Char) : Option Nat :=
  if 4 < digits.length ∧ (digits.take 4).all isHexDigit then some (hexNumber (digits.take 4))
  else none

/-- The characters that a backslash and one letter stand for. -/
def shortEscape? : Char → Option Char
  | '"' => some '"'
  | '\\' => some '\\'
  | '/' => some '/'
  | 'b' => some '\x08'
  | 'f' => some '\x0c'
  | 'n' => some '\n'
  | 'r' => some '\r'
  | 't' => some '\t'
  | _ => none

/-- One step through the body of a string: the closing quote, or a code point with the number of
characters that it takes. -/
inductive StringStep where
  | close
  | point (n : Nat) (length : Nat)
  | wrong (problem : ReadProblem) (offset : Nat)

/-- An escape of a unit, with a second one if the two are a pair. `rest` follows the letter `u`. -/
def unitStep (rest : List Char) : StringStep :=
  match unit? rest with
  | none => .wrong .unitEscape 1
  | some high =>
    match rest.drop 4 with
    | '\\' :: 'u' :: more =>
      if isHighSurrogate high ∧ 4 < more.length then
        match unit? more with
        | none => .wrong .unitEscape 7
        | some low =>
          if isLowSurrogate low then .point (joinSurrogates high low) 12 else .point high 6
      else .point high 6
    | _ => .point high 6

def stringStep (strict : Bool) : List Char → StringStep
  | [] => .wrong .unterminatedString 0
  | '"' :: _ => .close
  | ['\\'] => .wrong .unterminatedString 0
  | '\\' :: 'u' :: rest => unitStep rest
  | '\\' :: c :: _ =>
    match shortEscape? c with
    | some d => .point d.toNat 2
    | none => .wrong .escape 0
  | c :: _ =>
    if strict ∧ c.toNat < 0x20 then .wrong .controlCharacter 0 else .point c.toNat 1

/-- The code points of a string up to its closing quote. An unterminated string is reported where it
opens. -/
def stringBody (strict : Bool) (opening : Position) :
    Nat → List Nat → Input → Except ReadError (List Nat × Input)
  | 0, _, _ => .error (.at .unterminatedString opening)
  | fuel + 1, points, i =>
    match stringStep strict i.text with
    | .close => .ok (points.reverse, i.drop 1)
    | .point n length => stringBody strict opening fuel (n :: points) (i.drop length)
    | .wrong .unterminatedString _ => .error (.at .unterminatedString opening)
    | .wrong problem offset => fail problem (i.drop offset)

/-- Reads a string whose opening quote is in front. -/
def readString (strict : Bool) (i : Input) : Except ReadError (JsonString × Input) := do
  let (points, rest) ← stringBody strict i.position (i.text.length + 1) [] (i.drop 1)
  return (.ofPoints points, rest)

/-- The number of a run of digits. -/
def digitsNumber (cs : List Char) : Nat :=
  cs.foldl (fun n c => 10 * n + (c.toNat - '0'.toNat)) 0

/-- Reads a number. A dot or an exponent without digits behind it is not part of it. -/
def readNumber (i : Input) : Except ReadError (Json × Input) :=
  match Pattern.integerPart i.text with
  | none => fail .value i
  | some n =>
    let afterInteger := i.text.drop n
    let fractionLength := (Pattern.fraction afterInteger).getD 0
    let exponentLength := (Pattern.exponent (afterInteger.drop fractionLength)).getD 0
    let negative := Pattern.minus i.text == 1
    let whole := (i.text.take n).drop (Pattern.minus i.text)
    let rest := i.drop (n + fractionLength + exponentLength)
    if fractionLength + exponentLength = 0 then
      if maxIntegerDigits < whole.length then .error (.tooManyDigits whole.length)
      else
        let value : Int := digitsNumber whole
        .ok (.int (if negative then -value else value), rest)
    else
      let places := (afterInteger.take fractionLength).drop 1
      let power := (afterInteger.drop fractionLength).take exponentLength
      let size : Int := digitsNumber (power.filter isDigit)
      let shift := if '-' ∈ power then -size else size
      .ok
        (.float (.ofDecimal negative (digitsNumber (whole ++ places)) (shift - places.length)),
          rest)

def words : List (String × Json) :=
  [("null", null), ("true", bool true), ("false", bool false), ("NaN", float .nan),
    ("Infinity", float (.infinite false)), ("-Infinity", float (.infinite true))]

def readScalar (i : Input) : Except ReadError (Json × Input) :=
  match words.find? fun (w, _) => w.toList.isPrefixOf i.text with
  | some (w, v) => .ok (v, i.drop w.length)
  | none => readNumber i

mutual

/-- Reads a value in which containers are nested over some levels at most. Every level and every item uses
up a character, so `fuel` of the length of the text lasts. -/
def readValue (strict : Bool) : Nat → Nat → Input → Except ReadError (Json × Input)
  | _, 0, i => fail .value i
  | levels, fuel + 1, i =>
    match i.text with
    | '"' :: _ => do
      let (s, rest) ← readString strict i
      return (.string s, rest)
    | '[' :: _ =>
      if levels = 0 then .error (.tooDeep "array")
      else
        let inside := skipBlanks (i.drop 1)
        match inside.text with
        | ']' :: _ => .ok (.array [], inside.drop 1)
        | _ => do
          let (items, rest) ← readItems strict (levels - 1) fuel inside
          return (.array items, rest)
    | '\x7b' :: _ =>
      if levels = 0 then .error (.tooDeep "object")
      else
        let inside := skipBlanks (i.drop 1)
        match inside.text with
        | '\x7d' :: _ => .ok (.object [], inside.drop 1)
        | _ => do
          let (entries, rest) ← readEntries strict (levels - 1) fuel [] inside
          return (.object entries, rest)
    | _ => readScalar i

/-- Reads the items of an array and its closing bracket. -/
def readItems (strict : Bool) : Nat → Nat → Input → Except ReadError (List Json × Input)
  | _, 0, i => fail .value i
  | levels, fuel + 1, i => do
    let (v, rest) ← readValue strict levels fuel i
    let next := skipBlanks rest
    match next.text with
    | ']' :: _ => return ([v], next.drop 1)
    | ',' :: _ =>
      let (vs, rest) ← readItems strict levels fuel (skipBlanks (next.drop 1))
      return (v :: vs, rest)
    | _ => fail .comma next

/-- Reads the entries of an object and its closing brace; `entries` are those before. -/
def readEntries (strict : Bool) : Nat → Nat → List (JsonString × Json) → Input →
    Except ReadError (List (JsonString × Json) × Input)
  | _, 0, _, i => fail .value i
  | levels, fuel + 1, entries, i => do
    match i.text with
    | '"' :: _ =>
      let (key, rest) ← readString strict i
      let next := skipBlanks rest
      match next.text with
      | ':' :: _ =>
        let (v, rest) ← readValue strict levels fuel (skipBlanks (next.drop 1))
        let all := Entries.put key v entries
        let next := skipBlanks rest
        match next.text with
        | '\x7d' :: _ => return (all, next.drop 1)
        | ',' :: _ => readEntries strict levels fuel all (skipBlanks (next.drop 1))
        | _ => fail .comma next
      | _ => fail .colon next
    | _ => fail .propertyName i

end

/-- Nothing but blanks may follow. -/
def finish {α : Type} (a : α) (rest : Input) : Except ReadError α :=
  let next := skipBlanks rest
  if next.text.isEmpty then .ok a else fail .extraData next

/-- Reads a whole text in which containers are nested over some levels at most. -/
def read (strict : Bool) (levels : Nat) (text : List Char) : Except ReadError Json := do
  let i := Input.ofText text
  if text.head? = some '\uFEFF' then fail .byteOrderMark i
  else
    let (v, rest) ← readValue strict levels (2 * text.length + 2) (skipBlanks i)
    finish v rest

end GraphQLDoc.Json
