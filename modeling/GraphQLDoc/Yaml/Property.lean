import GraphQLDoc.Json.Reader
import GraphQLDoc.Text.Character
import GraphQLDoc.Text.Utf8
import GraphQLDoc.Yaml.Input
import GraphQLDoc.Yaml.Problem
import GraphQLDoc.Yaml.Token

/-!
The properties of a node, which are its anchor and its tag, and the directives in front of a
document. A tag is an address, or a handle and the rest of an address for which a directive gives
the beginning.
-/
namespace GraphQLDoc.Yaml

/-- A word of letters, digits, dashes and underscores. -/
def wordAt (i : Input) : Except Problem (List Char × Input) :=
  let (word, j) := i.span isWordChar
  if word.isEmpty then .error .invalid else .ok (word, j)

/-- The name behind the mark of an anchor or of a reference to one. -/
def anchorName (i : Input) : Except Problem (List Char × Input) := do
  let (name, j) ← wordAt i.advance
  if endsAnchor j.peek then return (name, j) else throw .invalid

namespace Tag

/-- The bytes that a run of percent signs with two hexadecimal digits each stands for. -/
def percentBytes : List Char → Except Problem (List UInt8)
  | '%' :: a :: b :: cs =>
    if isHexDigit a && isHexDigit b then
      (percentBytes cs).map (UInt8.ofNat (hexValue a * 16 + hexValue b) :: ·)
    else .error .invalid
  | '%' :: _ => .error .invalid
  | _ => .ok []

/-- An address: characters that stand for themselves, and runs of escapes for characters in UTF-8.
-/
def addressWithin : Nat → Input → Except Problem (List Char × Input)
  | 0, i => .ok ([], i)
  | fuel + 1, i =>
    if i.nextIs '%' then do
      let bytes ← percentBytes i.rest
      match Utf8.decode bytes with
      | .error _ => throw .invalid
      | .ok cs =>
        let (more, j) ← addressWithin fuel (i.skip (3 * bytes.length))
        return (cs ++ more, j)
    else if i.among isAddressChar then do
      let (cs, j) := i.span isAddressChar
      let (more, k) ← addressWithin fuel j
      return (cs ++ more, k)
    else .ok ([], i)

/-- An address of at least one character. -/
def address (i : Input) : Except Problem (List Char × Input) :=
  if i.nextIs '%' || i.among isAddressChar then addressWithin (i.rest.length + 1) i
  else .error .invalid

/-- A handle: an exclamation mark, or a word between two of them. -/
def handle (i : Input) : Except Problem (List Char × Input) :=
  if !i.nextIs '!' then .error .invalid
  else if i.peekAt 1 == some ' ' then .ok (['!'], i.advance)
  else
    let (word, j) := i.advance.span isWordChar
    if j.nextIs '!' then .ok ('!' :: word ++ ['!'], j.advance) else .error .invalid

/-- Whether a second exclamation mark stands in the word that begins with one. -/
def hasHandle (i : Input) : Bool :=
  (i.rest.drop 1).takeWhile (fun c => !endsField (some c)) |>.contains '!'

/-- A tag, from its exclamation mark. -/
def read (i : Input) : Except Problem (Token × Input) := do
  let (token, j) ←
    if i.peekAt 1 == some '<' then do
      let (cs, j) ← address (i.skip 2)
      if j.nextIs '>' then pure (Token.tag none cs, j.advance) else throw .invalid
    else if endsWord (i.peekAt 1) then pure (Token.tag none ['!'], i.advance)
    else if hasHandle i then do
      let (h, j) ← handle i
      let (cs, k) ← address j
      pure (Token.tag (some h) cs, k)
    else do
      let (cs, j) ← address i.advance
      pure (Token.tag (some ['!']) cs, j)
  if endsField j.peek then return (token, j) else throw .invalid

end Tag

namespace Directive

def number (i : Input) : Except Problem (Nat × Input) :=
  let (digits, j) := i.span isDigit
  if digits.isEmpty then .error .invalid
  else if Json.maxIntegerDigits < digits.length then
    .error (.scalar (.tooManyDigits digits.length))
  else .ok (digits.foldl (fun n c => n * 10 + hexValue c) 0, j)

/-- Two numbers with a dot between them, of which the first decides. -/
def version (i : Input) : Except Problem (Token × Input) := do
  let (major, j) ← number (i.skipWhile (· == ' '))
  if !j.nextIs '.' then throw .invalid
  let (_, k) ← number j.advance
  if endsField k.peek then return (.version major, k) else throw .invalid

def tagHandle (i : Input) : Except Problem (Token × Input) := do
  let (handle, j) ← Tag.handle (i.skipWhile (· == ' '))
  if !j.nextIs ' ' then throw .invalid
  let (cs, k) ← Tag.address (j.skipWhile (· == ' '))
  if endsField k.peek then return (.tagHandle handle cs, k) else throw .invalid

/-- A directive, from its percent sign to the end of its line. -/
def read (i : Input) : Except Problem (Token × Input) := do
  let (name, j) ← wordAt i.advance
  if !endsField j.peek then throw .invalid
  let (token, k) ←
    if name == "YAML".toList then version j
    else if name == "TAG".toList then tagHandle j
    else pure (Token.otherDirective, j.skipWhile (!isBreak ·))
  match k.restOfLine? with
  | some l => return (token, l)
  | none => throw .invalid

end Directive

end GraphQLDoc.Yaml
