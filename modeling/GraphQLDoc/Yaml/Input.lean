/-!
A YAML text that is being read: what is left of it, and where that begins. Lines and columns count
from zero, and a byte order mark takes up no column. The classes of characters are those of YAML 1.1;
one that may also be met at the end of the text takes the next character as an option, which is none
there.
-/
namespace GraphQLDoc.Yaml

/-- The characters that a YAML text may hold. -/
def isAllowed (c : Char) : Bool :=
  let n := c.toNat
  n == 9 || n == 10 || n == 13 || (0x20 ≤ n && n ≤ 0x7E) || n == 0x85 || (0xA0 ≤ n && n ≤ 0xD7FF) ||
    (0xE000 ≤ n && n ≤ 0xFFFD) || 0x10000 ≤ n

def isBreak (c : Char) : Bool :=
  c == '\n' || c == '\r' || c == '\u0085' || c == '\u2028' || c == '\u2029'

def isBlank (c : Char) : Bool := c == ' ' || c == '\t'

def isWordChar (c : Char) : Bool := c.isAlphanum || c == '-' || c == '_'

/-- The characters of a tag's address, the percent sign of an escape aside. -/
def isAddressChar (c : Char) : Bool := c.isAlphanum || "-;/?:@&=+$,_.!~*'()[]".toList.contains c

def endsLine : Option Char → Bool
  | none => true
  | some c => isBreak c

/-- Whether a line, or a word before a space, ends here. -/
def endsField : Option Char → Bool
  | none => true
  | some c => c == ' ' || isBreak c

/-- Whether a word ends here. -/
def endsWord : Option Char → Bool
  | none => true
  | some c => isBlank c || isBreak c

/-- The characters that end the name of an anchor. -/
def endsAnchor : Option Char → Bool
  | none => true
  | some c => isBlank c || isBreak c || "?:,]\x7d%@\x60".toList.contains c

/-- The characters that no plain scalar begins with, unless what follows allows it. -/
def isIndicator (c : Char) : Bool := "-?:,[]\x7b\x7d#&*!|>'\"%@\x60".toList.contains c

/-- The characters that end a plain scalar within brackets. -/
def isFlowMark (c : Char) : Bool := ",?[]\x7b\x7d".toList.contains c

/-- What a colon stands before, within brackets, where it ends a plain scalar. -/
def followsFlowColon (c : Char) : Bool := ",[]\x7b\x7d".toList.contains c

structure Input where
  rest : List Char
  offset : Nat
  line : Nat
  column : Nat

namespace Input

def ofText (text : List Char) : Input := ⟨text, 0, 0, 0⟩

def peek (i : Input) : Option Char := i.rest.head?

def peekAt (i : Input) (n : Nat) : Option Char := i.rest[n]?

/-- Whether a character comes next. -/
def nextIs (i : Input) (c : Char) : Bool := i.rest.head? == some c

/-- Whether a character of a class comes next. -/
def among (i : Input) (p : Char → Bool) : Bool := i.rest.head?.any p

/-- Passes over one character. The feed of a line that ends with a return and a feed ends it. -/
def advance (i : Input) : Input :=
  match i.rest with
  | [] => i
  | c :: rest =>
    if isBreak c ∧ ¬(c = '\r' ∧ rest.head? = some '\n') then ⟨rest, i.offset + 1, i.line + 1, 0⟩
    else if c = '\uFEFF' then ⟨rest, i.offset + 1, i.line, i.column⟩
    else ⟨rest, i.offset + 1, i.line, i.column + 1⟩

def skip (i : Input) (n : Nat) : Input := n.repeat advance i

/-- The run of characters of a class, and the text behind it. -/
def span (i : Input) (p : Char → Bool) : List Char × Input :=
  let run := i.rest.takeWhile p
  (run, i.skip run.length)

def skipWhile (i : Input) (p : Char → Bool) : Input := (i.span p).2

/-- A line break, read as a line feed unless it is one of the two separators of Unicode. Where there
is none the text of the break is empty. -/
def lineBreak (i : Input) : List Char × Input :=
  match i.rest with
  | '\r' :: '\n' :: _ => (['\n'], i.skip 2)
  | c :: _ =>
    if c = '\u2028' ∨ c = '\u2029' then ([c], i.advance)
    else if isBreak c then (['\n'], i.advance)
    else ([], i)
  | [] => ([], i)

def skipComment (i : Input) : Input :=
  if i.nextIs '#' then i.skipWhile (!isBreak ·) else i

/-- Passes over the blanks and the comment that may end a line; there is none where something else
stands. -/
def restOfLine? (i : Input) : Option Input :=
  let j := (i.skipWhile (· == ' ')).skipComment
  if endsLine j.peek then some j.lineBreak.2 else none

/-- Whether three dashes or three dots stand here as a word. -/
def atMark (i : Input) (c : Char) : Bool :=
  match i.rest with
  | a :: b :: d :: rest => a == c && b == c && d == c && endsWord rest.head?
  | _ => false

def atSeparator (i : Input) : Bool := i.atMark '-' || i.atMark '.'

end Input

end GraphQLDoc.Yaml
