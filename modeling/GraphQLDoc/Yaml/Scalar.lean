import GraphQLDoc.Text.Character
import GraphQLDoc.Yaml.Input
import GraphQLDoc.Yaml.Problem

/-!
Scalars of YAML: plain, in quotes, and in blocks. Line breaks inside are folded: a single one is a
space, and of several the first is dropped; a literal block keeps them all.
-/
namespace GraphQLDoc.Yaml

/-- The text between two parts of a folded scalar that a line break and blank lines separate. -/
def foldBreaks (first blankLines : List Char) : List Char :=
  if first != ['\n'] then first ++ blankLines
  else if blankLines.isEmpty then [' ']
  else blankLines

namespace Plain

/-- The characters up to a blank, or to a mark that ends the scalar. -/
def word (inFlow : Bool) : List Char → List Char
  | [] => []
  | c :: cs =>
    if endsWord (some c) || (inFlow && isFlowMark c) ||
        (c == ':' && (endsWord cs.head? || (inFlow && cs.head?.any followsFlowColon)))
    then [] else c :: word inFlow cs

/-- Spaces and blank lines behind a line break, and the breaks among them. A document separator ends
them, in which case there are none. -/
def blankLines : Nat → Input → Option (List Char) × Input
  | 0, i => (some [], i)
  | fuel + 1, i =>
    if i.nextIs ' ' then blankLines fuel i.advance
    else if i.among isBreak then
      let (b, j) := i.lineBreak
      if j.atSeparator then (none, j)
      else
        let (more, k) := blankLines fuel j
        (more.map (b ++ ·), k)
    else (some [], i)

/-- What separates two words: the text for it, whether it crosses a line, and where the next begins.
The text is empty where the scalar cannot go on. -/
def gap (i : Input) : List Char × Bool × Input :=
  let (spaces, j) := i.span (· == ' ')
  if j.among isBreak then
    let (b, k) := j.lineBreak
    if k.atSeparator then ([], true, k)
    else
      match blankLines k.rest.length k with
      | (some breaks, l) => (foldBreaks b breaks, true, l)
      | (none, l) => ([], true, l)
  else (spaces, false, j)

def lines (inFlow : Bool) (indent : Int) : Nat → Bool → Input → List Char × Bool × Input
  | 0, crossed, i => ([], crossed, i)
  | fuel + 1, crossed, i =>
    let first := word inFlow i.rest
    if first.isEmpty then ([], crossed, i)
    else
      let (between, crossed, j) := gap (i.skip first.length)
      if between.isEmpty || j.nextIs '#' || (!inFlow && j.column < indent) then (first, crossed, j)
      else
        let (more, crossed, k) := lines inFlow indent fuel crossed j
        (first ++ (if more.isEmpty then [] else between ++ more), crossed, k)

/-- A plain scalar whose continuation lines stand at a column or to its right, and whether the place
behind it is on a later line. -/
def read (inFlow : Bool) (indent : Int) (i : Input) : List Char × Bool × Input :=
  lines inFlow indent (i.rest.length + 1) false i

end Plain

namespace Quotation

/-- The breaks of blank lines inside quotes. A document separator must not stand there. -/
def blankLines : Nat → Input → Except Problem (List Char × Input)
  | 0, _ => .error .invalid
  | fuel + 1, i =>
    if i.atSeparator then .error .invalid
    else
      let j := i.skipWhile isBlank
      if j.among isBreak then do
        let (b, k) := j.lineBreak
        let (more, l) ← blankLines fuel k
        return (b ++ more, l)
      else .ok ([], j)

def blankLinesFrom (i : Input) : Except Problem (List Char × Input) :=
  blankLines (i.rest.length + 1) i

/-- The characters that an escape with one letter stands for. -/
def namedEscapes : List (Char × Nat) :=
  [('0', 0), ('a', 7), ('b', 8), ('t', 9), ('\t', 9), ('n', 10), ('v', 11), ('f', 12), ('r', 13),
    ('e', 0x1B), (' ', 0x20), ('"', 0x22), ('\\', 0x5C), ('/', 0x2F), ('N', 0x85), ('_', 0xA0),
    ('L', 0x2028), ('P', 0x2029)]

def escapeWidth? (c : Char) : Option Nat := [('x', 2), ('u', 4), ('U', 8)].lookup c

/-- An escape, read behind its backslash. -/
def escape (i : Input) : Except Problem (List Nat × Input) :=
  match i.rest with
  | [] => .error .invalid
  | c :: rest =>
    match namedEscapes.lookup c, escapeWidth? c with
    | some n, _ => .ok ([n], i.advance)
    | none, some width =>
      let digits := rest.take width
      if digits.length == width && digits.all isHexDigit then
        let n := digits.foldl (fun n d => n * 16 + hexValue d) 0
        if n < 0x110000 then .ok ([n], i.skip (width + 1))
        else .error (.scalar (.codePoint n))
      else .error .invalid
    | none, none =>
      if isBreak c then
        (blankLinesFrom i.lineBreak.2).map fun (breaks, j) => (breaks.map Char.toNat, j)
      else .error .invalid

/-- What separates two words inside quotes. -/
def gap (i : Input) : Except Problem (List Char × Input) :=
  let (spaces, j) := i.span isBlank
  if j.rest.isEmpty then .error .invalid
  else if j.among isBreak then do
    let (b, k) := j.lineBreak
    let (breaks, l) ← blankLinesFrom k
    return (foldBreaks b breaks, l)
  else .ok (spaces, j)

/-- The text up to the closing quote. A quote of the other kind stands for itself, and so does a
backslash in single quotes. -/
def content (quote : Char) : Nat → Input → Except Problem (List Nat × Input)
  | 0, _ => .error .invalid
  | fuel + 1, i =>
    match i.rest with
    | [] => .error .invalid
    | c :: rest =>
      if c == quote then
        if quote == '\'' && rest.head? == some quote then after fuel [c.toNat] (i.skip 2)
        else .ok ([], i.advance)
      else if c == '\\' && quote == '"' then do
        let (points, j) ← escape i.advance
        after fuel points j
      else if isBlank c || isBreak c then do
        let (between, j) ← gap i
        after fuel (between.map Char.toNat) j
      else after fuel [c.toNat] i.advance
where
  after (fuel : Nat) (points : List Nat) (j : Input) : Except Problem (List Nat × Input) := do
    let (more, k) ← content quote fuel j
    return (points ++ more, k)

/-- A scalar in quotes, from its opening quote. -/
def read (quote : Char) (i : Input) : Except Problem (List Nat × Input) :=
  content quote (i.rest.length + 1) i.advance

end Quotation

namespace Block

/-- What becomes of the line breaks at the end. -/
inductive Chomping where
  | strip
  | clip
  | keep
deriving DecidableEq

def chomping? (i : Input) : Option Chomping :=
  if i.nextIs '+' then some .keep else if i.nextIs '-' then some .strip else none

/-- A digit for the indentation; zero is none. -/
def increment? (i : Input) : Except Problem (Option Nat) :=
  match i.peek with
  | some c =>
    if isDigit c then if c = '0' then .error .invalid else .ok (some (hexValue c)) else .ok none
  | none => .ok none

/-- The chomping mark and the digit, in either order, each at most once. -/
def header (i : Input) : Except Problem (Chomping × Option Nat × Input) :=
  match chomping? i with
  | some chomping => do
    let increment ← increment? i.advance
    return (chomping, increment, i.skip (if increment.isSome then 2 else 1))
  | none => do
    match ← increment? i with
    | none => return (.clip, none, i)
    | some n =>
      let j := i.advance
      match chomping? j with
      | some chomping => return (chomping, some n, j.advance)
      | none => return (.clip, some n, j)

/-- Blank lines in front of the first line with text: their breaks, and the rightmost column that is
reached among them. -/
def leadingLines : Nat → Nat → Input → List Char × Nat × Input
  | 0, deepest, i => ([], deepest, i)
  | fuel + 1, deepest, i =>
    if i.nextIs ' ' then
      let j := i.advance
      leadingLines fuel (max deepest j.column) j
    else if i.among isBreak then
      let (b, j) := i.lineBreak
      let (more, deepest, k) := leadingLines fuel deepest j
      (b ++ more, deepest, k)
    else ([], deepest, i)

/-- Passes over spaces up to a column. -/
def indentTo (indent : Nat) (i : Input) : Input :=
  i.skip (((i.rest.takeWhile (· == ' ')).length).min (indent - i.column))

/-- Blank lines between lines with text, of which spaces are passed over up to the indentation. -/
def blankLines (indent : Nat) : Nat → Input → List Char × Input
  | 0, i => ([], i)
  | fuel + 1, i =>
    let j := indentTo indent i
    if j.among isBreak then
      let (b, k) := j.lineBreak
      let (more, l) := blankLines indent fuel k
      (b ++ more, l)
    else ([], j)

/-- The text of a block without its end, the break behind its last line, the blank lines behind
that, and where all of it ends. -/
structure Lines where
  text : List Char
  lastBreak : List Char
  blankLines : List Char
  rest : Input

def inside (indent : Nat) (i : Input) : Bool := i.column == indent && !i.rest.isEmpty

/-- Between lines that begin with a blank, breaks are not folded. -/
def lines (folded : Bool) (indent : Nat) : Nat → List Char → Input → Lines
  | 0, breaks, i => ⟨[], [], breaks, i⟩
  | fuel + 1, breaks, i =>
    if inside indent i then
      let (line, j) := i.span (!isBreak ·)
      let (b, k) := j.lineBreak
      let (next, l) := blankLines indent (k.rest.length + 1) k
      if inside indent l then
        let glue :=
          if folded && b == ['\n'] && !i.among isBlank && !l.among isBlank then
            if next.isEmpty then [' '] else []
          else b
        let more := lines folded indent fuel next l
        { more with text := breaks ++ line ++ glue ++ more.text }
      else ⟨breaks ++ line, b, next, l⟩
    else ⟨[], [], breaks, i⟩

def ending (chomping : Chomping) (l : Lines) : List Char :=
  match chomping with
  | .strip => []
  | .clip => l.lastBreak
  | .keep => l.lastBreak ++ l.blankLines

/-- A block scalar inside a collection of some indentation, from its indicator. The lines are
indented by at least one space more than the collection, and at least by one. -/
def read (folded : Bool) (indent : Int) (i : Input) : Except Problem (List Char × Input) := do
  let (chomping, increment, j) ← header i.advance
  if !endsField j.peek then throw .invalid
  match j.restOfLine? with
  | none => throw .invalid
  | some k =>
    let least := max 1 (indent + 1).toNat
    let (column, breaks, l) := match increment with
      | some n =>
        let (breaks, l) := blankLines (least + n - 1) (k.rest.length + 1) k
        (least + n - 1, breaks, l)
      | none =>
        let (breaks, deepest, l) := leadingLines (k.rest.length + 1) 0 k
        (max least deepest, breaks, l)
    let result := lines folded column (l.rest.length + 1) breaks l
    return (result.text ++ ending chomping result, result.rest)

end Block

end GraphQLDoc.Yaml
