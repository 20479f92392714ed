import GraphQLDoc.Yaml.Property
import GraphQLDoc.Yaml.Scalar

/-!
Reading the tokens of a YAML text. A key may be recognised only by the colon behind it, so each
place where one can begin is kept as a candidate: one for every level of brackets. A candidate
lapses at the end of its line and after 1024 characters. It is required when it stands at the column
of the enclosing block collection, where nothing but a key can stand. The tokens in front of all
candidates are settled, and only these are seen where reading stops.
-/
namespace GraphQLDoc.Yaml

/-- A place where a key may have begun: how many tokens are in front of it, and its position. -/
structure Candidate where
  count : Nat
  required : Bool
  offset : Nat
  line : Nat
  column : Nat

structure Lexer where
  input : Input
  tokens : List Token
  /-- How many brackets are open. -/
  flowLevel : Nat
  /-- The column of the innermost block collection; outside of all of them it is -1. -/
  indent : Int
  indents : List Int
  keyAllowed : Bool
  /-- The candidates by level of brackets, at most one for each. -/
  candidates : List (Nat × Candidate)

namespace Lexer

/-- The tokens are kept in reverse. -/
def push (t : Token) (l : Lexer) : Lexer := { l with tokens := t :: l.tokens }

def start (text : List Char) : Lexer := ⟨.ofText text, [], 0, -1, [], true, []⟩

def inFlow (l : Lexer) : Bool := l.flowLevel != 0

/-- Puts tokens behind the first `count` ones. -/
def insert (ts : List Token) (count : Nat) (l : Lexer) : Lexer :=
  let later := l.tokens.length - count
  { l with tokens := l.tokens.take later ++ ts.reverse ++ l.tokens.drop later }

/-! Indentation. -/

def unwindTo (column : Int) : List Int → Int → List Token → List Int × Int × List Token
  | [], indent, ts => ([], indent, ts)
  | outer :: more, indent, ts =>
    if column < indent then unwindTo column more outer (.blockEnd :: ts)
    else (outer :: more, indent, ts)

/-- Ends the block collections that stand to the right of a column. -/
def unwind (column : Int) (l : Lexer) : Lexer :=
  if l.inFlow then l
  else
    let (indents, indent, tokens) := unwindTo column l.indents l.indent l.tokens
    { l with indents, indent, tokens }

/-- Whether a collection at this column is a new one inside the current one. -/
def opens (column : Nat) (l : Lexer) : Bool := l.indent < column

def nest (column : Nat) (l : Lexer) : Lexer :=
  { l with indents := l.indent :: l.indents, indent := column }

/-! Candidates for keys. -/

/-- Drops the candidate of the current level, which must not be a required one. -/
def dropCandidate (l : Lexer) : Except Problem Lexer :=
  match l.candidates.lookup l.flowLevel with
  | some c =>
    if c.required then .error .invalid
    else .ok { l with candidates := l.candidates.filter (·.1 != l.flowLevel) }
  | none => .ok l

/-- Makes the current place a candidate, where a key is allowed. -/
def addCandidate (l : Lexer) : Except Problem Lexer :=
  if l.keyAllowed then do
    let required := !l.inFlow && l.indent == l.input.column
    let c : Candidate := ⟨l.tokens.length, required, l.input.offset, l.input.line, l.input.column⟩
    let l ← l.dropCandidate
    return { l with candidates := (l.flowLevel, c) :: l.candidates }
  else .ok l

def maxKeyLength : Nat := 1024

def Candidate.lapsed (i : Input) (c : Candidate) : Bool :=
  c.line != i.line || maxKeyLength < i.offset - c.offset

/-- Drops the candidates that have lapsed. -/
def dropLapsed (l : Lexer) : Except Problem Lexer :=
  let (lapsed, live) := l.candidates.partition fun (_, c) => Candidate.lapsed l.input c
  if lapsed.any (·.2.required) then .error .invalid else .ok { l with candidates := live }

/-! Between tokens. -/

/-- Passes over spaces, comments and line breaks. Behind a line break outside of brackets a key may
begin. -/
def skipBlanks : Nat → Lexer → Lexer
  | 0, l => l
  | fuel + 1, l =>
    let i := (l.input.skipWhile (· == ' ')).skipComment
    if i.among isBreak then
      skipBlanks fuel { l with input := i.lineBreak.2, keyAllowed := l.keyAllowed || !l.inFlow }
    else { l with input := i }

/-- Goes to the next token. -/
def settle (l : Lexer) : Except Problem Lexer := do
  let i := if l.input.offset == 0 && l.input.nextIs '\uFEFF' then l.input.advance else l.input
  let l ← dropLapsed (skipBlanks (i.rest.length + 1) { l with input := i })
  return l.unwind l.input.column

/-! Single tokens. -/

/-- A token of one character. -/
def take (t : Token) (l : Lexer) : Lexer := { l with input := l.input.advance }.push t

def documentMark (t : Token) (l : Lexer) : Except Problem Lexer := do
  let l ← (l.unwind (-1)).dropCandidate
  return { l with input := l.input.skip 3, keyAllowed := false }.push t

def directive (l : Lexer) : Except Problem Lexer := do
  let l ← (l.unwind (-1)).dropCandidate
  let (t, input) ← Directive.read l.input
  return { l with input, keyAllowed := false }.push t

def openBracket (t : Token) (l : Lexer) : Except Problem Lexer := do
  let l ← l.addCandidate
  return { l with flowLevel := l.flowLevel + 1, keyAllowed := true }.take t

/-- A bracket that closes nothing is a token that no node can begin or end with. -/
def closeBracket (t : Token) (l : Lexer) : Except Problem Lexer := do
  let l ← l.dropCandidate
  return { l with flowLevel := l.flowLevel - 1, keyAllowed := false }.take t

def comma (l : Lexer) : Except Problem Lexer := do
  let l ← { l with keyAllowed := true }.dropCandidate
  return l.take .flowEntry

/-- Starts a block collection at the current column, unless it is one more item of the current
collection. Only where a key is allowed may one start. -/
def enter (t : Token) (l : Lexer) : Except Problem Lexer :=
  if l.inFlow then .ok l
  else if !l.keyAllowed then .error .invalid
  else if l.opens l.input.column then .ok ((l.nest l.input.column).push t)
  else .ok l

def dash (l : Lexer) : Except Problem Lexer := do
  let l ← l.enter .blockSequenceStart
  let l ← { l with keyAllowed := true }.dropCandidate
  return l.take .blockEntry

def questionMark (l : Lexer) : Except Problem Lexer := do
  let l ← l.enter .blockMappingStart
  let l ← { l with keyAllowed := !l.inFlow }.dropCandidate
  return l.take .key

/-- A colon makes the candidate of its level a key. Where there is none, it stands behind a key that
was announced by a question mark, or behind an empty one. -/
def colon (l : Lexer) : Except Problem Lexer :=
  match l.candidates.lookup l.flowLevel with
  | some c =>
    let starts := !l.inFlow && l.opens c.column
    let l := l.insert (if starts then [.blockMappingStart, .key] else [.key]) c.count
    let l := if starts then l.nest c.column else l
    .ok ({ l with
      keyAllowed := false
      candidates := l.candidates.filter (·.1 != l.flowLevel) }.take .value)
  | none => do
    let l ← l.enter .blockMappingStart
    let l ← { l with keyAllowed := !l.inFlow }.dropCandidate
    return l.take .value

/-- A token that may be a key or the beginning of one. -/
def property (read : Input → Except Problem (Token × Input)) (l : Lexer) :
    Except Problem Lexer := do
  let l ← l.addCandidate
  let (t, input) ← read l.input
  return { l with input, keyAllowed := false }.push t

def named (make : List Char → Token) (i : Input) : Except Problem (Token × Input) :=
  (anchorName i).map fun (name, j) => (make name, j)

def quoted (quote : Char) (i : Input) : Except Problem (Token × Input) :=
  (Quotation.read quote i).map fun (points, j) => (.scalar points false, j)

def block (folded : Bool) (l : Lexer) : Except Problem Lexer := do
  let l ← { l with keyAllowed := true }.dropCandidate
  let (text, input) ← Block.read folded l.indent l.input
  return { l with input }.push (.scalar (text.map Char.toNat) false)

def plain (l : Lexer) : Except Problem Lexer := do
  let l ← l.addCandidate
  let (text, crossed, input) := Plain.read l.inFlow (l.indent + 1) l.input
  return { l with input, keyAllowed := crossed }.push (.scalar (text.map Char.toNat) true)

/-- Whether a plain scalar begins with this character. -/
def startsPlain (inFlow : Bool) (c : Char) (next : Option Char) : Bool :=
  !(isBlank c || isBreak c || isIndicator c) ||
    (!endsWord next && (c == '-' || (!inFlow && (c == '?' || c == ':'))))

/-- The next token, which begins with the character `c`. -/
def token (c : Char) (l : Lexer) : Except Problem Lexer :=
  let i := l.input
  let next := i.peekAt 1
  let first := i.column == 0
  let mark := l.inFlow || endsWord next
  if c == '%' && first then l.directive
  else if first && i.atMark '-' then l.documentMark .documentStart
  else if first && i.atMark '.' then l.documentMark .documentEnd
  else if c == '[' then l.openBracket .flowSequenceStart
  else if c == '\x7b' then l.openBracket .flowMappingStart
  else if c == ']' then l.closeBracket .flowSequenceEnd
  else if c == '\x7d' then l.closeBracket .flowMappingEnd
  else if c == ',' then l.comma
  else if c == '-' && endsWord next then l.dash
  else if c == '?' && mark then l.questionMark
  else if c == ':' && mark then l.colon
  else if c == '*' then l.property (named .reference)
  else if c == '&' then l.property (named .anchor)
  else if c == '!' then l.property Tag.read
  else if c == '|' && !l.inFlow then l.block false
  else if c == '>' && !l.inFlow then l.block true
  else if c == '\'' || c == '"' then l.property (quoted c)
  else if startsPlain l.inFlow c next then l.plain
  else .error .invalid

/-- Reads one more token, or what indentation ends with the text; then there are no more. -/
def next (l : Lexer) : Except Problem (Lexer × Bool) := do
  let l ← l.settle
  match l.input.rest with
  | [] => return (← (l.unwind (-1)).dropCandidate, false)
  | c :: _ => return (← l.token c, true)

end Lexer

/-- What can be seen of the tokens of a text, and what keeps the others from being read. -/
structure Scan where
  tokens : List Token
  stop : Option Problem

namespace Lexer

/-- The tokens in front of all candidates, in their order. One that has lapsed is none any more,
unless it is required. -/
def settled (l : Lexer) : List Token :=
  let counts := l.candidates.filterMap fun (_, c) =>
    if c.required || !Candidate.lapsed l.input c then some c.count else none
  l.tokens.reverse.take (counts.foldl min l.tokens.length)

def run : Nat → Lexer → Scan
  | 0, l => ⟨l.settled, some .invalid⟩
  | fuel + 1, l =>
    match l.next with
    | .error p => ⟨l.settled, some p⟩
    | .ok (l, false) => ⟨l.tokens.reverse, none⟩
    | .ok (l, true) => run fuel l

end Lexer

/-- The tokens of a text. Every token but those for indentation takes at least one character. -/
def scan (text : List Char) : Scan :=
  if text.all isAllowed then (Lexer.start text).run (text.length + 1) else ⟨[], some .invalid⟩

end GraphQLDoc.Yaml
