import GraphQLDoc.Automaton.Table
import GraphQLDoc.ParseTree.Basic
import GraphQLDoc.ParseTree.SyntaxError

/-!
Parsing of a text into a derivation. The parser keeps a stack of what it has read so far, each
piece with the state behind it. A lookahead first lets the table reduce the top of the stack, then
it is shifted. The next token is read with the terminals that the state on top of the stack wants,
and only if none of them matches with those of the whole grammar, to name what is there.
-/
namespace GraphQLDoc

/-- A piece that has been read, and the state behind it. -/
structure Frame where
  state : Nat
  derivation : Derivation

/-- What has been read, the last piece first, from a start. -/
structure Stack where
  start : Start
  frames : List Frame

namespace Stack

def topOf (start : Start) : List Frame → Nat
  | [] => Automaton.startState start
  | f :: _ => f.state

def top (s : Stack) : Automaton.State := Automaton.state (topOf s.start s.frames)

def push (s : Stack) (state : Nat) (d : Derivation) : Stack :=
  { s with frames := ⟨state, d⟩ :: s.frames }

/-- Gathers the pieces of a body into its head. -/
def reduce? (s : Stack) (p : Production) : Option Stack :=
  let n := p.body.length
  let below : Stack := { s with frames := s.frames.drop n }
  if s.frames.length < n then none
  else (below.top.goto? (.nonterminal p.head)).map fun q =>
    below.push q (.node p ((s.frames.take n).map (·.derivation)).reverse)

/-- A reduction of one piece climbs in the grammar and one of several shortens the stack, so no
lookahead lets more reductions happen than this. -/
def reductionBound (s : Stack) : Nat :=
  Nonterminal.all.length + s.frames.length * Nonterminal.all.length

/-- Reduces for as long as the table does so on `l`; then the state to shift to, if there is one. -/
def settle (l : Lookahead) : Nat → Stack → Stack × Option Nat
  | 0, s => (s, none)
  | n + 1, s =>
    match s.top.action? l with
    | none => (s, none)
    | some (.shift q) => (s, some q)
    | some (.reduce p) =>
      match s.reduce? p with
      | none => (s, none)
      | some t => settle l n t

def feed (s : Stack) (l : Lookahead) : Stack × Option Nat :=
  settle l s.reductionBound s

/-- The derivation of the whole text, when nothing but that is on the stack. -/
def result? (s : Stack) : Option Derivation :=
  match s.frames with
  | [⟨_, .node p children⟩] =>
    if p.head = .rule s.start.rule then some (.node p children) else none
  | _ => none

/-- Whether a lookahead can really be read: not only does the table list it, but the reductions
that it asks for end in a shift, or at the end of the input in the whole text. -/
def accepts (s : Stack) (l : Lookahead) : Bool :=
  match s.feed l with
  | (_, some _) => true
  | (t, none) => l.isNone && t.result?.isSome

/-- What can be read next. -/
def expected (s : Stack) : List Lookahead :=
  s.top.lookaheads.filter s.accepts

/-- The terminals that the next token is read with. -/
def wanted (s : Stack) : List Terminal :=
  s.top.lookaheads.filterMap id

end Stack

namespace Parse

def unexpected (text : List Char) (found : Found) (span : Span) (expected : List String) :
    SyntaxError :=
  ⟨found, span, expected, caretContext text span.first⟩

/-- The terminals that were tried; the end of the text is named where there are none. -/
def listTried (wanted : List Terminal) : List String :=
  if wanted.isEmpty then ["<END-OF-FILE>"] else Lookahead.list (wanted.map some)

/-- What one step gives: the derivation of the whole text, or one more token on the stack and the
input behind it. -/
inductive Progress where
  | done (d : Derivation)
  | more (stack : Stack) (rest : Input)

/-- Reads one token, or finds the end of the input. -/
def step (text : List Char) (stack : Stack) (input : Input) : Except SyntaxError Progress :=
  let here := input.skipIgnored
  match here.text with
  | [] =>
    let settled := (stack.feed none).1
    match settled.result? with
    | some d => .ok (.done d)
    | none =>
      .error (unexpected text .endOfInput (.point here.position) (Lookahead.list settled.expected))
  | c :: _ =>
    match here.token? stack.wanted with
    | some (token, rest) =>
      match stack.feed (some token.terminal) with
      | (settled, some q) => .ok (.more (settled.push q (.leaf token)) rest)
      | (settled, none) =>
        .error (unexpected text (.token token.text) token.span (Lookahead.list settled.expected))
    | none =>
      match here.token? Terminal.all with
      | some (token, _) =>
        .error (unexpected text (.token token.text) token.span (Lookahead.list stack.expected))
      | none =>
        .error (unexpected text (.character c) (.point here.position) (listTried stack.wanted))

/-- Takes steps until the input ends. Each step but the last uses up a token, so more of them than
the text has characters are never needed. -/
def loop (text : List Char) : Nat → Stack → Input → Except SyntaxError Derivation
  | 0, _, input => .error (unexpected text .endOfInput (.point input.position) [])
  | fuel + 1, stack, input =>
    match step text stack input with
    | .error e => .error e
    | .ok (.done d) => .ok d
    | .ok (.more stack rest) => loop text fuel stack rest

end Parse

/-- Derives a whole text from a start. -/
def derive (start : Start) (text : List Char) : Except SyntaxError Derivation :=
  Parse.loop text (text.length + 1) ⟨start, []⟩ (.ofText text)

/-- Parses a whole text into a tree. -/
def parseTree (start : Start) (text : List Char) : Except SyntaxError ParseTree := do
  let d ← derive start text
  return d.toTree.getD (.rule start.rule.tag none [])

end GraphQLDoc
