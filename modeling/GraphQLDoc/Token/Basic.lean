import GraphQLDoc.Text.Position
import GraphQLDoc.Token.Pattern

/-!
Tokens and how the next one is read. Which terminals are tried depends on the state of the parser:
keywords are not reserved, and a text is read as a keyword only where one is wanted.
-/
namespace GraphQLDoc

structure Token where
  terminal : Terminal
  text : List Char
  span : Span
deriving DecidableEq

/-- A text still to be read, and where it begins. -/
structure Input where
  position : Position
  text : List Char

namespace Input

def ofText (text : List Char) : Input := ⟨.start, text⟩

def drop (i : Input) (n : Nat) : Input :=
  ⟨i.position.after (i.text.take n), i.text.drop n⟩

/-- The input behind separators and comments. -/
def skipIgnored (i : Input) : Input := i.drop (ignoredLength false i.text)

theorem drop_text (i : Input) (n : Nat) : (i.drop n).text = i.text.drop n := rfl

end Input

/-- A match: which terminal, and how many characters. -/
structure Match where
  terminal : Terminal
  length : Nat
deriving DecidableEq

namespace Match

/-- Names a match of the pattern for names: a keyword, if the whole text is one that is wanted. -/
def named (wanted : List Terminal) (text : List Char) (n : Nat) : Match :=
  let keyword := Keyword.all.find? fun k =>
    .keyword k ∈ wanted && k.word.toList == text.take n
  ⟨(keyword.map Terminal.keyword).getD .name, n⟩

/-- The match of one terminal among those wanted. Where a name is wanted, keywords are read as names
first; elsewhere a keyword matches without regard to what follows it. -/
def one? (wanted : List Terminal) (text : List Char) : Terminal → Option Match
  | .name => (Pattern.name text).map (named wanted text)
  | .int => (Pattern.int text).map (⟨.int, ·⟩)
  | .float => (Pattern.float text).map (⟨.float, ·⟩)
  | .string => (Pattern.string text).map (⟨.string, ·⟩)
  | .blockString => (Pattern.blockString text).map (⟨.blockString, ·⟩)
  | .keyword k =>
    if .name ∈ wanted then none else (Pattern.word k.word text).map (⟨.keyword k, ·⟩)
  | .punctuator p => (Pattern.word p.word text).map (⟨.punctuator p, ·⟩)

/-- The order in which terminals are tried: a block string before a string, since three quotes begin
both. No other two terminals match the same text. -/
def order : List Terminal :=
  [.float, .blockString, .name, .int, .string] ++ Keyword.all.map .keyword ++
    Punctuator.all.map .punctuator

def first? (wanted : List Terminal) (text : List Char) : Option Match :=
  (order.filter (· ∈ wanted)).findSome? (one? wanted text)

end Match

/-- The token at the front of an input, and the input behind it. -/
def Input.token? (wanted : List Terminal) (i : Input) : Option (Token × Input) :=
  (Match.first? wanted i.text).map fun m =>
    let rest := i.drop m.length
    (⟨m.terminal, i.text.take m.length, ⟨i.position, rest.position⟩⟩, rest)

end GraphQLDoc
