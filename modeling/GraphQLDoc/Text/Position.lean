/-!
Positions in a source text. An offset counts characters from zero; lines and columns count from one,
and only a line feed starts a new line. A position is always the result of walking over the text
before it, so line and column are functions of that text.
-/
namespace GraphQLDoc

structure Position where
  offset : Nat
  line : Nat
  column : Nat
deriving DecidableEq

namespace Position

def start : Position := ⟨0, 1, 1⟩

/-- The position behind one more character. -/
def next (p : Position) (c : Char) : Position :=
  if c = '\n' then ⟨p.offset + 1, p.line + 1, 1⟩ else ⟨p.offset + 1, p.line, p.column + 1⟩

/-- The position behind a piece of text that begins at `p`. -/
def after (p : Position) (cs : List Char) : Position :=
  cs.foldl next p

@[simp] theorem after_nil (p : Position) : p.after [] = p := rfl

@[simp] theorem after_cons (p : Position) (c : Char) (cs : List Char) :
    p.after (c :: cs) = (p.next c).after cs := rfl

theorem after_append (p : Position) (cs ds : List Char) :
    p.after (cs ++ ds) = (p.after cs).after ds :=
  List.foldl_append

theorem next_offset (p : Position) (c : Char) : (p.next c).offset = p.offset + 1 := by
  unfold next; split <;> rfl

theorem after_offset (p : Position) (cs : List Char) :
    (p.after cs).offset = p.offset + cs.length := by
  induction cs generalizing p with
  | nil => rfl
  | cons c cs ih => rw [after_cons, ih, next_offset, List.length_cons]; omega

end Position

/-- A region of the source text: the position of its first character and the one behind its last. -/
structure Span where
  first : Position
  last : Position
deriving DecidableEq

/-- The empty region at a position. -/
def Span.point (p : Position) : Span := ⟨p, p⟩

/-- The line that a position lies in, without its line feed. -/
def lineAt (text : List Char) (p : Position) : List Char :=
  let before := (text.take p.offset).reverse.takeWhile (· != '\n')
  before.reverse ++ (text.drop p.offset).takeWhile (· != '\n')

/-- The line of a position without trailing carriage returns, and below it a caret under the column.
-/
def caretContext (text : List Char) (p : Position) : String :=
  let line := ((lineAt text p).reverse.dropWhile (· == '\r')).reverse
  String.ofList (line ++ '\n' :: List.replicate (p.column - 1) ' ' ++ ['^'])

end GraphQLDoc
