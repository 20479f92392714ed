/-!
Wildcards within one component of a path: `*` for any run of characters, `?` for one, and classes in
brackets. An opening bracket that is never closed stands for itself.
-/
namespace GraphQLDoc.Glob

/-- A set of characters. -/
inductive CharClass where
  | ranges (negated : Bool) (ranges : List (Char × Char))
  | all
deriving DecidableEq

inductive Wildcard where
  | run
  | one
  | oneOf (c : CharClass)
  | exactly (c : Char)
deriving DecidableEq

namespace CharClass

def has (c : Char) : CharClass → Bool
  | all => true
  | ranges negated rs => negated != rs.any fun (low, high) => low ≤ c && c ≤ high

/-- Cuts the text of a class at the hyphens that make ranges. Such a hyphen has at least `skip`
characters in front of it, since the last cut, and none directly behind a range. -/
def cutsWithin : Nat → Nat → List Char → List (List Char)
  | 0, _, cs => [cs]
  | fuel + 1, skip, cs =>
    let front := cs.take skip ++ (cs.drop skip).takeWhile (· != '-')
    if front.length < cs.length then front :: cutsWithin fuel 2 (cs.drop (front.length + 1))
    else [cs]

/-- A hyphen at the end is a character of the class. -/
def closeLast : List (List Char) → List (List Char)
  | [] => []
  | [a, []] => [a ++ ['-']]
  | a :: rest => a :: closeLast rest

/-- Drops the ranges that are empty because they end before they begin, from the last to the first.
-/
def dropEmpty : List (List Char) → List (List Char)
  | [] => []
  | a :: rest =>
    match dropEmpty rest with
    | [] => [a]
    | b :: more =>
      match a.getLast?, b.head? with
      | some low, some high =>
        if high < low then (a.dropLast ++ b.drop 1) :: more else a :: b :: more
      | _, _ => a :: b :: more

def singles (cs : List Char) : List (Char × Char) := cs.map fun c => (c, c)

/-- The characters and ranges of a class that was cut, where a range joins the end of each piece to
the beginning of the next. -/
def rangesOf : List Char → List (List Char) → List (Char × Char)
  | a, [] => singles a
  | a, b :: more =>
    match a.getLast?, b with
    | some low, high :: tail => singles a.dropLast ++ (low, high) :: rangesOf tail more
    | _, _ => singles a ++ ('-', '-') :: rangesOf b more

/-- The class with a text between its brackets. An exclamation mark in front negates it. -/
def ofText (cs : List Char) : CharClass :=
  let skip := if cs.head? = some '!' then 2 else 1
  match dropEmpty (closeLast (cutsWithin cs.length skip cs)) with
  | [] | [[]] => ranges false []
  | [['!']] => all
  | ('!' :: a) :: rest => ranges true (rangesOf a rest)
  | a :: rest => ranges false (rangesOf a rest)

end CharClass

namespace Wildcard

/-- The text of a class behind its opening bracket. A closing bracket at its beginning belongs to
it. -/
def classText? (cs : List Char) : Option (List Char) :=
  let mark := if cs.head? = some '!' then 1 else 0
  let first := if (cs.drop mark).head? = some ']' then mark + 1 else mark
  let text := cs.take first ++ (cs.drop first).takeWhile (· != ']')
  if text.length < cs.length then some text else none

def ofCharsWithin : Nat → List Char → List Wildcard
  | 0, _ => []
  | _, [] => []
  | fuel + 1, c :: cs =>
    if c = '*' then run :: ofCharsWithin fuel cs
    else if c = '?' then one :: ofCharsWithin fuel cs
    else if c = '[' then
      match classText? cs with
      | some text => oneOf (.ofText text) :: ofCharsWithin fuel (cs.drop (text.length + 1))
      | none => exactly c :: ofCharsWithin fuel cs
    else exactly c :: ofCharsWithin fuel cs

def ofChars (cs : List Char) : List Wildcard := ofCharsWithin cs.length cs

/-- Whether a test holds of a text or of what is left of it after some characters. -/
def anySuffix (test : List Char → Bool) : List Char → Bool
  | [] => test []
  | c :: cs => test (c :: cs) || anySuffix test cs

def matchesOne (c : Char) : Wildcard → Bool
  | run => false
  | one => true
  | oneOf k => k.has c
  | exactly d => c == d

/-- Whether a whole name is matched. -/
def matchesAll : List Wildcard → List Char → Bool
  | [], cs => cs.isEmpty
  | run :: ws, cs => anySuffix (matchesAll ws) cs
  | w :: ws, c :: cs => matchesOne c w && matchesAll ws cs
  | _ :: _, [] => false

end Wildcard

end GraphQLDoc.Glob
