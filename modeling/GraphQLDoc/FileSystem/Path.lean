/-!
Paths. A path is a list of components behind an anchor, which is empty for a path relative to the
working directory. Empty components and single dots say nothing and are left out; two dots are kept,
since what they lead to depends on links.
-/
namespace GraphQLDoc

structure Path where
  anchor : String
  parts : List String
deriving DecidableEq

namespace Path

/-- Two slashes in front are an anchor of their own; any other number counts as one. -/
def anchorOf (cs : List Char) : String :=
  match (cs.takeWhile (· == '/')).length with
  | 0 => ""
  | 2 => "//"
  | _ => "/"

/-- Whether a component says where to go. -/
def isPart (part : String) : Bool := part != "" && part != "."

def partsOf (cs : List Char) : List String :=
  ((cs.splitOn '/').map String.ofList).filter isPart

def ofString (s : String) : Path := ⟨anchorOf s.toList, partsOf s.toList⟩

/-- The path of the working directory. -/
def here : Path := ⟨"", []⟩

/-- An absolute path. -/
def absolute (parts : List String) : Path := ⟨"/", parts⟩

def isAbsolute (p : Path) : Bool := p.anchor != ""

def text (p : Path) : String :=
  if p.parts.isEmpty && !p.isAbsolute then "." else p.anchor ++ "/".intercalate p.parts

/-- The path `q` as seen from `p`. -/
def join (p q : Path) : Path := if q.isAbsolute then q else ⟨p.anchor, p.parts ++ q.parts⟩

def child (p : Path) (name : String) : Path := ⟨p.anchor, p.parts ++ [name]⟩

/-- The path without its last component. -/
def parent (p : Path) : Path := ⟨p.anchor, p.parts.dropLast⟩

/-- The components behind another path. -/
def behind? (base p : Path) : Option (List String) :=
  if p.anchor = base.anchor ∧ base.parts.isPrefixOf p.parts then
    some (p.parts.drop base.parts.length)
  else none

/-- Whether a path names nothing because it holds a null character. -/
def hasNull (p : Path) : Bool := p.parts.any fun part => part.toList.contains '\x00'

/-- A name without its last suffix, which is a dot with something in front of it and behind it. -/
def stem (name : String) : String :=
  let cs := name.toList
  let suffix := (cs.reverse.takeWhile (· != '.')).length
  if suffix = 0 ∨ cs.length ≤ suffix + 1 then name
  else String.ofList (cs.take (cs.length - suffix - 1))

/-! The order of paths: component by component. -/

def before : List String → List String → Bool
  | [], [] => false
  | [], _ :: _ => true
  | _ :: _, [] => false
  | a :: as, b :: bs => a < b || (a == b && before as bs)

/-- Puts a path into an increasing list, unless it is there. -/
def insertInto (p : Path) : List Path → List Path
  | [] => [p]
  | q :: qs =>
    if before p.parts q.parts then p :: q :: qs
    else if p.parts = q.parts then q :: qs
    else q :: insertInto p qs

end Path

end GraphQLDoc
