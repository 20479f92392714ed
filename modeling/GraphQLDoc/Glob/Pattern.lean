import GraphQLDoc.FileSystem.Path
import GraphQLDoc.Glob.Wildcard
import GraphQLDoc.Text.Quoted

/-!
Patterns for paths, component by component. Two stars as a component stand for any number of
directories; a component with a wildcard is matched against names; any other component is a name
itself. A slash at the end asks for directories.
-/
namespace GraphQLDoc.Glob

inductive Component where
  | name (s : String)
  | wildcard (ws : List Wildcard)
  | directories
  /-- Nothing behind a slash at the end. -/
  | nothing
deriving DecidableEq

/-- Why a text is no pattern. -/
inductive PatternError where
  | empty
  | absolute
  | mixedStars
  | noComponents
  | onlySlash
deriving DecidableEq

namespace PatternError

def message : PatternError → String
  | empty => "Unacceptable pattern: ''"
  | absolute => "Non-relative patterns are unsupported"
  | mixedStars => "Invalid pattern: '**' can only be an entire path component"
  | noComponents => "tuple index out of range"
  | onlySlash => "'_TerminatingSelector' object has no attribute 'select_from'"

end PatternError

def hasTwoStars : List Char → Bool
  | '*' :: '*' :: _ => true
  | _ :: cs => hasTwoStars cs
  | [] => false

def hasWildcard (cs : List Char) : Bool := cs.any fun c => c == '*' || c == '?' || c == '['

def component (part : String) : Except PatternError Component :=
  let cs := part.toList
  if part = "**" then .ok .directories
  else if hasTwoStars cs then .error .mixedStars
  else if hasWildcard cs then .ok (.wildcard (Wildcard.ofChars cs))
  else .ok (.name part)

/-- The components of a pattern. -/
def ofText (s : String) : Except PatternError (List Component) :=
  let p := Path.ofString s
  if s = "" then .error .empty
  else if p.isAbsolute then .error .absolute
  else if p.parts.isEmpty then
    .error (if s.toList.getLast? = some '/' then .onlySlash else .noComponents)
  else do
    let components ← p.parts.mapM component
    return components ++ if s.toList.getLast? = some '/' then [.nothing] else []

end GraphQLDoc.Glob
