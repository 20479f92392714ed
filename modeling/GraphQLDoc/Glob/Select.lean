import GraphQLDoc.FileSystem.Basic
import GraphQLDoc.Glob.Pattern
import GraphQLDoc.Machine

/-!
The paths below a directory that a pattern selects. Directories that are links are entered where a
component names or matches them, and not where two stars stand for them.
-/
namespace GraphQLDoc.Glob

/-- What comes of each entry of a directory. A directory that is not read ends the selection. -/
def fromEntries (fs : FileSystem) (p : Path)
    (selected : String → FileNode → List (Except FileError Path)) : List (Except FileError Path) :=
  match fs.entries p with
  | .ok entries => entries.flatMap fun (name, n) => selected name n
  | .error e => [.error e]

/-- A directory and all below it, one after another up to the first that is too deep. -/
def below (fs : FileSystem) : Nat → Path → List (Except FileError Path)
  | 0, _ => [.error .tooDeep]
  | calls + 1, p =>
    .ok p :: fromEntries fs p fun name n =>
      match n with
      | .directory _ => below fs calls (p.child name)
      | _ => []

/-- A call for each directory on the way down is nested in the one for the directory around it. -/
def directoriesBelow [Machine] (fs : FileSystem) (p : Path) : List (Except FileError Path) :=
  below fs (Machine.calls + 1) p

/-- Whether an entry is a directory or, if it is a link, leads to one. -/
def leadsToDirectory (fs : FileSystem) (p : Path) : FileNode → Except FileError Bool
  | .directory _ => .ok true
  | .file _ _ => .ok false
  | .link _ => fs.ask p (fs.isDirectory p)

/-- What there is to select where a question was answered with yes. A question without an answer ends
the selection. -/
def selectIf (answer : Except FileError Bool) (selected : Unit → List (Except FileError Path)) :
    List (Except FileError Path) :=
  match answer with
  | .ok true => selected ()
  | .ok false => []
  | .error e => [.error e]

variable [Machine]

/-- What the components select from a path on, one after another up to the first error. All but the last
one lead to directories. -/
def selectFrom (fs : FileSystem) : List Component → Path → List (Except FileError Path)
  | [], p => [.ok p]
  | .nothing :: _, p => [.ok p]
  | .name s :: rest, p =>
    let q := p.child s
    selectIf (fs.ask q (if rest.isEmpty then fs.hasPath q else fs.isDirectory q)) fun _ =>
      selectFrom fs rest q
  | .wildcard ws :: rest, p =>
    fromEntries fs p fun name n =>
      let q := p.child name
      selectIf (if rest.isEmpty then .ok true else leadsToDirectory fs q n) fun _ =>
        if Wildcard.matchesAll ws name.toList then selectFrom fs rest q else []
  | .directories :: rest, p =>
    (directoriesBelow fs p).flatMap fun
      | .ok q => selectFrom fs rest q
      | .error e => [.error e]

/-- What a pattern selects below a directory. A path may be selected more than once. -/
def select (fs : FileSystem) (components : List Component) (root : Path) :
    List (Except FileError Path) :=
  selectIf (fs.ask root (fs.isDirectory root)) fun _ => selectFrom fs components root

end GraphQLDoc.Glob
