import GraphQLDoc.FileSystem.Resolve
import GraphQLDoc.Glob.Select
import GraphQLDoc.Workspace.Config

/-!
The sources of a workspace: the files that a pattern selects and that are not in the build
directory, where a link counts as what it leads to. They come in the order of paths, each once.
-/
namespace GraphQLDoc.Sources

/-- Where the build directory of a workspace really is. -/
def buildDirectory (fs : FileSystem) (root : Path) : JsonString → Except Fault Path
  | .text s => (fs.resolve (root.join (Path.ofString s))).mapError .resolve
  | .unpaired points => .error (.unpairedSurrogate ((points.find? (! Nat.isValidChar ·)).getD 0))

variable [Machine]

/-- What a pattern selects. A pattern that is no text selects nothing. -/
def selected (fs : FileSystem) (root : Path) :
    JsonString → Except Fault (List (Except FileError Path))
  | .text s => (Glob.ofText s).mapError .pattern |>.map fun cs => Glob.select fs cs root
  | .unpaired _ => .ok []

/-- Adds a path that was selected to the sources if it is a file outside of the build directory. -/
def add (fs : FileSystem) (build : Path) (found : List Path) (selected : Except FileError Path) :
    Except Fault (List Path) := do
  let p ← selected.mapError .file
  let real ← (fs.resolve p).mapError .resolve
  let isFile ← (fs.ask p (fs.isFile p)).mapError .file
  return if isFile && (build.behind? real).isNone then p.insertInto found else found

/-- Adds what a pattern selects. -/
def addSelected (fs : FileSystem) (root build : Path) (found : List Path) (pattern : JsonString) :
    Except Fault (List Path) := do
  (← selected fs root pattern).foldlM (add fs build) found

/-- The sources of a workspace with a configuration. -/
def files (fs : FileSystem) (root : Path) (config : Config) : Except Fault (List Path) := do
  let build ← buildDirectory fs root config.buildDirectory
  config.sources.foldlM (addSelected fs root build) []

end GraphQLDoc.Sources
