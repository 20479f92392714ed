import GraphQLDoc.FileSystem.Basic
import GraphQLDoc.Workspace.Fault
import GraphQLDoc.Yaml.Document

/-!
The configuration of a workspace: where compiled documents go, and which files are its sources.
-/
namespace GraphQLDoc

structure Config where
  buildDirectory : JsonString
  /-- Patterns relative to the root of the workspace. -/
  sources : List JsonString
deriving DecidableEq

inductive ConfigProblem where
  | notFound
  | unreadable (e : FileError)
  | invalidYaml
  | notMapping
  | noBuildDirectory
  | buildDirectoryNoText
  | sourcesNoTexts
  | sourcesEmpty
deriving DecidableEq

namespace Config

def fileName : String := ".gqlast.yaml"

def defaultBuildDirectory : String := ".gqlast-build"

def defaultSources : List String := ["**/*.graphql"]

/-- A file with the default configuration. -/
def defaultText : String :=
  "build-directory: " ++ defaultBuildDirectory ++ "\nsources:\n" ++
    String.join (defaultSources.map fun pattern => "- '" ++ pattern ++ "'\n")

end Config

def ConfigProblem.message (p : Path) : ConfigProblem → String
  | notFound => "Workspace config file not found: " ++ p.text
  | unreadable e => "Cannot read workspace config file: " ++ e.describe p
  | invalidYaml => "Invalid YAML in " ++ p.text
  | notMapping => p.text ++ ": workspace config must be a YAML mapping"
  | noBuildDirectory => p.text ++ ": missing required field 'build-directory'"
  | buildDirectoryNoText => p.text ++ ": 'build-directory' must be a string"
  | sourcesNoTexts => p.text ++ ": 'sources' must be a list of strings"
  | sourcesEmpty => p.text ++ ": 'sources' must not be empty"

inductive ConfigError where
  | problem (p : ConfigProblem)
  | fault (f : Fault)

namespace Config

def buildDirectoryOf (value : Option Yaml.Content) : Except ConfigProblem JsonString :=
  match value with
  | none => .error .noBuildDirectory
  | some (.text s) => .ok s
  | some _ => .error .buildDirectoryNoText

def textOf? : Yaml.Content → Option JsonString
  | .text s => some s
  | _ => none

def sourcesOf (d : Yaml.Document) (value : Option Yaml.Content) :
    Except ConfigProblem (List JsonString) :=
  match value with
  | none => .ok (defaultSources.map .text)
  | some (.list []) | some (.pairs []) => .error .sourcesEmpty
  | some (.list items) =>
    match items.mapM fun i => textOf? (d.content i) with
    | some texts => .ok texts
    | none => .error .sourcesNoTexts
  | some _ => .error .sourcesNoTexts

def ofDocument (d : Yaml.Document) : Except ConfigProblem Config :=
  match d.content d.root with
  | .mapping entries => do
    let buildDirectory ← buildDirectoryOf (d.get? "build-directory" entries)
    let sources ← sourcesOf d (d.get? "sources" entries)
    return ⟨buildDirectory, sources⟩
  | _ => .error .notMapping

def ofText [Machine] (text : List Char) : Except ConfigError Config :=
  match Yaml.Document.read text with
  | .error .invalid => .error (.problem .invalidYaml)
  | .error .tooDeep => .error (.fault .configuration)
  | .error (.scalar f) => .error (.fault (.scalar f))
  | .ok none => .error (.problem .notMapping)
  | .ok (some d) => (ofDocument d).mapError .problem

/-- The configuration in a file. -/
def load [Machine] (fs : FileSystem) (p : Path) : Except ConfigError Config :=
  match fs.readText p with
  | .error (.file .notFound) => .error (.problem .notFound)
  | .error (.file .nullCharacter) => .error (.fault (.file .nullCharacter))
  | .error (.file e) => .error (.problem (.unreadable e))
  | .error (.encoding f) => .error (.fault (.encoding f))
  | .ok text => ofText text

end Config

end GraphQLDoc
