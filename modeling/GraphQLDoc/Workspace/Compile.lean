import GraphQLDoc.Artifact
import GraphQLDoc.FileSystem.Change
import GraphQLDoc.Workspace.Fault

/-!
Compiling sources. Every source has a key, its path below the root without the last suffix. The
compiled document is kept as an artifact under that key in the build directory, and it is used
instead of the source as long as it is newer and can be read.
-/
namespace GraphQLDoc

inductive CompileError where
  | outsideRoot (source root : Path)
  | source (p : Path) (report : String)
  | fault (f : Fault)

inductive ArtifactFileError where
  | file (e : TextFileError)
  | content (p : Artifact.Problem)

namespace Artifact

def suffix : String := ".graphql.json"

variable [Machine]

def load (fs : FileSystem) (p : Path) : Except ArtifactFileError Document :=
  match fs.readText p with
  | .error e => .error (.file e)
  | .ok text => (deserialize text).mapError .content

/-- Writes an artifact. The directories on the way to it are made before there is a text to write. -/
def save (d : Document) (p : Path) (fs : FileSystem) : Except Fault Unit × FileSystem :=
  match fs.ensureDirectories p.parent with
  | (.error e, made) => (.error (.file e), made)
  | (.ok (), made) =>
    match serialize d with
    | .error e => (.error (.dump e), made)
    | .ok text =>
      match made.write p (Utf8.encode text.toList) with
      | .ok written => (.ok (), written)
      | .error e => (.error (.file e), made)

end Artifact

/-- The fault of an artifact that is not passed over. -/
def ArtifactFileError.fault? : ArtifactFileError → Option Fault
  | .content (.json (.tooDeep container)) => some (.artifact container)
  | _ => none

namespace Compile

/-- The report of an error that compilation tells. -/
def report : CompileError → Option String
  | .outsideRoot source root =>
    some ("Source file '" ++ source.text ++ "' is not under the workspace root '" ++ root.text ++
      "'")
  | .source p text => some ("Error in '" ++ p.text ++ "': " ++ text)
  | .fault _ => none

/-- The key with the given components: slashes between them, and in the place of backslashes. -/
def keyOfParts (parts : List String) : String :=
  let text := "/".intercalate (parts.dropLast ++ [Path.stem (parts.getLastD "")])
  String.ofList (text.toList.map fun c => if c = '\\' then '/' else c)

/-- The key of a source. -/
def key (fs : FileSystem) (root source : Path) : Except CompileError String :=
  match fs.resolve source, fs.resolve root with
  | .error (.linkLoop p), _ => .error (.fault (.resolve (.linkLoop p)))
  | .error .nullCharacter, _ => .error (.outsideRoot source root)
  | .ok _, .error (.linkLoop p) => .error (.fault (.resolve (.linkLoop p)))
  | .ok _, .error .nullCharacter => .error (.outsideRoot source root)
  | .ok real, .ok realRoot =>
    match realRoot.behind? real with
    | none => .error (.outsideRoot source root)
    | some [] => .error (.fault .emptyName)
    | some parts => .ok (keyOfParts parts)

/-- The artifact of a key. The slashes of the key separate directories; empty ones are left out. -/
def artifact (buildDirectory : Path) (key : String) : Path :=
  let pieces := (key.toList.splitOn '/').map String.ofList
  ⟨buildDirectory.anchor, buildDirectory.parts ++ pieces.dropLast.filter Path.isPart ++
    [pieces.getLastD "" ++ Artifact.suffix]⟩

/-- Whether an artifact is newer than its source. -/
def isFresh (fs : FileSystem) (source artifact : Path) : Except FileError Bool :=
  match fs.ask artifact (fs.time? artifact) with
  | .error e => .error e
  | .ok none => .ok false
  | .ok (some made) =>
    match fs.ask source (fs.time? source) with
    | .error e => .error e
    | .ok none => .ok false
    | .ok (some changed) => .ok (changed < made)

variable [Machine]

/-- Parses a source and writes its artifact. -/
def rebuild (source artifact : Path) (fs : FileSystem) :
    Except CompileError Document × FileSystem :=
  match parseFile fs source with
  | .error e =>
    match e.report? with
    | some text => (.error (.source source text), fs)
    | none => (.error (.fault (.source e)), fs)
  | .ok d =>
    match Artifact.save d artifact fs with
    | (.ok (), written) => (.ok d, written)
    | (.error f, made) => (.error (.fault f), made)

/-- The document of a source, from its artifact if that is newer and can be read. -/
def file (source artifact : Path) (fs : FileSystem) : Except CompileError Document × FileSystem :=
  match isFresh fs source artifact with
  | .error e => (.error (.fault (.file e)), fs)
  | .ok false => rebuild source artifact fs
  | .ok true =>
    match Artifact.load fs artifact with
    | .ok d => (.ok d, fs)
    | .error e =>
      match e.fault? with
      | some f => (.error (.fault f), fs)
      | none => rebuild source artifact fs

/-- Compiles sources one after another up to the first error. A source whose key is there already is
passed over. -/
def filesInto (buildDirectory root : Path) :
    List Path → List (String × Document) → FileSystem →
      Except CompileError (List (String × Document)) × FileSystem
  | [], done, fs => (.ok done, fs)
  | source :: rest, done, fs =>
    match key fs root source with
    | .error e => (.error e, fs)
    | .ok k =>
      if (Entries.get? k done).isSome then filesInto buildDirectory root rest done fs
      else
        match file source (artifact buildDirectory k) fs with
        | (.error e, fs) => (.error e, fs)
        | (.ok d, fs) => filesInto buildDirectory root rest (done ++ [(k, d)]) fs

/-- The documents of sources by their keys. -/
def files (sources : List Path) (buildDirectory root : Path) (fs : FileSystem) :
    Except CompileError (List (String × Document)) × FileSystem :=
  filesInto buildDirectory root sources [] fs

end Compile

end GraphQLDoc
