import GraphQLDoc.CommandLine.Run
import Std.Data.HashMap

/-!
The program. What a command may ask the file system about is read first, then the command runs on
that, and what it changed is written.
-/
namespace GraphQLDoc.CommandLine

instance : Machine := .usual

abbrev Snapshot := StateT (Std.HashMap (List String) FileNode) IO

def placeText (place : List String) : String := (Path.absolute place).text

/-- The time of the last change, in seconds as a double: two times that are a few nanoseconds apart are
the same. Doubles that are not negative are ordered as their bits are. -/
def timeOf (m : IO.FS.Metadata) : Int :=
  let size := (Float.ofInt m.modified.sec + 1e-9 * m.modified.nsec.toNat.toFloat).abs.toBits.toNat
  if m.modified.sec < 0 then -size else size

/-- What stands at a place, without the content of a file. Links lead to real places, or back to
themselves if they lead round in circles; one that leads nowhere counts as nothing. Devices count as
files. -/
def nodeAt? (place : List String) : IO (Option FileNode) := do
  let text := placeText place
  let p := (← IO.currentDir) / text
  let .ok own ← p.symlinkMetadata.toBaseIO | return none
  match own.type with
  | .dir => return some (.directory (timeOf own))
  | .file | .other => return some (.file [] (timeOf own))
  | .symlink =>
    match ← p.metadata.toBaseIO with
    | .ok target =>
      if target.type == .other then return some (.file [] (timeOf target))
      else return some (.link (← IO.FS.realPath text).toString)
    | .error (.noFileOrDirectory ..) => return none
    | .error _ => return some (.link text)

/-- Notes what stands at a place. -/
def look (place : List String) : Snapshot (Option FileNode) := do
  match (← get)[place]? with
  | some n => return some n
  | none =>
    let found ← nodeAt? place
    if let some n := found then modify (·.insert place n)
    return found

/-- Notes the directories on the way to a place that no link leads to, and what stands there. -/
def lookAlong (place : List String) : Snapshot Unit := do
  for depth in List.range place.length do
    let _ ← look (place.take (depth + 1))

/-- Notes what a path meets, and gives the place where it leads. -/
def walk (place : List String) : List String → Snapshot (List String)
  | [] => return place
  | part :: rest => do
    if part = ".." then walk place.dropLast rest
    else
      let next := place ++ [part]
      match ← look next with
      | some (.link target) =>
        let real := (Path.ofString target).parts
        lookAlong real
        walk real rest
      | some _ => walk next rest
      | none => return next

/-- Paths are no longer than this many components. -/
def maxDepth : Nat := 2048

/-- Notes what stands below a place, also behind links, unless they lead back up. -/
def lookBelow : Nat → List String → Snapshot Unit
  | 0, _ => return
  | depth + 1, place => do
    let p := (← IO.currentDir) / placeText place
    match ← p.readDir.toBaseIO with
    | .error _ => return
    | .ok entries =>
      for entry in entries do
        let next := place ++ [entry.fileName]
        match ← look next with
        | some (.directory _) => lookBelow depth next
        | some (.link target) =>
          let real := (Path.ofString target).parts
          unless real.isPrefixOf next || (← get).contains real do
            lookAlong real
            lookBelow depth real
        | _ => continue

/-- The file system as far as it was looked at. Nothing in it is younger than now. -/
def fileSystem (workingDirectory : List String) : Snapshot FileSystem := do
  let nodes := (← get).toList
  let now := nodes.foldl (fun latest (_, n) => match n with
    | .file _ time | .directory time => max latest time
    | .link _ => latest) 0
  return ⟨nodes, workingDirectory, now⟩

/-- Reads the content of the file at a path. -/
def withContent (fs : FileSystem) (p : Path) : IO FileSystem := do
  match fs.find true p with
  | .ok (.node place (.file _ time)) =>
    return fs.setNode place (.file (← IO.FS.readBinFile (placeText place)).toList time)
  | _ => return fs

/-- How far up a pattern may lead. -/
def levelsUp : JsonString → Nat
  | .text s => (Path.ofString s).parts.count ".."
  | .unpaired _ => 0

/-- What there is to know for a check: the directory, its configuration, the directories that this
leads to, the sources and what they were compiled to. -/
def lookForCheck (cwd : List String) (directory : Path) : Snapshot FileSystem := do
  let place ← walk (if directory.isAbsolute then [] else cwd) directory.parts
  lookBelow maxDepth place
  let root := Path.absolute place
  let file := root.child Config.fileName
  let fs ← withContent (← fileSystem cwd) file
  let .ok config := Config.load fs file | return fs
  let up := (config.sources.map levelsUp).foldl max 0
  if up ≠ 0 then lookBelow maxDepth (place.take (place.length - up))
  let build := match config.buildDirectory with
    | .text s => Path.ofString s
    | .unpaired _ => Path.here
  lookBelow maxDepth (← walk (if build.isAbsolute then [] else place) build.parts)
  let fs ← withContent (← fileSystem cwd) file
  let .ok sources := Sources.files fs root config | return fs
  let mut known := fs
  for source in sources do
    known ← withContent known source
    if let .ok key := Compile.key fs root source then
      known ← withContent known (Compile.artifact (root.join build) key)
  return known

/-- What there is to know for a command. -/
def lookFor (cwd : List String) : Except Stop Command → Snapshot FileSystem
  | .error _ => fileSystem cwd
  | .ok (.check directory) => lookForCheck cwd (Path.ofString directory)
  | .ok (.init directory) => do
    let p := Path.ofString directory
    let place ← walk (if p.isAbsolute then [] else cwd) p.parts
    let _ ← walk place [Config.fileName]
    fileSystem cwd
  | .ok (.parse file _) => do
    let p := Path.ofString file
    let _ ← walk (if p.isAbsolute then [] else cwd) p.parts
    withContent (← fileSystem cwd) p

/-- Writes what is new. -/
def writeChanges (before after : FileSystem) : IO Unit := do
  for (place, n) in after.nodes do
    let known := before.node? place
    unless known = some n do
      match n with
      | .file bytes _ => IO.FS.writeBinFile (placeText place) ⟨bytes.toArray⟩
      | .directory _ => if known.isNone then IO.FS.createDir (placeText place)
      | .link _ => continue

/-- Runs the program in the working directory and gives the exit code. A fault is told and ends
with 1. -/
def runHere (arguments : List String) : IO UInt32 := do
  let cwd := (Path.ofString (← IO.currentDir).toString).parts
  let (fs, _) ← (do lookAlong cwd; lookFor cwd (command arguments)).run ∅
  let o := run arguments fs
  writeChanges fs o.files
  IO.print o.output
  IO.eprint o.errors
  match o.result with
  | .ok code => return UInt32.ofNat code
  | .error f =>
    IO.eprintln f.message
    return 1

end GraphQLDoc.CommandLine

def main (arguments : List String) : IO UInt32 := GraphQLDoc.CommandLine.runHere arguments
