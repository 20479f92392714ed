import GraphQLDoc.FileSystem.Basic

/-!
Changes of a file system. A change that fails leaves everything as it was, except that directories
which were made on the way to another one stay.
-/
namespace GraphQLDoc.FileSystem

def setNode (place : List String) (n : FileNode) (fs : FileSystem) : FileSystem :=
  { fs with nodes := Entries.put place n fs.nodes }

/-- Marks a directory as changed now. -/
def touch (place : List String) (fs : FileSystem) : FileSystem :=
  match fs.node? place with
  | some (.directory _) => if place = [] then fs else fs.setNode place (.directory fs.now)
  | _ => fs

def addNode (parent : List String) (name : String) (n : FileNode) (fs : FileSystem) : FileSystem :=
  (fs.touch parent).setNode (parent ++ [name]) n

def removeNode (place : List String) (fs : FileSystem) : FileSystem :=
  { fs.touch place.dropLast with
    nodes := (fs.touch place.dropLast).nodes.filter fun (q, _) => q ≠ place }

/-- Writes a file, through links. Its directory has to be there. -/
def write (p : Path) (bytes : List UInt8) (fs : FileSystem) : Except FileError FileSystem :=
  match fs.find true p with
  | .ok (.node place (.file _ _)) => .ok (fs.setNode place (.file bytes fs.now))
  | .ok (.node _ _) => .error .isDirectory
  | .ok (.missing parent name) => .ok (fs.addNode parent name (.file bytes fs.now))
  | .error e => .error e

def makeDirectory (p : Path) (fs : FileSystem) : Except FileError FileSystem :=
  match fs.find false p with
  | .ok (.node _ _) => .error .exists
  | .ok (.missing parent name) => .ok (fs.addNode parent name (.directory fs.now))
  | .error e => .error e

/-- A directory that may be there already. -/
def ensureDirectory (p : Path) (fs : FileSystem) : Except FileError FileSystem :=
  match fs.makeDirectory p with
  | .error .notFound => .error .notFound
  | .error e =>
    match fs.ask p (fs.isDirectory p) with
    | .ok true => .ok fs
    | .ok false => .error e
    | .error e => .error e
  | .ok made => .ok made

/-- Makes the last components of a path, as far as they are not there: a call for each that is missing is
nested in the one for the component below it. -/
def ensureWithin (calls : Nat) (p : Path) (fs : FileSystem) : Except FileError Unit × FileSystem :=
  match fs.ensureDirectory p with
  | .ok made => (.ok (), made)
  | .error .notFound =>
    if p.parts.isEmpty then (.error .notFound, fs)
    else match calls with
      | 0 => (.error .tooDeep, fs)
      | calls + 1 =>
        match ensureWithin calls p.parent fs with
        | (.error e, made) => (.error e, made)
        | (.ok (), made) =>
          match made.ensureDirectory p with
          | .ok made => (.ok (), made)
          | .error e => (.error e, made)
  | .error e => (.error e, fs)

/-- A directory and those on the way to it. -/
def ensureDirectories [Machine] (p : Path) (fs : FileSystem) : Except FileError Unit × FileSystem :=
  fs.ensureWithin Machine.calls p

def makeLink (p : Path) (target : String) (fs : FileSystem) : Except FileError FileSystem :=
  if target = "" then .error .notFound
  else match fs.find false p with
    | .ok (.node _ _) => .error .exists
    | .ok (.missing parent name) => .ok (fs.addNode parent name (.link target))
    | .error e => .error e

/-- Removes a file or a link. -/
def remove (p : Path) (fs : FileSystem) : Except FileError FileSystem :=
  match fs.find false p with
  | .ok (.node _ (.directory _)) => .error .isDirectory
  | .ok (.node place _) => .ok (fs.removeNode place)
  | .ok (.missing _ _) => .error .notFound
  | .error e => .error e

def setTime (p : Path) (time : Int) (fs : FileSystem) : Except FileError FileSystem :=
  match fs.find true p with
  | .ok (.node place (.file bytes _)) => .ok (fs.setNode place (.file bytes time))
  | .ok (.node place (.directory _)) => .ok (fs.setNode place (.directory time))
  | .ok (.node _ (.link _)) => .ok fs
  | .ok (.missing _ _) => .error .notFound
  | .error e => .error e

end GraphQLDoc.FileSystem
