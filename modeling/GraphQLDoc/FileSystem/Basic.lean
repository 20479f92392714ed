import GraphQLDoc.Entries
import GraphQLDoc.FileSystem.Path
import GraphQLDoc.Machine
import GraphQLDoc.Text.Newlines
import GraphQLDoc.Text.Quoted
import GraphQLDoc.Text.Utf8

/-!
File systems as values. Every file, directory and link has an entry under the list of components
that leads to it from the root, links not followed. A path is walked from the working directory, or
from the root, and links on the way are followed. Text files are UTF-8, read with every line break as
a line feed.
-/
namespace GraphQLDoc

inductive FileError where
  | notFound
  | notDirectory
  | isDirectory
  | exists
  | tooManyLinks
  | nameTooLong
  /-- The path holds a null character, so that the system is not asked. -/
  | nullCharacter
  /-- The directories on the way take more nested calls than there may be. -/
  | tooDeep
deriving DecidableEq

namespace FileError

def message : FileError → String
  | notFound => "No such file or directory"
  | notDirectory => "Not a directory"
  | isDirectory => "Is a directory"
  | «exists» => "File exists"
  | tooManyLinks => "Too many levels of symbolic links"
  | nameTooLong => "File name too long"
  | nullCharacter => "embedded null byte"
  | tooDeep => Machine.tooDeepMessage

/-- The number of the error in the system. -/
def number : FileError → Nat
  | notFound => 2
  | «exists» => 17
  | notDirectory => 20
  | isDirectory => 21
  | nameTooLong => 36
  | tooManyLinks => 40
  | nullCharacter | tooDeep => 0

/-- The error with its number and the path it is about. -/
def describe (e : FileError) (p : Path) : String :=
  "[Errno " ++ toString e.number ++ "] " ++ e.message ++ ": " ++ Quoted.ofString p.text

end FileError

/-- What stands under a name. Files and directories bear the time of their last change. -/
inductive FileNode where
  | file (bytes : List UInt8) (time : Int)
  | directory (time : Int)
  | link (target : String)
deriving DecidableEq

structure FileSystem where
  nodes : List (List String × FileNode)
  workingDirectory : List String
  /-- The time that a change made now bears. -/
  now : Int

namespace FileSystem

def node? (fs : FileSystem) (place : List String) : Option FileNode :=
  if place = [] then some (.directory fs.now) else Entries.get? place fs.nodes

/-- Where a walk ends: at a node, or at a name that a directory does not have. -/
inductive Found where
  | node (place : List String) (n : FileNode)
  | missing (parent : List String) (name : String)

def maxNameBytes : Nat := 255

def maxPathBytes : Nat := 4095

/-- Why the system walks over no component of a path. -/
def refusal? (p : Path) : Option FileError :=
  if p.hasNull then some .nullCharacter
  else if maxPathBytes < p.text.utf8ByteSize then some .nameTooLong
  else none

/-- Walks from a directory over components; `follow` goes on behind a link. -/
def walkFrom (fs : FileSystem) (followLast : Bool)
    (follow : List String → List String → Except FileError Found) :
    List String → List String → Except FileError Found
  | place, [] =>
    match fs.node? place with
    | some n => .ok (.node place n)
    | none => .error .notFound
  | place, part :: rest =>
    if part = ".." then walkFrom fs followLast follow place.dropLast rest
    else if maxNameBytes < part.utf8ByteSize then .error .nameTooLong
    else
      let next := place ++ [part]
      match fs.node? next with
      | none => if rest.isEmpty then .ok (.missing place part) else .error .notFound
      | some (.directory _) => walkFrom fs followLast follow next rest
      | some (.file bytes time) =>
        if rest.isEmpty then .ok (.node next (.file bytes time)) else .error .notDirectory
      | some (.link target) =>
        if rest.isEmpty && !followLast then .ok (.node next (.link target))
        else
          let p := Path.ofString target
          follow (if p.isAbsolute then [] else place) (p.parts ++ rest)

/-- A walk that follows at most a number of links. -/
def walkWithin (fs : FileSystem) (followLast : Bool) :
    Nat → List String → List String → Except FileError Found
  | 0 => walkFrom fs followLast fun _ _ => .error .tooManyLinks
  | links + 1 => walkFrom fs followLast (walkWithin fs followLast links)

def maxLinks : Nat := 40

/-- The end of a path. The last component is followed too if it is a link, unless `followLast` is
false. -/
def find (fs : FileSystem) (followLast : Bool) (p : Path) : Except FileError Found :=
  match refusal? p with
  | some e => .error e
  | none =>
    walkWithin fs followLast maxLinks (if p.isAbsolute then [] else fs.workingDirectory) p.parts

/-- The node at the end of a path, links followed. -/
def stat (fs : FileSystem) (p : Path) : Except FileError FileNode :=
  match fs.find true p with
  | .ok (.node _ n) => .ok n
  | .ok (.missing _ _) => .error .notFound
  | .error e => .error e

def hasPath (fs : FileSystem) (p : Path) : Bool :=
  match fs.stat p with
  | .ok _ => true
  | .error _ => false

def isDirectory (fs : FileSystem) (p : Path) : Bool :=
  match fs.stat p with
  | .ok (.directory _) => true
  | _ => false

def isFile (fs : FileSystem) (p : Path) : Bool :=
  match fs.stat p with
  | .ok (.file _ _) => true
  | _ => false

def time? (fs : FileSystem) (p : Path) : Option Int :=
  match fs.stat p with
  | .ok (.file _ time) => some time
  | .ok (.directory time) => some time
  | _ => none

/-- The answer to a question about a path, for which the system is asked. A path or a name that is too
long is an error; whatever else is in the way, nothing is there. -/
def ask {α : Type} (fs : FileSystem) (p : Path) (answer : α) : Except FileError α :=
  match fs.stat p with
  | .error .nameTooLong => .error .nameTooLong
  | _ => .ok answer

/-- The names in the directory at the end of a path, and what stands under them. -/
def entries (fs : FileSystem) (p : Path) : Except FileError (List (String × FileNode)) :=
  match fs.find true p with
  | .ok (.node place (.directory _)) =>
    .ok (fs.nodes.filterMap fun (q, _) =>
      if q.dropLast = place then return (← q.getLast?, ← fs.node? q) else none)
  | .error .nameTooLong => .error .nameTooLong
  | _ => .ok []

def read (fs : FileSystem) (p : Path) : Except FileError (List UInt8) :=
  match fs.stat p with
  | .ok (.file bytes _) => .ok bytes
  | .ok _ => .error .isDirectory
  | .error e => .error e

end FileSystem

inductive TextFileError where
  | file (e : FileError)
  | encoding (f : Utf8.Fault)
deriving DecidableEq

/-- The text that the bytes of a file stand for. -/
def textOfFile (bytes : List UInt8) : Except Utf8.Fault (List Char) :=
  (Utf8.decode bytes).map normalizeNewlines

def FileSystem.readText (fs : FileSystem) (p : Path) : Except TextFileError (List Char) :=
  match fs.read p with
  | .error e => .error (.file e)
  | .ok bytes => (textOfFile bytes).mapError .encoding

end GraphQLDoc
