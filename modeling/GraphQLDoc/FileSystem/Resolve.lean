import GraphQLDoc.FileSystem.Basic

/-!
Real paths: absolute, with links replaced by what they lead to and without double dots. A path need
not lead to anything; what is not there is taken as it is. A link that leads back to itself has no
real path.
-/
namespace GraphQLDoc

inductive ResolveError where
  | linkLoop (p : Path)
  | nullCharacter
deriving DecidableEq

def ResolveError.message : ResolveError → String
  | linkLoop p => "Symlink loop from " ++ Quoted.ofString p.text
  | nullCharacter => FileError.message .nullCharacter

namespace FileSystem

/-- Goes over components from a place; `enter` gives the place that a link leads to, and whether it
was reached. Where it was not, the rest is taken as it is. -/
def realFrom (fs : FileSystem)
    (enter : List String → List String → Path → List String × Bool) :
    List String → List String → List String × Bool
  | place, [] => (place, true)
  | place, part :: rest =>
    if part = ".." then realFrom fs enter place.dropLast rest
    else
      let next := place ++ [part]
      match fs.node? next with
      | some (.link target) =>
        match enter next place (Path.ofString target) with
        | (reached, true) => realFrom fs enter reached rest
        | (stuck, false) => (stuck ++ rest, false)
      | _ => realFrom fs enter next rest

/-- Enters a link, unless it is being entered already. -/
def enterLink (fs : FileSystem) :
    Nat → List (List String) → List String → List String → Path → List String × Bool
  | 0, _, place, _, _ => (place, false)
  | depth + 1, entered, place, parent, target =>
    if place ∈ entered then (place, false)
    else
      realFrom fs (enterLink fs depth (place :: entered)) (if target.isAbsolute then [] else parent)
        target.parts

/-- Removes double dots together with what stands in front of them. -/
def dropDots (parts : List String) : List String :=
  parts.foldl (fun done part => if part = ".." then done.dropLast else done ++ [part]) []

/-- The real path of a path. There are no more links to enter than there are nodes. -/
def resolve (fs : FileSystem) (p : Path) : Except ResolveError Path :=
  if p.hasNull then .error .nullCharacter
  else
    let start := if p.isAbsolute then [] else fs.workingDirectory
    let (place, _) := realFrom fs (enterLink fs (fs.nodes.length + 1) []) start p.parts
    let real := Path.absolute (dropDots place)
    match fs.stat real with
    | .error .tooManyLinks => .error (.linkLoop real)
    | _ => .ok real

end FileSystem

end GraphQLDoc
