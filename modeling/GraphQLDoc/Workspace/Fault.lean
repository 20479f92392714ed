import GraphQLDoc.Ast.Encoding
import GraphQLDoc.FileSystem.Resolve
import GraphQLDoc.Glob.Pattern
import GraphQLDoc.Validation
import GraphQLDoc.Workspace.Source
import GraphQLDoc.Yaml.Problem

/-!
Faults: what stops a command without being an error that it reports.
-/
namespace GraphQLDoc

inductive Fault where
  | file (e : FileError)
  | encoding (f : Utf8.Fault)
  | scalar (f : Yaml.ScalarFault)
  | pattern (e : Glob.PatternError)
  | resolve (e : ResolveError)
  /-- A source that is the root of its workspace has no name to make a key of. -/
  | emptyName
  /-- The name of a directory that is no text. -/
  | unpairedSurrogate (point : Nat)
  | source (e : SourceError)
  /-- A width of indentation that has more than 64 bits. -/
  | width (n : Int)
  /-- A text that is longer than the memory is large. -/
  | memory
  | dump (e : DumpError)
  /-- The containers of an artifact are nested in each other too deeply to be read. -/
  | artifact (container : String)
  /-- The collections of a configuration are nested in each other too deeply to be read. -/
  | configuration
  | unhandledKind (u : Validation.UnhandledKind)

namespace Fault

/-- The wording of a fault that is not about the content of a source. -/
def message : Fault → String
  | file e => e.message
  | encoding f => f.message
  | scalar f => f.message
  | pattern e => e.message
  | resolve e => e.message
  | emptyName => "PosixPath('.') has an empty name"
  | unpairedSurrogate point =>
    "'utf-8' codec can't encode character " ++ Quoted.ofPoints [point] ++
      " in position 0: surrogates not allowed"
  | source (.content (.conversion e)) => e.message
  | source _ => FileError.message .nullCharacter
  | unhandledKind u => u.message
  | width _ => "cannot fit 'int' into an index-sized integer"
  | memory => ""
  | dump e => e.message
  | artifact container => Json.ReadError.message (.tooDeep container)
  | configuration => Machine.tooDeepMessage

end Fault

end GraphQLDoc
