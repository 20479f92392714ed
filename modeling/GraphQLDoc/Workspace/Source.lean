import GraphQLDoc.FileSystem.Basic
import GraphQLDoc.Parse

/-!
Source files: documents read from files.
-/
namespace GraphQLDoc

inductive SourceError where
  | cannotOpen (p : Path) (e : FileError)
  | notUtf8 (p : Path) (f : Utf8.Fault)
  /-- The path is none that the system can be asked about. -/
  | nullCharacter
  | content (e : ParseError)

/-- The wording of an error with its place. There is none for errors that only a tree from elsewhere
than the parser can lead to. -/
def ParseError.report? : ParseError → Option String
  | .malformed e => some (placed (some e.span) e.detail)
  | .conversion (.literal p span) => some (placed span p.message)
  | .conversion (.shape p span) => some (placed span p.message)
  | .conversion _ => none

/-- The wording of an error of the file or of its text. -/
def SourceError.report? : SourceError → Option String
  | cannotOpen p e => some ("Cannot open '" ++ p.text ++ "': " ++ e.message)
  | notUtf8 p f => some ("Cannot decode '" ++ p.text ++ "' as UTF-8: " ++ f.message)
  | nullCharacter => none
  | content e => e.report?

/-- The document in a file. -/
def parseFile [Machine] (fs : FileSystem) (p : Path) : Except SourceError Document :=
  match fs.readText p with
  | .error (.file .nullCharacter) => .error .nullCharacter
  | .error (.file e) => .error (.cannotOpen p e)
  | .error (.encoding f) => .error (.notUtf8 p f)
  | .ok text => (parseDocument text).mapError .content

end GraphQLDoc
