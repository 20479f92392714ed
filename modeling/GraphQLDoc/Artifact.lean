import GraphQLDoc.Decoding.Document
import GraphQLDoc.Json.Reader
import GraphQLDoc.Json.Writer

/-!
Artifacts: documents as compact JSON text under a format version, so that a document can be read
back without its source.
-/
namespace GraphQLDoc.Artifact

def formatVersion : String := "1"

inductive Problem where
  | json (e : Json.ReadError)
  | notObject
  | otherVersion (found : Json)
  | noDocument
  | content (issues : List Issue)

namespace Problem

/-- The wording of a problem of the artifact as a whole. -/
def message : Problem → String
  | json e => e.message
  | notObject => "Artifact must be a JSON object"
  | otherVersion found =>
    "Unsupported artifact format version: " ++ String.ofList found.display
  | noDocument => "Artifact has no 'document' entry"
  | content _ => ""

end Problem

/-- The data of an artifact around that of its document. -/
def encode (document : Json) : Json :=
  .record [("v", .str formatVersion), ("document", document)]

/-- The text of an artifact. -/
def serialize (d : Document) : Except DumpError String :=
  d.dump.map fun data => (encode data).render .compact

/-- The document of an artifact. A missing version counts as null. -/
def decode : Json → Except Problem Document
  | .object es =>
    let version := (Json.get? "v" es).getD .null
    match version with
    | .string s =>
      if s ≠ .text formatVersion then .error (.otherVersion version)
      else match Json.get? "document" es with
        | none => .error .noDocument
        | some data =>
          match Decoder.document data with
          | .ok d => .ok d
          | .wrong issues => .error (.content issues)
    | _ => .error (.otherVersion version)
  | _ => .error .notObject

/-- The document of a text. -/
def deserialize [Machine] (text : List Char) : Except Problem Document :=
  match Json.read true Machine.calls text with
  | .error e => .error (.json e)
  | .ok v => decode v

end GraphQLDoc.Artifact
