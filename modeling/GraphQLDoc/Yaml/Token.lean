/-!
Tokens of YAML. Indentation is made explicit: a block collection starts with a token of its own and
ends with `blockEnd`, and a key that is recognised by the colon behind it is announced by `key`.
-/
namespace GraphQLDoc.Yaml

inductive Token where
  | version (major : Nat)
  | tagHandle (handle address : List Char)
  | otherDirective
  | documentStart
  | documentEnd
  | blockSequenceStart
  | blockMappingStart
  | blockEnd
  | flowSequenceStart
  | flowSequenceEnd
  | flowMappingStart
  | flowMappingEnd
  | blockEntry
  | flowEntry
  | key
  | value
  | reference (name : List Char)
  | anchor (name : List Char)
  /-- A tag, as a handle that stands for an address and the rest of the address. -/
  | tag (handle : Option (List Char)) (suffix : List Char)
  /-- The text of a scalar, and whether it has neither quotes nor a block indicator. -/
  | scalar (text : List Nat) (plain : Bool)
deriving DecidableEq

end GraphQLDoc.Yaml
