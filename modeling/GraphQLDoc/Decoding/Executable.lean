import GraphQLDoc.Decoding.Types
import GraphQLDoc.Ast.Executable

/-!
Executable definitions read from data.
-/
namespace GraphQLDoc.Decoder

def selectionSetOf (inner : Decoder Selection) : Decoder SelectionSet :=
  record "SelectionSet" ["selections"] fun es =>
    withDefault "selections" [] (sequence inner) es

def fieldSelection (inner : Decoder Selection) : Decoder Selection :=
  node "Field" "field" ["alias", "name", "arguments", "directives", "selection_set"] fun es =>
    Selection.field <$> optional "alias" name es <*> required "name" name es <*>
      withDefault "arguments" [] (sequence argument) es <*> directives es <*>
      optional "selection_set" (selectionSetOf inner) es

def fragmentSpread : Decoder Selection :=
  node "FragmentSpread" "fragment_spread" ["name", "directives"] fun es =>
    Selection.fragmentSpread <$> required "name" name es <*> directives es

def inlineFragment (inner : Decoder Selection) : Decoder Selection :=
  node "InlineFragment" "inline_fragment" ["type_condition", "directives", "selection_set"]
    fun es =>
      Selection.inlineFragment <$> optional "type_condition" namedType es <*> directives es <*>
        required "selection_set" (selectionSetOf inner) es

def selectionTags : List String := ["field", "fragment_spread", "inline_fragment"]

def selectionTo : Nat → Decoder Selection
  | 0 => fun _ => .problem .notVariant
  | n + 1 => variant selectionTags fun
    | "field" => fieldSelection (selectionTo n)
    | "fragment_spread" => fragmentSpread
    | _ => inlineFragment (selectionTo n)

def selection : Decoder Selection := nested selectionTo

def selectionSet : Decoder SelectionSet := selectionSetOf selection

def variableDefinition : Decoder VariableDefinition :=
  record "VariableDefinition" ["variable", "type", "default_value", "directives"] fun es =>
    VariableDefinition.mk <$> required "variable" name es <*> required "type" typeRef es <*>
      optional "default_value" value es <*> directives es

def operationType : Decoder OperationType := word OperationType.all OperationType.word

def operation : Decoder Operation :=
  node "OperationDefinition" "operation"
    ["operation_type", "name", "variable_definitions", "directives", "selection_set"] fun es =>
      Operation.mk <$> required "operation_type" operationType es <*> optional "name" name es <*>
        withDefault "variable_definitions" [] (sequence variableDefinition) es <*>
        directives es <*> required "selection_set" selectionSet es

def fragment : Decoder Fragment :=
  node "FragmentDefinition" "fragment" ["name", "type_condition", "directives", "selection_set"]
    fun es =>
      Fragment.mk <$> required "name" name es <*> required "type_condition" namedType es <*>
        directives es <*> required "selection_set" selectionSet es

end GraphQLDoc.Decoder
