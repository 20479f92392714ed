import GraphQLDoc.Grammar.Terminal

/-!
The grammar of GraphQL documents, with type system extensions, in extended form: a clause of an
alternative may be optional or repeated. A rule that groups others without a node of its own is
`inlined`; a rule that `keepsWords` keeps its keywords in the parse tree, every other rule drops
them with the punctuation.
-/
namespace GraphQLDoc

inductive Rule where
  | document | definition | executableDefinition | typeSystemDefinition | typeDefinition
  | typeSystemExtension | typeExtension
  | valueLiteral | typeReference
  | operationDefinition | operationType
  | variableDefinitions | variableDefinition | variableReference
  | selectionSet | selection | field | fieldAlias | fragmentSpread | inlineFragment
  | fragmentDefinition | typeCondition
  | value | intValue | floatValue | stringValue | booleanValue | nullValue | enumValue
  | listValue | objectValue | objectField | defaultValue
  | anyType | namedType | listType | nonNullType
  | directives | directive | arguments | argument
  | description | schemaDefinition | rootOperationTypeDefinition
  | scalarTypeDefinition | objectTypeDefinition | interfaceTypeDefinition | implementsInterfaces
  | fieldsDefinition | fieldDefinition | argumentsDefinition | inputValueDefinition
  | unionTypeDefinition | unionMemberTypes
  | enumTypeDefinition | enumValuesDefinition | enumValueDefinition
  | inputObjectTypeDefinition | inputFieldsDefinition
  | directiveDefinition | repeatable | directiveLocations | directiveLocation
  | schemaExtension | scalarTypeExtension | objectTypeExtension | interfaceTypeExtension
  | unionTypeExtension | enumTypeExtension | inputObjectTypeExtension
  | name | enumName | fragmentName
deriving DecidableEq

namespace Rule

def all : List Rule :=
  [document, definition, executableDefinition, typeSystemDefinition, typeDefinition,
    typeSystemExtension, typeExtension, valueLiteral, typeReference,
    operationDefinition, operationType, variableDefinitions, variableDefinition, variableReference,
    selectionSet, selection, field, fieldAlias, fragmentSpread, inlineFragment, fragmentDefinition,
    typeCondition, value, intValue, floatValue, stringValue, booleanValue, nullValue, enumValue,
    listValue, objectValue, objectField, defaultValue, anyType, namedType, listType, nonNullType,
    directives, directive, arguments, argument, description, schemaDefinition,
    rootOperationTypeDefinition, scalarTypeDefinition, objectTypeDefinition,
    interfaceTypeDefinition, implementsInterfaces, fieldsDefinition, fieldDefinition,
    argumentsDefinition, inputValueDefinition, unionTypeDefinition, unionMemberTypes,
    enumTypeDefinition, enumValuesDefinition, enumValueDefinition, inputObjectTypeDefinition,
    inputFieldsDefinition, directiveDefinition, repeatable, directiveLocations, directiveLocation,
    schemaExtension, scalarTypeExtension, objectTypeExtension, interfaceTypeExtension,
    unionTypeExtension, enumTypeExtension, inputObjectTypeExtension, name, enumName, fragmentName]

theorem mem_all (r : Rule) : r ∈ all := by cases r <;> decide

/-- The tag of the rule's nodes in a parse tree. -/
def tag : Rule → String
  | document => "document" | definition => "_definition"
  | executableDefinition => "_executable_definition"
  | typeSystemDefinition => "_type_system_definition" | typeDefinition => "_type_definition"
  | typeSystemExtension => "_type_system_extension" | typeExtension => "_type_extension"
  | valueLiteral => "value_literal" | typeReference => "type_reference"
  | operationDefinition => "operation_definition" | operationType => "operation_type"
  | variableDefinitions => "variable_definitions" | variableDefinition => "variable_definition"
  | variableReference => "variable" | selectionSet => "selection_set" | selection => "_selection"
  | field => "field" | fieldAlias => "alias" | fragmentSpread => "fragment_spread"
  | inlineFragment => "inline_fragment" | fragmentDefinition => "fragment_definition"
  | typeCondition => "type_condition" | value => "_value" | intValue => "int_value"
  | floatValue => "float_value" | stringValue => "string_value" | booleanValue => "boolean_value"
  | nullValue => "null_value" | enumValue => "enum_value" | listValue => "list_value"
  | objectValue => "object_value" | objectField => "object_field"
  | defaultValue => "default_value" | anyType => "_type" | namedType => "named_type"
  | listType => "list_type" | nonNullType => "non_null_type" | directives => "directives"
  | directive => "directive" | arguments => "arguments" | argument => "argument"
  | description => "description" | schemaDefinition => "schema_definition"
  | rootOperationTypeDefinition => "root_operation_type_definition"
  | scalarTypeDefinition => "scalar_type_definition"
  | objectTypeDefinition => "object_type_definition"
  | interfaceTypeDefinition => "interface_type_definition"
  | implementsInterfaces => "implements_interfaces" | fieldsDefinition => "fields_definition"
  | fieldDefinition => "field_definition" | argumentsDefinition => "arguments_definition"
  | inputValueDefinition => "input_value_definition"
  | unionTypeDefinition => "union_type_definition" | unionMemberTypes => "union_member_types"
  | enumTypeDefinition => "enum_type_definition"
  | enumValuesDefinition => "enum_values_definition"
  | enumValueDefinition => "enum_value_definition"
  | inputObjectTypeDefinition => "input_object_type_definition"
  | inputFieldsDefinition => "input_fields_definition"
  | directiveDefinition => "directive_definition" | repeatable => "repeatable"
  | directiveLocations => "directive_locations" | directiveLocation => "directive_location"
  | schemaExtension => "schema_extension" | scalarTypeExtension => "scalar_type_extension"
  | objectTypeExtension => "object_type_extension"
  | interfaceTypeExtension => "interface_type_extension"
  | unionTypeExtension => "union_type_extension" | enumTypeExtension => "enum_type_extension"
  | inputObjectTypeExtension => "input_object_type_extension"
  | name => "name" | enumName => "enum_name" | fragmentName => "fragment_name"

/-- A rule without nodes of its own: what it derives belongs to the node above. -/
def inlined : Rule → Bool
  | definition | executableDefinition | typeSystemDefinition | typeDefinition
  | typeSystemExtension | typeExtension | selection | value | anyType => true
  | _ => false

/-- A rule whose nodes keep the keywords that they were read from. -/
def keepsWords : Rule → Bool
  | operationType | booleanValue | repeatable | name | enumName | fragmentName => true
  | _ => false

end Rule

/-- The lists of the grammar: one nonterminal for each kind of element, shared by all rules that
repeat it. -/
inductive Repetition where
  | definitions | variableDefinitions | selections | values | objectFields | directives
  | arguments | rootOperationTypes | interfaces | fields | inputValues | unionMembers
  | enumValues | locations
deriving DecidableEq

namespace Repetition

def all : List Repetition :=
  [definitions, variableDefinitions, selections, values, objectFields, directives, arguments,
    rootOperationTypes, interfaces, fields, inputValues, unionMembers, enumValues, locations]

theorem mem_all (r : Repetition) : r ∈ all := by cases r <;> decide

end Repetition

/-- What a whole text may be. -/
inductive Start where
  | document | value | type
deriving DecidableEq

namespace Start

def all : List Start := [document, value, type]

def rule : Start → Rule
  | document => .document | value => .valueLiteral | type => .typeReference

end Start

inductive Nonterminal where
  | start (s : Start)
  | rule (r : Rule)
  | repetition (r : Repetition)
deriving DecidableEq

def Nonterminal.all : List Nonterminal :=
  Start.all.map .start ++ Rule.all.map .rule ++ Repetition.all.map .repetition

inductive Symbol where
  | terminal (t : Terminal)
  | nonterminal (n : Nonterminal)
deriving DecidableEq

/-- A clause of an alternative. -/
inductive Clause where
  | one (s : Symbol)
  | optional (s : Symbol)
  | oneOrMore (r : Repetition)
  | zeroOrMore (r : Repetition)
deriving DecidableEq

namespace Clause

def word (k : Keyword) : Clause := .one (.terminal (.keyword k))

def mark (p : Punctuator) : Clause := .one (.terminal (.punctuator p))

def optionalMark (p : Punctuator) : Clause := .optional (.terminal (.punctuator p))

def use (r : Rule) : Clause := .one (.nonterminal (.rule r))

def optionalUse (r : Rule) : Clause := .optional (.nonterminal (.rule r))

def literal (t : Terminal) : Clause := .one (.terminal t)

def oneOf (rs : List Rule) : List (List Clause) := rs.map fun r => [use r]

def wordsExcept (excluded : List Keyword) : List (List Clause) :=
  [literal .name] :: (Keyword.all.filter (· ∉ excluded)).map fun k => [word k]

end Clause

open Rule Clause in
/-- The alternatives of each rule. -/
def Rule.alternatives : Rule → List (List Clause)
  | document => [[.oneOrMore .definitions]]
  | definition => oneOf [executableDefinition, typeSystemDefinition, typeSystemExtension]
  | executableDefinition => oneOf [operationDefinition, fragmentDefinition]
  | typeSystemDefinition => oneOf [schemaDefinition, typeDefinition, directiveDefinition]
  | typeDefinition =>
    oneOf [scalarTypeDefinition, objectTypeDefinition, interfaceTypeDefinition,
      unionTypeDefinition, enumTypeDefinition, inputObjectTypeDefinition]
  | typeSystemExtension => oneOf [schemaExtension, typeExtension]
  | typeExtension =>
    oneOf [scalarTypeExtension, objectTypeExtension, interfaceTypeExtension, unionTypeExtension,
      enumTypeExtension, inputObjectTypeExtension]
  | valueLiteral => oneOf [value]
  | typeReference => oneOf [anyType]
  | operationDefinition =>
    [[use operationType, optionalUse name, optionalUse variableDefinitions,
        optionalUse directives, use selectionSet],
      [use selectionSet]]
  | operationType => [[word .query], [word .mutation], [word .subscription]]
  | variableDefinitions =>
    [[mark .parenLeft, .oneOrMore .variableDefinitions, mark .parenRight]]
  | variableDefinition =>
    [[use variableReference, mark .colon, use anyType, optionalUse defaultValue,
      optionalUse directives]]
  | variableReference => [[mark .dollar, use name]]
  | selectionSet => [[mark .braceLeft, .oneOrMore .selections, mark .braceRight]]
  | selection => oneOf [field, fragmentSpread, inlineFragment]
  | field =>
    [[optionalUse fieldAlias, use name, optionalUse arguments, optionalUse directives,
        optionalUse selectionSet]]
  | fieldAlias => [[use name, mark .colon]]
  | fragmentSpread => [[mark .spread, use fragmentName, optionalUse directives]]
  | inlineFragment =>
    [[mark .spread, optionalUse typeCondition, optionalUse directives, use selectionSet]]
  | fragmentDefinition =>
    [[word .fragment, use fragmentName, use typeCondition, optionalUse directives,
        use selectionSet]]
  | typeCondition => [[word .on, use namedType]]
  | value =>
    oneOf [variableReference, intValue, floatValue, stringValue, booleanValue, nullValue, enumValue,
      listValue, objectValue]
  | intValue => [[literal .int]]
  | floatValue => [[literal .float]]
  | stringValue => [[literal .string], [literal .blockString]]
  | booleanValue => [[word .trueValue], [word .falseValue]]
  | nullValue => [[word .nullValue]]
  | enumValue => oneOf [enumName]
  | listValue => [[mark .bracketLeft, .zeroOrMore .values, mark .bracketRight]]
  | objectValue => [[mark .braceLeft, .zeroOrMore .objectFields, mark .braceRight]]
  | objectField => [[use name, mark .colon, use value]]
  | defaultValue => [[mark .equals, use value]]
  | anyType => oneOf [namedType, listType, nonNullType]
  | namedType => oneOf [name]
  | listType => [[mark .bracketLeft, use anyType, mark .bracketRight]]
  | nonNullType => [[use namedType, mark .bang], [use listType, mark .bang]]
  | directives => [[.oneOrMore .directives]]
  | directive => [[mark .atSign, use name, optionalUse arguments]]
  | arguments => [[mark .parenLeft, .oneOrMore .arguments, mark .parenRight]]
  | argument => [[use name, mark .colon, use value]]
  | description => [[literal .string], [literal .blockString]]
  | schemaDefinition =>
    [[optionalUse description, word .schema, optionalUse directives, mark .braceLeft,
        .oneOrMore .rootOperationTypes, mark .braceRight]]
  | rootOperationTypeDefinition => [[use operationType, mark .colon, use namedType]]
  | scalarTypeDefinition =>
    [[optionalUse description, word .scalar, use name, optionalUse directives]]
  | objectTypeDefinition =>
    [[optionalUse description, word .type, use name, optionalUse implementsInterfaces,
        optionalUse directives, optionalUse fieldsDefinition]]
  | interfaceTypeDefinition =>
    [[optionalUse description, word .interface, use name, optionalUse implementsInterfaces,
        optionalUse directives, optionalUse fieldsDefinition]]
  | implementsInterfaces =>
    [[word .implements, optionalMark .ampersand, use namedType, .zeroOrMore .interfaces]]
  | fieldsDefinition => [[mark .braceLeft, .oneOrMore .fields, mark .braceRight]]
  | fieldDefinition =>
    [[optionalUse description, use name, optionalUse argumentsDefinition, mark .colon,
        use anyType, optionalUse directives]]
  | argumentsDefinition => [[mark .parenLeft, .oneOrMore .inputValues, mark .parenRight]]
  | inputValueDefinition =>
    [[optionalUse description, use name, mark .colon, use anyType, optionalUse defaultValue,
        optionalUse directives]]
  | unionTypeDefinition =>
    [[optionalUse description, word .union, use name, optionalUse directives,
        optionalUse unionMemberTypes]]
  | unionMemberTypes =>
    [[mark .equals, optionalMark .pipe, use namedType, .zeroOrMore .unionMembers]]
  | enumTypeDefinition =>
    [[optionalUse description, word .enum, use name, optionalUse directives,
        optionalUse enumValuesDefinition]]
  | enumValuesDefinition => [[mark .braceLeft, .oneOrMore .enumValues, mark .braceRight]]
  | enumValueDefinition => [[optionalUse description, use name, optionalUse directives]]
  | inputObjectTypeDefinition =>
    [[optionalUse description, word .input, use name, optionalUse directives,
        optionalUse inputFieldsDefinition]]
  | inputFieldsDefinition => [[mark .braceLeft, .oneOrMore .inputValues, mark .braceRight]]
  | directiveDefinition =>
    [[optionalUse description, word .directive, mark .atSign, use name,
        optionalUse argumentsDefinition, optionalUse repeatable, word .on,
        use directiveLocations]]
  | repeatable => [[word .repeatable]]
  | directiveLocations =>
    [[optionalMark .pipe, use directiveLocation, .zeroOrMore .locations]]
  | directiveLocation => [[literal .name]]
  | schemaExtension =>
    [[word .extend, word .schema, optionalUse directives, mark .braceLeft,
        .oneOrMore .rootOperationTypes, mark .braceRight],
      [word .extend, word .schema, use directives]]
  | scalarTypeExtension => [[word .extend, word .scalar, use name, use directives]]
  | objectTypeExtension =>
    [[word .extend, word .type, use name, optionalUse implementsInterfaces,
        optionalUse directives, use fieldsDefinition],
      [word .extend, word .type, use name, optionalUse implementsInterfaces, use directives],
      [word .extend, word .type, use name, use implementsInterfaces]]
  | interfaceTypeExtension =>
    [[word .extend, word .interface, use name, optionalUse implementsInterfaces,
        optionalUse directives, use fieldsDefinition],
      [word .extend, word .interface, use name, optionalUse implementsInterfaces,
        use directives],
      [word .extend, word .interface, use name, use implementsInterfaces]]
  | unionTypeExtension =>
    [[word .extend, word .union, use name, optionalUse directives, use unionMemberTypes],
      [word .extend, word .union, use name, use directives]]
  | enumTypeExtension =>
    [[word .extend, word .enum, use name, optionalUse directives, use enumValuesDefinition],
      [word .extend, word .enum, use name, use directives]]
  | inputObjectTypeExtension =>
    [[word .extend, word .input, use name, optionalUse directives, use inputFieldsDefinition],
      [word .extend, word .input, use name, use directives]]
  | name => wordsExcept []
  | enumName => wordsExcept [.trueValue, .falseValue, .nullValue]
  | fragmentName => wordsExcept [.on]

/-- One element of a repetition; the later interfaces, members and locations bring their
separator with them. -/
def Repetition.element : Repetition → List Symbol
  | definitions => [.nonterminal (.rule .definition)]
  | variableDefinitions => [.nonterminal (.rule .variableDefinition)]
  | selections => [.nonterminal (.rule .selection)]
  | values => [.nonterminal (.rule .value)]
  | objectFields => [.nonterminal (.rule .objectField)]
  | directives => [.nonterminal (.rule .directive)]
  | arguments => [.nonterminal (.rule .argument)]
  | rootOperationTypes => [.nonterminal (.rule .rootOperationTypeDefinition)]
  | interfaces => [.terminal (.punctuator .ampersand), .nonterminal (.rule .namedType)]
  | fields => [.nonterminal (.rule .fieldDefinition)]
  | inputValues => [.nonterminal (.rule .inputValueDefinition)]
  | unionMembers => [.terminal (.punctuator .pipe), .nonterminal (.rule .namedType)]
  | enumValues => [.nonterminal (.rule .enumValueDefinition)]
  | locations => [.terminal (.punctuator .pipe), .nonterminal (.rule .directiveLocation)]

end GraphQLDoc
