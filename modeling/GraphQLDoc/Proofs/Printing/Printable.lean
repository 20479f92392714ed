import GraphQLDoc.Conversion.TypeSystem

/-!
The documents that a text can denote. A text holds something: a definition, what a set selects, the
root types of a schema. It also has other words for `true`, `false` and `null` than enum values, none
for a fragment with the name `on`, and writes no string as a block here nor with half of a surrogate
pair. Its lists, objects and selection sets are nested no more deeply than the machine grants calls to
read them.
-/
namespace GraphQLDoc

/-- Whether the machine grants nested calls, and what is said of what they are for holds inside. -/
def Machine.grants [Machine] (n : Nat) (inside : Machine → Bool) : Bool :=
  decide (n ≤ Machine.calls) && inside (Machine.inside n)

theorem Machine.grants_iff [Machine] {n : Nat} {inside : Machine → Bool} :
    Machine.grants n inside = true ↔ n ≤ Machine.calls ∧ inside (Machine.inside n) = true := by
  rw [grants, Bool.and_eq_true, decide_eq_true_eq]

mutual

def Value.isPrintable [Machine] : Value → Bool
  | .string text block => text.isText && !block
  | .enum n => n ∉ Conversion.enumValueNames
  | .list vs => Machine.grants Conversion.listCalls fun _ => Value.arePrintable vs
  | .object fs => Machine.grants Conversion.objectCalls fun _ => Value.arePrintableFields fs
  | _ => true

def Value.arePrintable [Machine] : List Value → Bool
  | [] => true
  | v :: vs => v.isPrintable && Value.arePrintable vs

def Value.arePrintableFields [Machine] : List (String × Value) → Bool
  | [] => true
  | (_, v) :: fs => v.isPrintable && Value.arePrintableFields fs

end

section

variable [Machine]

def Argument.isPrintable (a : Argument) : Bool := a.value.isPrintable

def Directive.isPrintable (d : Directive) : Bool := d.arguments.all (·.isPrintable)

def VariableDefinition.isPrintable (v : VariableDefinition) : Bool :=
  v.defaultValue.all (·.isPrintable) && v.directives.all (·.isPrintable)

def isPrintableFragment (name : String) : Bool := name != "on"

end

mutual

def Selection.isPrintable [Machine] : Selection → Bool
  | .field _ _ arguments directives selectionSet =>
    arguments.all (·.isPrintable) && directives.all (·.isPrintable) &&
      Selection.isPrintableInner selectionSet
  | .fragmentSpread name directives =>
    isPrintableFragment name && directives.all (·.isPrintable)
  | .inlineFragment _ directives selectionSet =>
    directives.all (·.isPrintable) && (!selectionSet.isEmpty &&
      Machine.grants Conversion.selectionCalls fun _ => Selection.arePrintable selectionSet)

def Selection.isPrintableInner [Machine] : Option (List Selection) → Bool
  | none => true
  | some ss => !ss.isEmpty &&
    Machine.grants Conversion.selectionCalls fun _ => Selection.arePrintable ss

def Selection.arePrintable [Machine] : List Selection → Bool
  | [] => true
  | s :: ss => s.isPrintable && Selection.arePrintable ss

end

variable [Machine]

def SelectionSet.isPrintable (ss : SelectionSet) : Bool :=
  !ss.isEmpty && Machine.grants Conversion.selectionCalls fun _ => Selection.arePrintable ss

def Operation.isPrintable (o : Operation) : Bool :=
  o.variableDefinitions.all (·.isPrintable) && o.directives.all (·.isPrintable) &&
    SelectionSet.isPrintable o.selectionSet

def Fragment.isPrintable (f : Fragment) : Bool :=
  isPrintableFragment f.name && f.directives.all (·.isPrintable) &&
    SelectionSet.isPrintable f.selectionSet

def SchemaDefinition.isPrintable (s : SchemaDefinition) : Bool :=
  s.description.all (·.isText) && s.directives.all (·.isPrintable) && !s.roots.isEmpty

def InputValueDefinition.isPrintable (v : InputValueDefinition) : Bool :=
  v.description.all (·.isText) && v.defaultValue.all (·.isPrintable) && v.directives.all (·.isPrintable)

def FieldDefinition.isPrintable (f : FieldDefinition) : Bool :=
  f.description.all (·.isText) && f.arguments.all (·.isPrintable) && f.directives.all (·.isPrintable)

def EnumValueDefinition.isPrintable (v : EnumValueDefinition) : Bool :=
  v.description.all (·.isText) && v.name ∉ Conversion.enumValueNames &&
    v.directives.all (·.isPrintable)

def TypeBody.isPrintable : TypeBody → Bool
  | .scalar | .union _ => true
  | .fields _ _ fs => fs.all (·.isPrintable)
  | .enum vs => vs.all (·.isPrintable)
  | .inputObject fs => fs.all (·.isPrintable)

def TypeDefinition.isPrintable (t : TypeDefinition) : Bool :=
  t.description.all (·.isText) && t.directives.all (·.isPrintable) && t.body.isPrintable

def DirectiveDefinition.isPrintable (d : DirectiveDefinition) : Bool :=
  d.description.all (·.isText) && d.arguments.all (·.isPrintable)

def SchemaExtension.isPrintable : SchemaExtension → Bool
  | .withRoots directives _ | .withDirectives directives => directives.all (·.isPrintable)

def ExtensionBody.isPrintable : ExtensionBody → Bool
  | .scalar directives | .fieldsDirectives _ _ directives | .unionMembers directives _
  | .unionDirectives directives | .enumDirectives directives | .inputDirectives directives =>
    directives.all (·.isPrintable)
  | .fields _ _ directives fs => directives.all (·.isPrintable) && fs.all (·.isPrintable)
  | .fieldsInterfaces _ _ => true
  | .enumValues directives vs => directives.all (·.isPrintable) && vs.all (·.isPrintable)
  | .inputFields directives fs => directives.all (·.isPrintable) && fs.all (·.isPrintable)

def Definition.isPrintable : Definition → Bool
  | .operation o => o.isPrintable
  | .fragment f => f.isPrintable
  | .schema s => s.isPrintable
  | .type t => t.isPrintable
  | .directive d => d.isPrintable
  | .schemaExtension e => e.isPrintable
  | .typeExtension e => e.body.isPrintable

def Document.isPrintable (d : Document) : Bool :=
  !d.definitions.isEmpty && d.definitions.all (·.isPrintable)

end GraphQLDoc
