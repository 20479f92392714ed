import GraphQLDoc.Conversion.TypeSystem

/-!
The leaf values of parse trees, read off their tokens in the order of the text, and of documents,
read field by field in the order in which the nodes declare them.
-/
namespace GraphQLDoc

inductive Leaf where
  | word (text : String)
  | string (text : JsonString)
  | int (n : Int)
  | float (x : Binary64)
  | boolean (b : Bool)
  /-- A literal that stands for no value. -/
  | unread (text : String)

namespace Leaf

def ofString (text : String) : Leaf :=
  match StringLiteral.decode text.toList with
  | .ok s => string (.text (String.ofList s))
  | .error _ => unread text

def ofInt (text : String) : Leaf :=
  match Numeral.literalInt? text.toList with
  | some (negative, digits) =>
    let size : Int := Numeral.digitsValue digits
    int (if negative then -size else size)
  | none => unread text

def ofFloat (text : String) : Leaf :=
  match Numeral.literalFloat? text.toList with
  | some x => float x
  | none => unread text

/-- The leaf of a token that is not a name; keywords have none. -/
def ofToken (tag text : String) : List Leaf :=
  if tag = "STRING" then [ofString text]
  else if tag = "BLOCK_STRING" then [string (.text (String.ofList (Block.decode text.toList)))]
  else if tag = "INT" then [ofInt text]
  else if tag = "FLOAT" then [ofFloat text]
  else if tag ∈ ["TRUE", "FALSE"] then [boolean (text == "true")]
  else []

end Leaf

namespace ParseTree

/-- The rules whose tokens are names, whatever their terminals. -/
def wordTags : List String := ["name", "enum_name", "fragment_name", "directive_location"]

def word : ParseTree → Leaf
  | token _ text _ => .word text
  | rule tag _ _ => .unread tag

mutual

/-- The leaves of a tree from left to right. -/
def leaves : ParseTree → List Leaf
  | token tag text _ => Leaf.ofToken tag text
  | rule tag _ children => if tag ∈ wordTags then children.map word else leavesOf children

def leavesOf : List ParseTree → List Leaf
  | [] => []
  | t :: ts => t.leaves ++ leavesOf ts

end

variable {t : ParseTree} {ts us : List ParseTree}

@[simp] theorem leavesOf_nil : leavesOf [] = [] := by rw [leavesOf]

@[simp] theorem leavesOf_cons : leavesOf (t :: ts) = t.leaves ++ leavesOf ts := by rw [leavesOf]

theorem leavesOf_singleton : leavesOf [t] = t.leaves := by simp

@[simp] theorem leavesOf_append : leavesOf (ts ++ us) = leavesOf ts ++ leavesOf us := by
  induction ts with
  | nil => simp
  | cons t ts ih => simp [ih]

theorem leaves_rule {tag : String} {span : Option Span} (h : tag ∉ wordTags) :
    (rule tag span ts).leaves = leavesOf ts := by
  rw [leaves, if_neg h]

def children : ParseTree → List ParseTree
  | token _ _ _ => []
  | rule _ _ children => children

/-- The operation of an entry of a schema block. -/
def rootOperation? : ParseTree → Option OperationType
  | rule "root_operation_type_definition" _ (rule _ _ [token _ text _] :: _) =>
    OperationType.ofWord? text
  | _ => none

/-- The entries of schema blocks behind all other trees, in the order of their operations. -/
def rootsLast (ts : List ParseTree) : List ParseTree :=
  ts.filter (·.rootOperation?.isNone) ++
    OperationType.all.flatMap fun o => ts.filter (·.rootOperation? = some o)

def schemaTags : List String := ["schema_definition", "schema_extension"]

/-- A definition, where a schema block lists its root types by operation. -/
def withSortedRoots : ParseTree → ParseTree
  | rule tag span children =>
    rule tag span (if tag ∈ schemaTags then rootsLast children else children)
  | t => t

/-- A document with the root types of each schema block by operation. -/
def withSortedSchemas : ParseTree → ParseTree
  | rule tag span children => rule tag span (children.map withSortedRoots)
  | t => t

/-- Nothing is lost or added by the order of the root types. -/
theorem rootsLast_perm (ts : List ParseTree) : (rootsLast ts).Perm ts := by
  induction ts with
  | nil => exact .refl _
  | cons t ts ih =>
    refine .trans ?_ (ih.cons t)
    have hmiddle (a b c : List ParseTree) : (a ++ (b ++ t :: c)).Perm (t :: (a ++ (b ++ c))) := by
      rw [← List.append_assoc, ← List.append_assoc]
      exact List.perm_middle
    unfold rootsLast
    cases h : t.rootOperation? with
    | none => simp [h, OperationType.all]
    | some o =>
      cases o with
      | query => simp [h, OperationType.all]
      | mutation => simpa [h, OperationType.all] using hmiddle _ _ _
      | subscription => simpa [h, OperationType.all] using hmiddle _ (_ ++ _) _

end ParseTree

/-! The leaves of documents. -/

def wordLeaves (names : List String) : List Leaf := names.map .word

def descriptionLeaves (d : Option JsonString) : List Leaf := d.toList.map .string

def TypeRef.leaves (r : TypeRef) : List Leaf := [.word r.innermost]

mutual

def Value.leaves : Value → List Leaf
  | .int n => [.int n]
  | .float x => [.float x]
  | .string text _ => [.string text]
  | .boolean b => [.boolean b]
  | .null => []
  | .enum name | .variableRef name => [.word name]
  | .list values => Value.leavesOf values
  | .object fields => Value.leavesOfFields fields

def Value.leavesOf : List Value → List Leaf
  | [] => []
  | v :: vs => v.leaves ++ Value.leavesOf vs

def Value.leavesOfFields : List (String × Value) → List Leaf
  | [] => []
  | (name, v) :: fs => .word name :: v.leaves ++ Value.leavesOfFields fs

end

def Argument.leaves (a : Argument) : List Leaf := [.word a.name] ++ a.value.leaves

def Directive.leaves (d : Directive) : List Leaf :=
  [.word d.name] ++ d.arguments.flatMap Argument.leaves

def directiveLeaves (ds : List Directive) : List Leaf := ds.flatMap Directive.leaves

def defaultLeaves (v : Option Value) : List Leaf := v.toList.flatMap Value.leaves

mutual

def Selection.leaves : Selection → List Leaf
  | .field alternative name arguments directives selectionSet =>
    wordLeaves alternative.toList ++ [.word name] ++ arguments.flatMap Argument.leaves ++
      directiveLeaves directives ++
      match selectionSet with
      | none => []
      | some inner => Selection.leavesOf inner
  | .fragmentSpread name directives => [.word name] ++ directiveLeaves directives
  | .inlineFragment typeCondition directives inner =>
    wordLeaves typeCondition.toList ++ directiveLeaves directives ++ Selection.leavesOf inner

def Selection.leavesOf : List Selection → List Leaf
  | [] => []
  | s :: ss => s.leaves ++ Selection.leavesOf ss

end

def VariableDefinition.leaves (v : VariableDefinition) : List Leaf :=
  [.word v.name] ++ v.type.leaves ++ defaultLeaves v.defaultValue ++ directiveLeaves v.directives

def Operation.leaves (o : Operation) : List Leaf :=
  wordLeaves o.name.toList ++ o.variableDefinitions.flatMap VariableDefinition.leaves ++
    directiveLeaves o.directives ++ Selection.leavesOf o.selectionSet

def Fragment.leaves (f : Fragment) : List Leaf :=
  [.word f.name] ++ [.word f.typeCondition] ++ directiveLeaves f.directives ++
    Selection.leavesOf f.selectionSet

def InputValueDefinition.leaves (v : InputValueDefinition) : List Leaf :=
  descriptionLeaves v.description ++ [.word v.name] ++ v.type.leaves ++
    defaultLeaves v.defaultValue ++ directiveLeaves v.directives

def FieldDefinition.leaves (f : FieldDefinition) : List Leaf :=
  descriptionLeaves f.description ++ [.word f.name] ++
    f.arguments.flatMap InputValueDefinition.leaves ++ f.type.leaves ++ directiveLeaves f.directives

def EnumValueDefinition.leaves (v : EnumValueDefinition) : List Leaf :=
  descriptionLeaves v.description ++ [.word v.name] ++ directiveLeaves v.directives

def RootTypes.leaves (r : RootTypes) : List Leaf :=
  OperationType.all.flatMap fun o => wordLeaves (r.get o).toList

def SchemaDefinition.leaves (s : SchemaDefinition) : List Leaf :=
  descriptionLeaves s.description ++ directiveLeaves s.directives ++ s.roots.leaves

/-- The leaves behind the name of a type, whose interfaces stand in front of its directives. -/
def TypeBody.leaves (directives : List Directive) : TypeBody → List Leaf
  | .scalar => directiveLeaves directives
  | .fields _ interfaces fs =>
    wordLeaves interfaces ++ directiveLeaves directives ++ fs.flatMap FieldDefinition.leaves
  | .union members => directiveLeaves directives ++ wordLeaves members
  | .enum values => directiveLeaves directives ++ values.flatMap EnumValueDefinition.leaves
  | .inputObject fs =>
    directiveLeaves directives ++ fs.flatMap InputValueDefinition.leaves

def TypeDefinition.leaves (d : TypeDefinition) : List Leaf :=
  descriptionLeaves d.description ++ [.word d.name] ++ d.body.leaves d.directives

def DirectiveDefinition.leaves (d : DirectiveDefinition) : List Leaf :=
  descriptionLeaves d.description ++ [.word d.name] ++
    d.arguments.flatMap InputValueDefinition.leaves ++ wordLeaves (d.locations.map (·.word))

def SchemaExtension.leaves : SchemaExtension → List Leaf
  | .withRoots directives roots => directiveLeaves directives ++ roots.leaves
  | .withDirectives directives => directiveLeaves directives

def ExtensionBody.leaves : ExtensionBody → List Leaf
  | .scalar directives | .unionDirectives directives | .enumDirectives directives
  | .inputDirectives directives => directiveLeaves directives
  | .fields _ interfaces directives fs =>
    wordLeaves interfaces ++ directiveLeaves directives ++ fs.flatMap FieldDefinition.leaves
  | .fieldsDirectives _ interfaces directives =>
    wordLeaves interfaces ++ directiveLeaves directives
  | .fieldsInterfaces _ interfaces => wordLeaves interfaces
  | .unionMembers directives members => directiveLeaves directives ++ wordLeaves members
  | .enumValues directives values =>
    directiveLeaves directives ++ values.flatMap EnumValueDefinition.leaves
  | .inputFields directives fs =>
    directiveLeaves directives ++ fs.flatMap InputValueDefinition.leaves

def TypeExtension.leaves (e : TypeExtension) : List Leaf := [.word e.name] ++ e.body.leaves

def Definition.leaves : Definition → List Leaf
  | .operation o => o.leaves
  | .fragment f => f.leaves
  | .schema s => s.leaves
  | .type t => t.leaves
  | .directive d => d.leaves
  | .schemaExtension e => e.leaves
  | .typeExtension e => e.leaves

def Document.leaves (d : Document) : List Leaf := d.definitions.flatMap Definition.leaves

/-! Leaves whose strings are texts. -/

/-- Not a string with half of a surrogate pair. -/
def Leaf.isText : Leaf → Bool
  | .string s => s.isText
  | _ => true

def AreTexts (ls : List Leaf) : Prop := ∀ l ∈ ls, l.isText = true

instance (ls : List Leaf) : Decidable (AreTexts ls) :=
  inferInstanceAs (Decidable (∀ l ∈ ls, l.isText = true))

namespace AreTexts

variable {ls ms : List Leaf}

@[simp] theorem nil : AreTexts [] := nofun

@[simp] theorem append_iff : AreTexts (ls ++ ms) ↔ AreTexts ls ∧ AreTexts ms :=
  List.forall_mem_append

@[simp] theorem word_iff {name : String} : AreTexts (.word name :: ls) ↔ AreTexts ls := by
  simp [AreTexts, Leaf.isText]

@[simp] theorem string_iff {s : JsonString} : AreTexts [.string s] ↔ ∃ text, s = .text text := by
  simp [AreTexts, Leaf.isText, JsonString.isText_iff]

@[simp] theorem wordLeaves (names : List String) : AreTexts (wordLeaves names) := by
  simp [AreTexts, GraphQLDoc.wordLeaves, Leaf.isText]

theorem flatMap_iff {α : Type} {leaves : α → List Leaf} {as : List α} :
    AreTexts (as.flatMap leaves) ↔ ∀ a ∈ as, AreTexts (leaves a) := by
  constructor
  · exact fun h a ha l hl => h l (List.mem_flatMap.mpr ⟨a, ha, hl⟩)
  · intro h l hl
    obtain ⟨a, ha, hl⟩ := List.mem_flatMap.mp hl
    exact h a ha l hl

theorem ofToken (tag text : String) : AreTexts (Leaf.ofToken tag text) := by
  have hstring : (Leaf.ofString text).isText = true := by
    unfold Leaf.ofString
    split <;> rfl
  have hint : (Leaf.ofInt text).isText = true := by
    unfold Leaf.ofInt
    split <;> rfl
  have hfloat : (Leaf.ofFloat text).isText = true := by
    unfold Leaf.ofFloat
    split <;> rfl
  unfold Leaf.ofToken
  split
  · exact List.forall_mem_singleton.mpr hstring
  split
  · exact List.forall_mem_singleton.mpr rfl
  split
  · exact List.forall_mem_singleton.mpr hint
  split
  · exact List.forall_mem_singleton.mpr hfloat
  split
  · exact List.forall_mem_singleton.mpr rfl
  · exact .nil

end AreTexts

theorem ParseTree.isText_word (t : ParseTree) : t.word.isText = true := by cases t <;> rfl

mutual

/-- A literal is read as a text, or it stands for no value. -/
theorem ParseTree.areTexts_leaves : (t : ParseTree) → AreTexts t.leaves
  | .token tag text _ => by
    rw [leaves]
    exact .ofToken tag text
  | .rule tag span children => by
    rw [leaves]
    split
    · exact List.forall_mem_map.mpr fun t _ => t.isText_word
    · exact areTexts_leavesOf children

theorem ParseTree.areTexts_leavesOf : (ts : List ParseTree) → AreTexts (leavesOf ts)
  | [] => by
    rw [leavesOf]
    exact .nil
  | t :: ts => by
    rw [leavesOf]
    exact AreTexts.append_iff.mpr ⟨areTexts_leaves t, areTexts_leavesOf ts⟩

end

end GraphQLDoc
