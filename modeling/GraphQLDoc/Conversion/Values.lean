import GraphQLDoc.Conversion.Cursor
import GraphQLDoc.Number.Numeral
import GraphQLDoc.Literal.Block
import GraphQLDoc.Ast.Value
import GraphQLDoc.Decoding.Types

/-!
Conversion of names, types, literals, values, arguments and directives.
-/
namespace GraphQLDoc.Conversion

def namedType (t : ParseTree) : Converted String := do
  let name ← t.whole "named_type" Walk.name
  checkNames [("name", name)]
  return name

def typeTags : List String := ["named_type", "list_type", "non_null_type"]

/-- The wrapper that a tag stands for. -/
def wrapperOf (tag : String) : TypeRef.Wrapper :=
  if tag = "list_type" then .list else .nonNull

/-- The wrappers around a type from the outside in, and the named type inside. -/
def unwrap : ParseTree → Converted (List TypeRef.Wrapper × String)
  | .token tag text span =>
    if tag = "named_type" ∨ tag ∈ typeTags then
      (namedType (.token tag text span)).map fun name => ([], name)
    else .error (.shape (.notType tag) (some span))
  | .rule tag span children =>
    if tag = "named_type" then
      (namedType (.rule tag span children)).map fun name => ([], name)
    else if tag ∈ typeTags then
      let c : Cursor := ⟨tag, span, 0, children⟩
      match children with
      | [] => c.fail (.otherChild typeTags tag none)
      | inner :: rest =>
        if inner.tag ∈ typeTags then do
          (⟨tag, span, 1, rest⟩ : Cursor).finish
          let (wrappers, name) ← unwrap inner
          return (wrapperOf tag :: wrappers, name)
        else c.fail (.otherChild typeTags tag (some inner.tag))
    else .error (.shape (.notType tag) span)

/-- Puts a wrapper around a type; a non-null mark may not stand on another. -/
def wrapChecked (of : TypeRef) (w : TypeRef.Wrapper) : Converted TypeRef :=
  if w = .nonNull ∧ of.isNonNull then
    .error (.node [⟨.rejected Decoder.doubleNonNull, [.key "of_type"]⟩])
  else .ok (of.wrap w)

/-- Wrappers are gathered on the way in and put around the type on the way out. -/
def typeRef (t : ParseTree) : Converted TypeRef := do
  let (wrappers, name) ← unwrap t
  wrappers.reverse.foldlM wrapChecked (.named name)

def type : Walk TypeRef := do
  let t ← Walk.next typeTags
  Walk.lift (typeRef t)

/-- The value of a string token, and whether it is a block string. -/
def string : ParseTree → Converted (String × Bool)
  | .token "BLOCK_STRING" text _ => .ok (String.ofList (Block.decode text.toList), true)
  | .token _ text span =>
    match StringLiteral.decode text.toList with
    | .ok s => .ok (String.ofList s, false)
    | .error (.notAString v) => .error (.notString (.notAString v))
    | .error p => .error (.literal (.string p) (some span))
  | .rule _ _ _ => .error (.mixUp .ruleForTerminal)

def stringTags : List String := ["STRING", "BLOCK_STRING"]

def description : Walk (Option JsonString) := do
  match ← Walk.optional "description" with
  | none => return none
  | some t =>
    let token ← Walk.lift (t.whole "description" (Walk.next stringTags))
    let (text, _) ← Walk.lift (string token)
    return some (.text text)

/-- The integer of a token, which has to fit into 64 bits. -/
def integer : ParseTree → Converted Int
  | .rule _ _ _ => .error (.mixUp .ruleForInteger)
  | .token _ text span =>
    match Numeral.literalInt? text.toList with
    | none => .error (.text (.integer text))
    | some (negative, digits) =>
      if Json.maxIntegerDigits < digits.length then .error (.text (.integerLength digits.length))
      else
        let size : Int := Numeral.digitsValue digits
        let n := if negative then -size else size
        if minInt64 ≤ n ∧ n ≤ maxInt64 then .ok n
        else .error (.literal (.integer text) (some span))

/-- The float of a token, which has to be finite. -/
def float : ParseTree → Converted Binary64
  | .rule _ _ _ => .error (.mixUp .ruleForFloat)
  | .token _ text span =>
    match Numeral.literalFloat? text.toList with
    | none => .error (.text (.float text))
    | some x =>
      if x.isFinite then .ok x else .error (.literal (.float text) (some span))

/-- The text of a token. -/
def tokenText : ParseTree → Converted String
  | .rule _ _ _ => .error (.mixUp .ruleForText)
  | .token _ text _ => .ok text

def valueTags : List String :=
  ["variable", "int_value", "float_value", "string_value", "boolean_value", "null_value",
    "enum_value", "list_value", "object_value"]

def variableName (t : ParseTree) : Converted String := do
  let name ← t.whole "variable" Walk.name
  checkNames [("name", name)]
  return name

/-- A value without values inside. -/
def plainValue (t : ParseTree) : Converted Value :=
  match t.tag with
  | "variable" => do return .variableRef (← variableName t)
  | "int_value" => do
    let token ← t.whole "int_value" (Walk.next ["INT"])
    return .int (← integer token)
  | "float_value" => do
    let token ← t.whole "float_value" (Walk.next ["FLOAT"])
    return .float (← float token)
  | "string_value" =>
    t.whole "string_value" do
      let token ← Walk.next stringTags
      let (text, block) ← Walk.lift (string token)
      return .string (.text text) block
  | "boolean_value" => do
    let token ← t.whole "boolean_value" (Walk.next ["TRUE", "FALSE"])
    return .boolean ((← tokenText token) == "true")
  | "null_value" => t.whole "null_value" (pure .null)
  | _ => do
    let name ← t.whole "enum_value" (Walk.nameOf "enum_name")
    checkNames [("value", name)]
    return .enum name

/-! A list takes three nested calls and an object four: the one of the value, the one of the list or the
object, the one that goes through what is in it, and the one of a field. What a plain value, a name or a
clause takes is set aside. -/

def listCalls : Nat := 3

def objectCalls : Nat := 4

mutual

def value [Machine] : ParseTree → Converted Value
  | .token tag _ span =>
    if tag ∈ valueTags then .error (.mixUp .tokenForRule)
    else .error (.shape (.notValue tag) (some span))
  | .rule tag span children =>
    if tag = "list_value" then nestedIn listCalls fun _ => do
      let vs ← values children
      ((⟨tag, span, 0, children⟩ : Cursor).repeated valueTags).2.finish
      return .list vs
    else if tag = "object_value" then nestedIn objectCalls fun _ => do
      let fs ← objectFields children
      ((⟨tag, span, 0, children⟩ : Cursor).repeated ["object_field"]).2.finish
      return .object fs
    else if tag ∈ valueTags then plainValue (.rule tag span children)
    else .error (.shape (.notValue tag) span)

/-- The values in front of a list of children. -/
def values [Machine] : List ParseTree → Converted (List Value)
  | [] => .ok []
  | t :: ts =>
    if t.tag ∈ valueTags then do
      let v ← value t
      let vs ← values ts
      return v :: vs
    else .ok []

/-- The object fields in front of a list of children. -/
def objectFields [Machine] : List ParseTree → Converted (List (String × Value))
  | [] => .ok []
  | t :: ts =>
    if t.tag = "object_field" then do
      let f ← objectField t
      let fs ← objectFields ts
      return f :: fs
    else .ok []

def objectField [Machine] : ParseTree → Converted (String × Value)
  | .token _ _ _ => .error (.mixUp .tokenForRule)
  | .rule tag span children => do
    let (name, c) ← Walk.name ⟨tag, span, 0, children⟩
    let (_, c) ← c.next valueTags
    let v ← valueAt 1 children
    c.finish
    checkNames [("name", name)]
    return (name, v)

/-- The value that is child number `n`. -/
def valueAt [Machine] : Nat → List ParseTree → Converted Value
  | _, [] => .ok .null
  | 0, t :: _ => value t
  | n + 1, _ :: ts => valueAt n ts

end

variable [Machine]

def argument (t : ParseTree) : Converted Argument := do
  let a ← t.whole "argument" do
    let name ← Walk.name
    let child ← Walk.next valueTags
    let v ← Walk.lift (value child)
    return Argument.mk name v
  checkNames [("name", a.name)]
  return a

def arguments : Walk (List Argument) := Walk.clause "arguments" "argument" argument

def directive (t : ParseTree) : Converted Directive := do
  let d ← t.whole "directive" do
    let name ← Walk.name
    let args ← arguments
    return Directive.mk name args
  checkNames [("name", d.name)]
  return d

def directives : Walk (List Directive) := Walk.clause "directives" "directive" directive

def defaultValue : Walk (Option Value) := do
  match ← Walk.optional "default_value" with
  | none => return none
  | some t =>
    let v ← Walk.lift (t.whole "default_value" do
      let child ← Walk.next valueTags
      Walk.lift (value child))
    return some v

/-- The value of a text that is one value. -/
def valueLiteral (t : ParseTree) : Converted Value :=
  t.whole "value_literal" do
    let child ← Walk.next valueTags
    Walk.lift (value child)

omit [Machine]

/-- The type of a text that is one type. -/
def typeReference (t : ParseTree) : Converted TypeRef := t.whole "type_reference" type

end GraphQLDoc.Conversion
