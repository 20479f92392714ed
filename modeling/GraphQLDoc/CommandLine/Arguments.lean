import GraphQLDoc.CommandLine.Grammar
import GraphQLDoc.Json.Reader
import GraphQLDoc.Number.Numeral
import GraphQLDoc.Text.Character
import GraphQLDoc.Text.Quoted

/-!
Reading the arguments of a command. Options may be shortened to any beginning that no other option
has; their values follow as the next argument or behind an equals sign. What looks like a negative
number is no option, and behind two dashes nothing is. The first argument of the program that is no
option names a command, which reads the rest on its own.
-/
namespace GraphQLDoc.CommandLine

/-- Why there is nothing to run. -/
inductive Stop where
  | help (g : Grammar)
  | error (g : Grammar) (message : String)

/-- An option as it was written. -/
structure Written where
  argument : String
  /-- The option it stands for, if there is one. -/
  option : Option (String × Switch)
  /-- The value that is attached to it. -/
  value : Option (List Char)
  /-- Whether an equals sign attaches the value. -/
  equals : Bool

/-- What an argument is taken for before the options are looked at. -/
inductive Kind where
  | operand (s : String)
  | dashes
  | option (w : Written)

/-! Telling options from operands. -/

/-- Whether an argument is a minus sign and a number with digits of any script. -/
def isNegativeNumber (cs : List Char) : Bool :=
  let cs := if cs.getLast? = some '\n' then cs.dropLast else cs
  let isNumeral (ds : List Char) : Bool := ds.all fun c => (decimalDigit? c).isSome
  match cs with
  | '-' :: ds =>
    match ds.splitOn '.' with
    | [whole] => !whole.isEmpty && isNumeral whole
    | [whole, places] => isNumeral whole && !places.isEmpty && isNumeral places
    | _ => false
  | _ => false

/-- The part in front of an equals sign, and the part behind it. -/
def cutEquals (cs : List Char) : List Char × Option (List Char) :=
  let front := cs.takeWhile (· != '=')
  (front, if front.length < cs.length then some (cs.drop (front.length + 1)) else none)

/-- The options that a shortened argument may stand for. One dash and a letter may be followed by a
value at once. -/
def candidates (g : Grammar) (argument : String) : List Written :=
  match argument.toList with
  | '-' :: '-' :: cs =>
    let (front, value) := cutEquals ('-' :: '-' :: cs)
    (g.options.filter fun (name, _) => front.isPrefixOf name.toList).map fun o =>
      ⟨argument, some o, value, value.isSome⟩
  | '-' :: c :: cs =>
    g.options.filterMap fun o =>
      if o.1.toList = ['-', c] then some ⟨argument, some o, some cs, false⟩
      else if argument.toList.isPrefixOf o.1.toList then some ⟨argument, some o, none, false⟩
      else none
  | _ => []

def exactly? (g : Grammar) (argument : String) (name : List Char) (value : Option (List Char)) :
    Option Written :=
  (g.options.find? (·.1.toList == name)).map fun o => ⟨argument, some o, value, value.isSome⟩

/-- The option that an argument is, if it is one. -/
def writtenOption (g : Grammar) (argument : String) : Except Stop Kind :=
  let cs := argument.toList
  let (front, value) := cutEquals cs
  match exactly? g argument cs none with
  | some w => .ok (.option w)
  | none =>
    if cs.length = 1 then .ok (.operand argument)
    else match value.bind fun v => exactly? g argument front (some v) with
      | some w => .ok (.option w)
      | none =>
        match candidates g argument with
        | [w] => .ok (.option w)
        | [] =>
          if isNegativeNumber cs || cs.contains ' ' then .ok (.operand argument)
          else .ok (.option ⟨argument, none, none, false⟩)
        | ws =>
          .error (.error g ("ambiguous option: " ++ argument ++ " could match " ++
            ", ".intercalate (ws.filterMap fun w => w.option.map (·.1))))

def kindsOf (g : Grammar) : List String → Except Stop (List Kind)
  | [] => .ok []
  | a :: rest =>
    if a = "--" then .ok (.dashes :: rest.map .operand)
    else do
      let kind ← if a.startsWith "-" then writtenOption g a else pure (.operand a)
      return kind :: (← kindsOf g rest)

/-! Taking options and operands. -/

/-- What was read: the last indent, the operands if there was place for them, and what was left. -/
structure Reading where
  indent : Option Int
  operands : Option (List String)
  leftOver : List String

def Kind.text : Kind → String
  | operand s => s
  | dashes => "--"
  | option w => w.argument

def Kind.isOption : Kind → Bool
  | option _ => true
  | _ => false

def Kind.isOperand : Kind → Bool
  | operand _ => true
  | _ => false

/-- How many of the next arguments the operands take; none if there are too few. -/
def operandCount? (arity : Arity) (kinds : List Kind) : Option Nat :=
  let dashes := (kinds.takeWhile fun k => !k.isOperand && !k.isOption).length
  let behind := kinds.drop dashes
  let hasOperand := behind.head?.any Kind.isOperand
  let trailing :=
    match behind.drop 1 with
    | .dashes :: _ => 1
    | _ => 0
  match arity with
  | .one => if hasOperand then some (dashes + 1 + trailing) else none
  | .atMostOne => some (if hasOperand then dashes + 1 + trailing else dashes)
  | .command => if hasOperand then some kinds.length else none

/-- The operands among arguments; the first two dashes are not one, except for a command. -/
def operandsOf (arity : Arity) (kinds : List Kind) : List String :=
  if arity = .command then kinds.map Kind.text else (kinds.map Kind.text).erase "--"

/-- Takes the operands if they are still to be taken and are there: the arguments behind them. -/
def takeOperands (g : Grammar) (kinds : List Kind) (r : Reading) : List Kind × Reading :=
  match r.operands, operandCount? g.arity kinds with
  | none, some n =>
    (kinds.drop n, { r with operands := some (operandsOf g.arity (kinds.take n)) })
  | _, _ => (kinds, r)

def ignoredValue (g : Grammar) (value : List Char) : Stop :=
  .error g ("argument -h/--help: ignored explicit argument " ++
    Quoted.ofString (String.ofList value))

/-- What asking for help with a value attached comes to. Behind one dash further letters are options
of their own, up to one that is none. -/
def helpWith (g : Grammar) (equals : Bool) : List Char → Stop
  | [] => ignoredValue g []
  | c :: cs =>
    if equals || c = '-' then ignoredValue g (c :: cs)
    else if c = 'h' then
      match cs with
      | [] => .help g
      | '=' :: value => if value.isEmpty then ignoredValue g [] else ignoredValue g value
      | more => helpWith g false more
    else .help g

def integer? (cs : List Char) : Option Int :=
  (Numeral.literalInt? cs).bind fun (negative, digits) =>
    if Json.maxIntegerDigits < digits.length then none
    else
      let n : Int := Numeral.digitsValue digits
      some (if negative then -n else n)

def indentOf (g : Grammar) (cs : List Char) : Except Stop Int :=
  match integer? cs with
  | some n => .ok n
  | none =>
    .error (.error g
      ("argument --indent: invalid int value: " ++ Quoted.ofString (String.ofList cs)))

/-- Takes an option and perhaps a value behind it: the arguments that are left. -/
def takeOption (g : Grammar) (w : Written) (rest : List Kind) (r : Reading) :
    Except Stop (List Kind × Reading) :=
  match w.option, w.value with
  | none, _ => .ok (rest, { r with leftOver := r.leftOver ++ [w.argument] })
  | some (_, .help), none => .error (.help g)
  | some (name, .help), some value =>
    .error (if name = "-h" then helpWith g w.equals value else ignoredValue g value)
  | some (_, .indent), some value => do
    return (rest, { r with indent := some (← indentOf g value) })
  | some (_, .indent), none =>
    match rest with
    | .operand s :: rest => do return (rest, { r with indent := some (← indentOf g s.toList) })
    | _ => .error (.error g "argument --indent: expected one argument")

/-- Takes arguments from the front: operands up to the next option, what is too much, and the
option. Behind the last option operands are taken once more. -/
def take (g : Grammar) : Nat → List Kind → Reading → Except Stop Reading
  | 0, _, r => .ok r
  | fuel + 1, kinds, r =>
    if kinds.any Kind.isOption then
      match kinds with
      | .option w :: rest => do
        let (rest, r) ← takeOption g w rest r
        take g fuel rest r
      | _ =>
        let (rest, taken) := takeOperands g kinds r
        if rest.length < kinds.length then take g fuel rest taken
        else
          let front := kinds.takeWhile (!·.isOption)
          take g fuel (kinds.drop front.length)
            { taken with leftOver := taken.leftOver ++ front.map Kind.text }
    else
      let (rest, taken) := takeOperands g kinds r
      .ok { taken with leftOver := taken.leftOver ++ rest.map Kind.text }

def read (g : Grammar) (arguments : List String) : Except Stop Reading := do
  let kinds ← kindsOf g arguments
  take g (2 * kinds.length + 1) kinds ⟨none, none, []⟩

/-! Commands. -/

inductive Command where
  | init (directory : String)
  | parse (file : String) (indent : Option Int)
  | check (directory : String)

/-- The command of a name with its own arguments, and those that it leaves over. -/
def subcommand (s : Subcommand) (arguments : List String) :
    Except Stop (Command × List String) := do
  let r ← read s.grammar arguments
  let operand := r.operands.bind List.head?
  match s, operand with
  | .parse, none => throw (.error s.grammar "the following arguments are required: file")
  | .parse, some file => return (.parse file r.indent, r.leftOver)
  | .init, directory => return (.init (directory.getD "."), r.leftOver)
  | .check, directory => return (.check (directory.getD "."), r.leftOver)

def invalidCommand (name : String) : Stop :=
  .error mainGrammar ("argument COMMAND: invalid choice: " ++ Quoted.ofString name ++
    " (choose from " ++ ", ".intercalate (subcommands.map fun s => Quoted.ofString s.word) ++ ")")

def unrecognized (arguments : List String) : Stop :=
  .error mainGrammar ("unrecognized arguments: " ++ " ".intercalate arguments)

/-- The command that arguments ask for. Without any the help is shown. -/
def command (arguments : List String) : Except Stop Command := do
  let r ← read mainGrammar arguments
  match r.operands with
  | none =>
    if r.leftOver.isEmpty then throw (.help mainGrammar) else throw (unrecognized r.leftOver)
  | some [] => throw (.help mainGrammar)
  | some (name :: rest) =>
    match subcommands.find? (·.word == name) with
    | none => throw (invalidCommand name)
    | some s =>
      let (c, leftOver) ← subcommand s rest
      let all := r.leftOver ++ leftOver
      if all.isEmpty then return c else throw (unrecognized all)

end GraphQLDoc.CommandLine
