import GraphQLDoc.CommandLine.Arguments
import GraphQLDoc.Validation
import GraphQLDoc.Workspace.Compile
import GraphQLDoc.Workspace.Sources

/-!
Running commands on a file system. A command ends with an exit code or with a fault; what it printed
and what it changed up to then stays.
-/
namespace GraphQLDoc.CommandLine

structure Outcome where
  result : Except Fault Nat
  output : String
  errors : String
  files : FileSystem

namespace Outcome

/-- An exit with something printed. -/
def done (code : Nat) (output errors : String) (files : FileSystem) : Outcome :=
  ⟨.ok code, output, errors, files⟩

/-- A failure that is told in one line. -/
def failed (message : String) (files : FileSystem) : Outcome :=
  done 1 "" ("Error: " ++ message ++ "\n") files

def faulted (f : Fault) (files : FileSystem) : Outcome := ⟨.error f, "", "", files⟩

/-- What was printed before the rest. -/
def printed (output : String) (o : Outcome) : Outcome := { o with output := output ++ o.output }

end Outcome

/-- Goes on with the real path of a directory, which has to be there. -/
def inDirectory (raw : String) (fs : FileSystem) (run : Path → Outcome) : Outcome :=
  match fs.resolve (Path.ofString raw) with
  | .error e => .faulted (.resolve e) fs
  | .ok directory =>
    match fs.ask directory (fs.isDirectory directory) with
    | .error e => .faulted (.file e) fs
    | .ok true => run directory
    | .ok false => .failed ("directory '" ++ directory.text ++ "' does not exist.") fs

/-- Writes the default configuration, unless there is one. -/
def init (raw : String) (fs : FileSystem) : Outcome :=
  inDirectory raw fs fun directory =>
    let config := directory.child Config.fileName
    match fs.ask config (fs.hasPath config) with
    | .error e => .faulted (.file e) fs
    | .ok true => .failed ("workspace already exists at '" ++ config.text ++ "'.") fs
    | .ok false =>
      match fs.write config (Utf8.encode Config.defaultText.toList) with
      | .error e => .faulted (.file e) fs
      | .ok written =>
        .done 0 ("Initialized gqlast workspace at '" ++ config.text ++ "'.\n") "" written

/-- The layout for a width of indentation. -/
def layoutOf : Option Int → Json.Layout
  | none => .spaced
  | some width => .indented width

/-- The lines below the message of an error of syntax. -/
def contextOf : SourceError → String
  | .content (.malformed e) => e.context ++ "\n"
  | _ => ""

variable [Machine]

/-- A width has to have 64 bits, and as many blanks to fit into the memory. -/
def checkWidth : Option Int → Except Fault Unit
  | none => .ok ()
  | some width =>
    if ¬ (minInt64 ≤ width ∧ width ≤ maxInt64) then .error (.width width)
    else if width ≤ Machine.characters then .ok ()
    else .error .memory

/-- The text of a document with a width of indentation, which has to fit into the memory. -/
def printed (d : Document) (indent : Option Int) : Except Fault String :=
  match d.dump with
  | .error e => .error (.dump e)
  | .ok data =>
    match checkWidth indent with
    | .error f => .error f
    | .ok () =>
      let text := data.render (layoutOf indent)
      if text.length ≤ Machine.characters then .ok text else .error .memory

/-- Prints the document in a file as JSON. -/
def parse (file : String) (indent : Option Int) (fs : FileSystem) : Outcome :=
  let p := Path.ofString file
  match parseFile fs p with
  | .ok d =>
    match printed d indent with
    | .ok text => .done 0 (text ++ "\n") "" fs
    | .error f => .faulted f fs
  | .error e =>
    match e.report? with
    | some text => .done 1 "" ("Error: " ++ p.text ++ ": " ++ text ++ "\n" ++ contextOf e) fs
    | none => .faulted (.source e) fs

/-- The lines for the results of validation: warnings, and errors. -/
def reportLines (results : List (String × Validation.Result)) : String × String :=
  (String.join (results.flatMap fun (key, r) =>
      r.warnings.map fun w => "Warning: " ++ key ++ ": " ++ w.message ++ "\n"),
    String.join (results.flatMap fun (key, r) =>
      r.errors.map fun e => "Error: " ++ key ++ ": " ++ e.message ++ "\n"))

/-- Tells what validation found. -/
def conclude (results : List (String × Validation.Result)) (fs : FileSystem) : Outcome :=
  let (warnings, errors) := reportLines results
  if results.any (·.2.hasErrors) then .done 1 warnings errors fs
  else .done 0 (warnings ++ "No issues found.\n") errors fs

/-- Validates the documents of a workspace. -/
def validateAll (documents : List (String × Document)) (fs : FileSystem) : Outcome :=
  match Validation.validateWorkspace documents with
  | .error u => .faulted (.unhandledKind u) fs
  | .ok results => conclude results fs

/-- Compiles and validates the sources of a workspace. -/
def checkSources (directory : Path) (config : Config) (fs : FileSystem) : Outcome :=
  match Sources.files fs directory config with
  | .error f => .faulted f fs
  | .ok [] => .done 0 "No .graphql files found in the workspace.\n" "" fs
  | .ok sources =>
    let build := directory.join (Path.ofString (match config.buildDirectory with
      | .text s => s
      | .unpaired _ => ""))
    Outcome.printed ("Checking " ++ decimalText sources.length ++ " GraphQL file(s)...\n") <|
      match Compile.files sources build directory fs with
      | (.error (.fault f), fs) => .faulted f fs
      | (.error e, fs) => .failed ((Compile.report e).getD "") fs
      | (.ok documents, fs) => validateAll documents fs

def check (raw : String) (fs : FileSystem) : Outcome :=
  inDirectory raw fs fun directory =>
    let file := directory.child Config.fileName
    match fs.ask file (fs.hasPath file) with
    | .error e => .faulted (.file e) fs
    | .ok false =>
      .failed ("no gqlast workspace found at '" ++ directory.text ++
        "'. Run 'gqlast init' to create one.") fs
    | .ok true =>
      match Config.load fs file with
      | .error (.fault f) => .faulted f fs
      | .error (.problem p) => .failed (p.message file) fs
      | .ok config => checkSources directory config fs

def Command.run (fs : FileSystem) : Command → Outcome
  | .init directory => CommandLine.init directory fs
  | .parse file indent => CommandLine.parse file indent fs
  | .check directory => CommandLine.check directory fs

def Stop.outcome (fs : FileSystem) : Stop → Outcome
  | .help g => .done 0 g.help "" fs
  | .error g message => .done 2 "" (g.usage ++ g.name ++ ": error: " ++ message ++ "\n") fs

/-- Runs the program with its arguments. -/
def run (arguments : List String) (fs : FileSystem) : Outcome :=
  match command arguments with
  | .error s => s.outcome fs
  | .ok c => c.run fs

end GraphQLDoc.CommandLine
